import RedisOps.BTree.Page
import RedisOps.Lib.Par
import Mathlib.Data.List.AList

/-!
# The buffer pool (`redisdb/src/btree/buffer_pool.rs`)

A page is in the map, in the file, or in both; the dirty flag says whether the file is behind. Each method is a
program over the sections that hold a lock, and alone it is a function on the pool:

| here | there | alone |
| --- | --- | --- |
| `getPage`, `evictIfNeeded` | `get_page`, `evict_if_needed` (`:26-49, 160-178`) | `run_getPage` |
| `PoolOp.put`, `PoolOp.setDirty` | `put_page`, `mark_dirty` (`:51-63`) | |
| `flushPage`, `flushAll` | `flush_page`, `flush_all` (`:65-102`) | `run_flushPage` |
| `loadPage`, `savePage` | `load_page`, `save_page` (`:116-152`) | |

There are no I/O errors but reading what is not in the file, and what is written is taken to be in the file when
`save_page` returns, though nothing waits there for the last write to be through. The offset of a page is a product of
two `usize`, which wraps: pages whose ids differ by 2^52 share their place in the file.
-/

namespace RedisOps.BTree

open Lib

/-! ## State -/

/-- `pages`: every page under its own id. -/
abbrev Frames := AList fun id : UInt64 => { page : Page // page.id = id }

structure Pool where
  pages : Frames
  lru : List UInt64
  capacity : Nat
  file : Option Bytes

/-- `page_id as usize * PAGE_SIZE` -/
def offset (id : UInt64) : Nat := id.toNat * PAGE_SIZE % 2 ^ 64

/-- `load_page`: no file, or not enough of it, is an error. -/
def loadPage (file : Option Bytes) (id : UInt64) : Option Page :=
  match file with
  | none => none
  | some bytes =>
    if h : offset id + PAGE_SIZE ≤ bytes.length then
      some ⟨id, slice bytes (offset id) PAGE_SIZE, false, length_slice h⟩
    else none

/-- `save_page` creates the file, and fills the gap when it writes behind its end. -/
def savePage (file : Option Bytes) (page : Page) : Option Bytes :=
  some (writeAt 0 (file.getD []) (offset page.id) page.data)

/-- `touch_lru` -/
def touch (lru : List UInt64) (id : UInt64) : List UInt64 := lru.filter (fun id' => id' ≠ id) ++ [id]

namespace Pool

/-- `BufferPool::new` on a file that may be there. -/
def new (capacity : Nat) (file : Option Bytes) : Pool := ⟨∅, [], capacity, file⟩

def page (pool : Pool) (id : UInt64) : Option Page := (pool.pages.lookup id).map Subtype.val

def insert (pool : Pool) (page : Page) : Pool := { pool with pages := pool.pages.insert page.id ⟨page, rfl⟩ }

def setDirty (pool : Pool) (id : UInt64) (dirty : Bool) : Pool :=
  match pool.page id with
  | some page => pool.insert { page with dirty := dirty }
  | none => pool

def remove (pool : Pool) (id : UInt64) : Pool := { pool with pages := pool.pages.erase id }

def dirtyIds (pool : Pool) : List UInt64 :=
  (pool.pages.entries.filter fun frame => frame.2.1.dirty).map Sigma.fst

end Pool

/-- The order a `HashMap` is iterated in: it is not specified, and may be another one every time. -/
abbrev Shuffle := { f : List UInt64 → List UInt64 // ∀ ids, (f ids).Perm ids }

/-! ## Methods -/

inductive PoolOp where
  | lookup (id : UInt64)
  | load (id : UInt64)
  | insert (page : Page)
  | overCapacity
  | popFront
  | snapshot (id : UInt64)
  | save (page : Page)
  | setDirty (id : UInt64) (dirty : Bool)
  | remove (id : UInt64)
  | put (page : Page)
  | dirtyIds (order : Shuffle)

@[reducible] def PoolOp.Ret : PoolOp → Type
  | .lookup _ | .snapshot _ => Option Page
  | .load _ => Page
  | .overCapacity => Bool
  | .popFront => Option UInt64
  | .dirtyIds _ => List UInt64
  | .insert _ | .save _ | .setDirty _ _ | .remove _ | .put _ => Unit

/-- A hit in `get_page` moves the page to the end of the queue, a page loaded from the file does not enter it. -/
def poolExec : (o : PoolOp) → Pool → Option (o.Ret × Pool)
  | .lookup id, pool =>
    match pool.page id with
    | some page => some (some page, { pool with lru := touch pool.lru id })
    | none => some (none, pool)
  | .load id, pool => (loadPage pool.file id).map (·, pool)
  | .insert page, pool => some ((), pool.insert page)
  | .overCapacity, pool => some (decide (pool.capacity < pool.pages.keys.length), pool)
  | .popFront, pool => some (pool.lru.head?, { pool with lru := pool.lru.tail })
  | .snapshot id, pool => some (pool.page id, pool)
  | .save page, pool => some ((), { pool with file := savePage pool.file page })
  | .setDirty id dirty, pool => some ((), pool.setDirty id dirty)
  | .remove id, pool => some ((), pool.remove id)
  | .put page, pool => some ((), { pool.insert page with lru := touch pool.lru page.id })
  | .dirtyIds order, pool => some (order.1 pool.dirtyIds, pool)

abbrev PoolTask : Type → Type := Prog PoolOp PoolOp.Ret

def lock (o : PoolOp) : PoolTask o.Ret := Prog.call o

/-- `flush_page` once it has its copy: write the copy, clear the flag of whatever page is there by then. -/
def flushCopy (id : UInt64) : Option Page → PoolTask Unit
  | none => pure ()
  | some page =>
    if page.dirty then do
      lock (.save page)
      lock (.setDirty id false)
    else pure ()

def flushPage (id : UInt64) : PoolTask Unit := do
  let copy ← lock (.snapshot id)
  flushCopy id copy

/-- The page at the front of the queue leaves the pool. -/
def evict (id : UInt64) : PoolTask Unit := do
  flushPage id
  lock (.remove id)

def evictIfNeeded : PoolTask Unit := do
  if ← lock .overCapacity then
    match ← lock .popFront with
    | some id => evict id
    | none => pure ()

def getPage (id : UInt64) : PoolTask Page := do
  match ← lock (.lookup id) with
  | some page => pure page
  | none => do
    let page ← lock (.load id)
    lock (.insert page)
    evictIfNeeded
    pure page

def flushEach : List UInt64 → PoolTask Unit
  | [] => pure ()
  | id :: ids => do
    flushPage id
    flushEach ids

def flushAll (order : Shuffle) : PoolTask Unit := do
  let ids ← lock (.dirtyIds order)
  flushEach ids

/-! ## Pages of a pool -/

namespace Pool

theorem page_id {pool : Pool} {id : UInt64} {page : Page} (h : pool.page id = some page) : page.id = id := by
  obtain ⟨frame, -, rfl⟩ := Option.map_eq_some_iff.1 h
  exact frame.2

@[simp] theorem page_insert (pool : Pool) (page : Page) (id : UInt64) :
    (pool.insert page).page id = if id = page.id then some page else pool.page id := by
  unfold Pool.page Pool.insert
  split
  · rename_i h
    subst h
    simp
  · rename_i h
    simp [AList.lookup_insert_ne h]

@[simp] theorem page_setDirty (pool : Pool) (id : UInt64) (dirty : Bool) (id' : UInt64) :
    (pool.setDirty id dirty).page id' =
      if id' = id then (pool.page id).map fun page => { page with dirty := dirty } else pool.page id' := by
  unfold setDirty
  cases hp : pool.page id with
  | none =>
    by_cases h : id' = id
    · simp [h, hp]
    · simp [h]
  | some page => simp [page_id hp]

@[simp] theorem page_remove (pool : Pool) (id id' : UInt64) :
    (pool.remove id).page id' = if id' = id then none else pool.page id' := by
  unfold Pool.page remove
  split
  · rename_i h
    subst h
    simp
  · rename_i h
    simp [AList.lookup_erase_ne h]

@[simp] theorem file_insert (pool : Pool) (page : Page) : (pool.insert page).file = pool.file := rfl

@[simp] theorem file_setDirty (pool : Pool) (id : UInt64) (dirty : Bool) :
    (pool.setDirty id dirty).file = pool.file := by
  unfold setDirty
  split <;> rfl

@[simp] theorem file_remove (pool : Pool) (id : UInt64) : (pool.remove id).file = pool.file := rfl

theorem mem_dirtyIds {pool : Pool} {id : UInt64} :
    id ∈ pool.dirtyIds ↔ ∃ page, pool.page id = some page ∧ page.dirty = true := by
  simp only [dirtyIds, List.mem_map, List.mem_filter, Pool.page, Option.map_eq_some_iff]
  constructor
  · rintro ⟨frame, ⟨hmem, hdirty⟩, rfl⟩
    exact ⟨frame.2.1, ⟨frame.2, AList.mem_lookup_iff.2 hmem, rfl⟩, hdirty⟩
  · rintro ⟨page, ⟨frame, hframe, rfl⟩, hdirty⟩
    exact ⟨⟨id, frame⟩, ⟨AList.mem_lookup_iff.1 hframe, hdirty⟩, rfl⟩

end Pool

/-! ## The methods alone -/

namespace Pool

/-- What `flush_page` does when nothing comes between its steps. -/
def flushed (pool : Pool) (id : UInt64) : Pool :=
  match pool.page id with
  | none => pool
  | some page =>
    if page.dirty then { pool with file := savePage pool.file page }.setDirty id false else pool

def evicted (pool : Pool) (id : UInt64) : Pool := (pool.flushed id).remove id

def trimmed (pool : Pool) : Pool :=
  if pool.capacity < pool.pages.keys.length then
    match pool.lru with
    | [] => pool
    | id :: lru => { pool with lru := lru }.evicted id
  else pool

end Pool

theorem run_flushPage (pool : Pool) (id : UInt64) :
    (flushPage id).run poolExec pool = (some (), pool.flushed id) := by
  unfold Pool.flushed
  cases hp : pool.page id with
  | none => simp [flushPage, flushCopy, lock, Prog.call, Prog.run, poolExec, hp]
  | some page => cases hd : page.dirty <;> simp [flushPage, flushCopy, lock, Prog.call, Prog.run, poolExec, hp, hd]

theorem run_evict (pool : Pool) (id : UInt64) : (evict id).run poolExec pool = (some (), pool.evicted id) := by
  rw [evict, Prog.run_bind, run_flushPage]
  rfl

theorem run_evictIfNeeded (pool : Pool) : evictIfNeeded.run poolExec pool = (some (), pool.trimmed) := by
  unfold Pool.trimmed
  by_cases hover : pool.capacity < pool.pages.keys.length
  · cases hlru : pool.lru with
    | nil =>
      simp only [evictIfNeeded, lock, Prog.call, Prog.op_bind, Prog.ret_bind, Prog.run, poolExec, decide_eq_true hover,
        if_true, hlru, List.head?_nil, List.tail_nil, if_pos hover]
      rw [← hlru]
      rfl
    | cons id lru =>
      rw [if_pos hover]
      simp only [evictIfNeeded, lock, Prog.call, Prog.op_bind, Prog.ret_bind, Prog.run, poolExec, decide_eq_true hover,
        if_true, hlru, List.head?_cons, List.tail_cons]
      exact run_evict _ id
  · simp [evictIfNeeded, lock, Prog.call, Prog.run, poolExec, hover]

theorem run_getPage (pool : Pool) (id : UInt64) : (getPage id).run poolExec pool =
    match pool.page id with
    | some page => (some page, { pool with lru := touch pool.lru id })
    | none =>
      match loadPage pool.file id with
      | some page => (some page, (pool.insert page).trimmed)
      | none => (none, pool) := by
  cases hp : pool.page id with
  | some page => simp [getPage, lock, Prog.call, Prog.run, poolExec, hp]
  | none =>
    cases hl : loadPage pool.file id with
    | none => simp [getPage, lock, Prog.call, Prog.run, poolExec, hp, hl]
    | some page =>
      have hstep : (getPage id).run poolExec pool =
          (evictIfNeeded >>= fun _ => pure page).run poolExec (pool.insert page) := by
        simp [getPage, lock, Prog.call, Prog.run, poolExec, hp, hl]
      rw [hstep, Prog.run_bind, run_evictIfNeeded]
      rfl

theorem run_flushEach : ∀ (ids : List UInt64) (pool : Pool),
    (flushEach ids).run poolExec pool = (some (), ids.foldl Pool.flushed pool)
  | [], pool => rfl
  | id :: ids, pool => by
    rw [flushEach, Prog.run_bind, run_flushPage]
    exact run_flushEach ids (pool.flushed id)

theorem run_flushAll (order : Shuffle) (pool : Pool) :
    (flushAll order).run poolExec pool = (some (), (order.1 pool.dirtyIds).foldl Pool.flushed pool) :=
  run_flushEach _ pool

/-! ## What a page holds -/

/-- The file has the data in the page's place. -/
def OnDisk (file : Option Bytes) (id : UInt64) (data : Bytes) : Prop :=
  ∃ bytes, file = some bytes ∧ readAt bytes (offset id) PAGE_SIZE = some data

/-- The page has the data: in the map, and unless it is dirty in the file too, or only in the file. -/
structure Holds (pool : Pool) (id : UInt64) (data : Bytes) : Prop where
  cached : ∀ page, pool.page id = some page → page.data = data ∧ (page.dirty = false → OnDisk pool.file id data)
  stored : pool.page id = none → OnDisk pool.file id data

/-- The places of the two pages in the file do not meet. -/
def Apart (id id' : UInt64) : Prop := offset id + PAGE_SIZE ≤ offset id' ∨ offset id' + PAGE_SIZE ≤ offset id

theorem onDisk_save (file : Option Bytes) (page : Page) : OnDisk (savePage file page) page.id page.data := by
  refine ⟨_, rfl, ?_⟩
  have := readAt_writeAt 0 (file.getD []) (offset page.id) page.data
  rwa [page.size] at this

theorem OnDisk.save {file : Option Bytes} {id : UInt64} {data : Bytes} (h : OnDisk file id data) {page : Page}
    (hd : Apart id page.id) : OnDisk (savePage file page) id data := by
  obtain ⟨bytes, rfl, hread⟩ := h
  exact ⟨_, rfl, readAt_writeAt_of_disjoint hread (by rw [page.size]; exact hd)⟩

theorem OnDisk.load {file : Option Bytes} {id : UInt64} {data : Bytes} (h : OnDisk file id data) :
    ∃ page, loadPage file id = some page ∧ page.id = id ∧ page.data = data ∧ page.dirty = false := by
  obtain ⟨bytes, rfl, hread⟩ := h
  obtain ⟨hle, hslice⟩ := readAt_eq_some.1 hread
  exact ⟨_, dif_pos hle, rfl, hslice, rfl⟩

theorem onDisk_of_load {file : Option Bytes} {id : UInt64} {page : Page} (h : loadPage file id = some page) :
    page.id = id ∧ page.dirty = false ∧ OnDisk file id page.data := by
  cases file with
  | none => cases h
  | some bytes =>
    simp only [loadPage] at h
    split at h
    · rename_i hle
      cases h
      exact ⟨rfl, rfl, bytes, rfl, readAt_eq_some.2 ⟨hle, rfl⟩⟩
    · cases h

section Holds
variable {pool : Pool} {id id' : UInt64} {data : Bytes}

/-- `get_page` answers what the page holds. -/
theorem Holds.get (h : Holds pool id data) :
    ∃ page pool', (getPage id).run poolExec pool = (some page, pool') ∧ page.id = id ∧ page.data = data := by
  rw [run_getPage]
  cases hp : pool.page id with
  | some page => exact ⟨page, _, rfl, Pool.page_id hp, (h.cached page hp).1⟩
  | none =>
    obtain ⟨page, hload, hid, hdata, -⟩ := (h.stored hp).load
    simp only [hload]
    exact ⟨page, _, rfl, hid, hdata⟩

theorem holds_put (pool : Pool) {page : Page} (hdirty : page.dirty = true) : Holds (pool.insert page) page.id page.data := by
  refine ⟨fun p hp => ?_, fun hp => ?_⟩
  · simp only [Pool.page_insert, if_true, Option.some.injEq] at hp
    subst hp
    exact ⟨rfl, fun hclean => by rw [hdirty] at hclean; cases hclean⟩
  · simp at hp

/-- Another page comes into the pool. -/
theorem Holds.insert_of_ne (h : Holds pool id data) {page : Page} (hne : id ≠ page.id) :
    Holds (pool.insert page) id data := by
  have hsame : (pool.insert page).page id = pool.page id := by rw [Pool.page_insert, if_neg hne]
  exact ⟨fun p hp => h.cached p (by rwa [← hsame]), fun hp => h.stored (by rwa [← hsame])⟩

/-- The page comes into the pool from the file. -/
theorem Holds.load (h : Holds pool id data) {page : Page} (hload : loadPage pool.file page.id = some page)
    (hmiss : pool.page page.id = none) : Holds (pool.insert page) id data := by
  by_cases hid : id = page.id
  · subst hid
    obtain ⟨page', hload', -, hdata, -⟩ := (h.stored hmiss).load
    rw [hload, Option.some.injEq] at hload'
    subst hload'
    refine ⟨fun p hp => ?_, fun hp => ?_⟩
    · simp only [Pool.page_insert, if_true, Option.some.injEq] at hp
      subst hp
      exact ⟨hdata, fun _ => h.stored hmiss⟩
    · simp at hp
  · exact h.insert_of_ne hid

theorem Holds.markDirty (h : Holds pool id data) (id' : UInt64) : Holds (pool.setDirty id' true) id data := by
  refine ⟨fun p hp => ?_, fun hp => ?_⟩
  · rw [Pool.page_setDirty] at hp
    split at hp
    · rename_i hid
      obtain ⟨page, hpage, rfl⟩ := Option.map_eq_some_iff.1 hp
      exact ⟨(h.cached page (hid ▸ hpage)).1, fun hclean => by simp at hclean⟩
    · exact ⟨(h.cached p hp).1, fun hclean => by simpa using (h.cached p hp).2 hclean⟩
  · rw [Pool.file_setDirty]
    apply h.stored
    rw [Pool.page_setDirty] at hp
    split at hp
    · rename_i hid
      rw [hid]
      exact Option.map_eq_none_iff.1 hp
    · exact hp

/-- A dirty page of the pool is saved and clean. -/
theorem Pool.flushed_of_dirty {page : Page} (hp : pool.page id' = some page) (hd : page.dirty = true) :
    pool.flushed id' = { pool with file := savePage pool.file page }.setDirty id' false := by
  simp only [flushed, hp, hd, if_true]

theorem Pool.flushed_of_clean (h : ∀ page, pool.page id' = some page → page.dirty = false) :
    pool.flushed id' = pool := by
  unfold flushed
  cases hp : pool.page id' with
  | none => rfl
  | some page => simp [h page hp]

/-- Flushing changes the flag of one page, and nothing else in the map. -/
theorem Pool.page_flushed (pool : Pool) (id' id : UInt64) : (pool.flushed id').page id =
    if id = id' then (pool.page id').map fun page => { page with dirty := false } else pool.page id := by
  cases hp : pool.page id' with
  | none =>
    rw [flushed_of_clean (by simp [hp])]
    split
    · rename_i hid
      rw [hid, hp]
      rfl
    · rfl
  | some page =>
    cases hd : page.dirty with
    | true =>
      rw [flushed_of_dirty hp hd, page_setDirty]
      change (if id = id' then (pool.page id').map _ else pool.page id) = _
      rw [hp]
    | false =>
      have hsame : { page with dirty := false } = page := by
        cases page
        simp_all
      rw [flushed_of_clean (by simp [hp, hd]), Option.map_some, hsame]
      split
      · rename_i hid
        rw [hid, hp]
      · rfl

theorem Pool.flushed_clean (pool : Pool) (id : UInt64) {page : Page} (h : (pool.flushed id).page id = some page) :
    page.dirty = false := by
  rw [page_flushed, if_pos rfl] at h
  obtain ⟨_, -, rfl⟩ := Option.map_eq_some_iff.1 h
  rfl

/-- Writing a page back leaves what every page holds, if their places do not meet. -/
theorem Holds.flushed (h : Holds pool id data) (hap : ∀ page, pool.page id' = some page → id ≠ id' → Apart id id') :
    Holds (pool.flushed id') id data := by
  by_cases hclean : ∀ page, pool.page id' = some page → page.dirty = false
  · rwa [Pool.flushed_of_clean hclean]
  · obtain ⟨page, hp, hd⟩ : ∃ page, pool.page id' = some page ∧ page.dirty = true := by
      simpa using hclean
    have hfile : (pool.flushed id').file = savePage pool.file page := by
      rw [Pool.flushed_of_dirty hp hd, Pool.file_setDirty]
    have hid := Pool.page_id hp
    by_cases hne : id = id'
    · subst hne
      have hdisk : OnDisk (pool.flushed id).file id data := by
        rw [hfile, ← (h.cached page hp).1]
        simpa [hid] using onDisk_save pool.file page
      refine ⟨fun p hp' => ⟨?_, fun _ => hdisk⟩, fun _ => hdisk⟩
      rw [Pool.page_flushed, if_pos rfl, hp, Option.map_some, Option.some.injEq] at hp'
      rw [← hp']
      exact (h.cached page hp).1
    · have hsame : (pool.flushed id').page id = pool.page id := by rw [Pool.page_flushed, if_neg hne]
      have hkeep : OnDisk pool.file id data → OnDisk (pool.flushed id').file id data := by
        intro hdisk
        rw [hfile]
        exact hdisk.save (by rw [hid]; exact hap page hp hne)
      refine ⟨fun p hp' => ?_, fun hp' => hkeep (h.stored (by rwa [← hsame]))⟩
      obtain ⟨hdata, hdisk⟩ := h.cached p (by rwa [← hsame])
      exact ⟨hdata, fun hc => hkeep (hdisk hc)⟩

theorem Holds.evicted (h : Holds pool id data) (hap : ∀ page, pool.page id' = some page → id ≠ id' → Apart id id') :
    Holds (pool.evicted id') id data := by
  have hflush := h.flushed hap
  by_cases hne : id = id'
  · subst hne
    refine ⟨fun p hp => ?_, fun _ => ?_⟩
    · simp [Pool.evicted] at hp
    · -- a page that is written back can go
      change OnDisk (pool.flushed id).file id data
      cases hp : (pool.flushed id).page id with
      | none => exact hflush.stored hp
      | some page => exact (hflush.cached page hp).2 (pool.flushed_clean id hp)
  · have hsame : (pool.evicted id').page id = (pool.flushed id').page id := by
      rw [Pool.evicted, Pool.page_remove, if_neg hne]
    exact ⟨fun p hp => hflush.cached p (by rwa [← hsame]), fun hp => hflush.stored (by rwa [← hsame])⟩

/-- The queue does not matter for what a page holds. -/
theorem Holds.congr (h : Holds pool id data) {pool' : Pool} (hpages : pool'.pages = pool.pages)
    (hfile : pool'.file = pool.file) : Holds pool' id data := by
  have hsame : ∀ id, pool'.page id = pool.page id := fun id => by rw [Pool.page, hpages]; rfl
  refine ⟨fun p hp => ?_, fun hp => ?_⟩
  · rw [hfile]
    exact h.cached p (by rwa [← hsame])
  · rw [hfile]
    exact h.stored (by rwa [← hsame])

end Holds

end RedisOps.BTree
