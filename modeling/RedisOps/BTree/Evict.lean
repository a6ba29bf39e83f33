import RedisOps.BTree.Coherence

/-!
# Eviction with a failing disk (`redisdb/src/btree/buffer_pool.rs:26-49, 65-86, 160-178`)

`get_page` may have to write a page that has nothing to do with the one it was asked for. `evict_if_needed` drops the
error of that write (`.ok()`, `:172`) and then the page (`:174`). The next `get_page` of it reads the file, and finds
there what the failed write left.

The methods are those of `Pool` with the outcome of the one `save_page` as a parameter; without a fault they are the
same (`faulty_getPage_none`).

* `evicted_page_kept_iff` — the page comes back as it was exactly when the file had the rest of it already.
-/

namespace RedisOps.BTree

open Lib

/-- How `save_page` fails: the file is not opened, or the bytes from the `n`th on are not written. -/
inductive SaveFault where
  | notOpened
  | write (n : Fin PAGE_SIZE)

/-- The bytes that are written all the same. -/
def SaveFault.written : SaveFault → Nat
  | .notOpened => 0
  | .write n => n

/-- The file after a failed `save_page`. Opening creates it. -/
def failedSave (file : Option Bytes) (page : Page) : SaveFault → Option Bytes
  | .notOpened => file
  | .write n =>
    if n.1 = 0 then some (file.getD []) else some (writeAt 0 (file.getD []) (offset page.id) (page.data.take n))

namespace Faulty

/-- `flush_page`, and whether it is `Ok`. -/
def flushPage (fault : Option SaveFault) (id : UInt64) (pool : Pool) : Bool × Pool :=
  match pool.page id with
  | none => (true, pool)
  | some page =>
    if page.dirty then
      match fault with
      | some fault => (false, { pool with file := failedSave pool.file page fault })
      | none => (true, { pool with file := savePage pool.file page }.setDirty id false)
    else (true, pool)

/-- What `flush_page` answers is not looked at. -/
def evictIfNeeded (fault : Option SaveFault) (pool : Pool) : Pool :=
  if pool.capacity < pool.pages.keys.length then
    match pool.lru with
    | [] => pool
    | id :: lru => (flushPage fault id { pool with lru := lru }).2.remove id
  else pool

def getPage (fault : Option SaveFault) (id : UInt64) (pool : Pool) : Option Page × Pool :=
  match pool.page id with
  | some page => (some page, { pool with lru := touch pool.lru id })
  | none =>
    match loadPage pool.file id with
    | some page => (some page, evictIfNeeded fault (pool.insert page))
    | none => (none, pool)

end Faulty

theorem faulty_flushPage_none (id : UInt64) (pool : Pool) : (Faulty.flushPage none id pool).2 = pool.flushed id := by
  unfold Faulty.flushPage Pool.flushed
  cases pool.page id with
  | none => rfl
  | some page => cases hd : page.dirty <;> simp [hd]

theorem faulty_evictIfNeeded_none (pool : Pool) : Faulty.evictIfNeeded none pool = pool.trimmed := by
  unfold Faulty.evictIfNeeded Pool.trimmed
  split
  · cases pool.lru with
    | nil => rfl
    | cons id lru =>
      simp only [faulty_flushPage_none]
      rfl
  · rfl

/-- Without a fault, the methods of the pool. -/
theorem faulty_getPage_none (id : UInt64) (pool : Pool) :
    Faulty.getPage none id pool = (getPage id).run poolExec pool := by
  rw [run_getPage, Faulty.getPage]
  cases pool.page id with
  | some page => rfl
  | none =>
    cases loadPage pool.file id with
    | some page => exact congrArg (Prod.mk (some page)) (faulty_evictIfNeeded_none (pool.insert page))
    | none => rfl

/-! ## What the failed write left -/

/-- The page is in the file after a failed write exactly when the part that was not written was there before. -/
theorem onDisk_failedSave (bytes : Bytes) (page : Page) (fault : SaveFault) :
    OnDisk (failedSave (some bytes) page fault) page.id page.data ↔
      readAt bytes (offset page.id + fault.written) (PAGE_SIZE - fault.written) =
        some (page.data.drop fault.written) := by
  have hsome : ∀ bytes, OnDisk (some bytes) page.id page.data ↔
      readAt bytes (offset page.id) PAGE_SIZE = some page.data := by
    intro bytes
    exact ⟨fun ⟨_, hbytes, hread⟩ => by cases hbytes; exact hread, fun hread => ⟨bytes, rfl, hread⟩⟩
  cases fault with
  | notOpened => exact hsome bytes
  | write n =>
    obtain ⟨n, hn⟩ := n
    obtain ⟨w, hw⟩ : ∃ w, PAGE_SIZE = n + w := ⟨PAGE_SIZE - n, by omega⟩
    simp only [failedSave, SaveFault.written, Option.getD_some]
    split
    · rename_i hzero
      rw [hzero]
      exact hsome bytes
    · have hlen : (page.data.take n).length = n := by
        rw [List.length_take, page.size]
        omega
      have hfront := readAt_writeAt 0 bytes (offset page.id) (page.data.take n)
      rw [hlen] at hfront
      rw [hsome, hw, Nat.add_sub_cancel_left, readAt_add (by rw [page.size, hw]),
        readAt_writeAt_behind 0 bytes hlen (by omega)]
      exact ⟨fun h => h.2, fun h => ⟨hfront, h⟩⟩

theorem load_iff_onDisk (file : Option Bytes) (id : UInt64) (data : Bytes) :
    (∃ page, loadPage file id = some page ∧ page.data = data) ↔ OnDisk file id data := by
  constructor
  · rintro ⟨page, hload, rfl⟩
    exact (onDisk_of_load hload).2.2
  · intro h
    obtain ⟨page, hload, -, hdata, -⟩ := h.load
    exact ⟨page, hload, hdata⟩

/-! ## The page that goes -/

/-- `get_page(id)` loads, is then over the capacity and finds `victim` at the front of the queue, with the dirty flag
    set. -/
structure Evicts (pool : Pool) (id : UInt64) (victim : Page) : Prop where
  miss : pool.page id = none
  load : ∃ loaded, loadPage pool.file id = some loaded ∧ pool.capacity < (pool.insert loaded).pages.keys.length
  front : pool.lru.head? = some victim.id
  resident : pool.page victim.id = some victim
  dirty : victim.dirty = true

theorem faulty_evictIfNeeded_some {pool : Pool} {id : UInt64} {lru : List UInt64} {page : Page} {fault : SaveFault}
    (hover : pool.capacity < pool.pages.keys.length) (hlru : pool.lru = id :: lru) (hpage : pool.page id = some page)
    (hdirty : page.dirty = true) : Faulty.evictIfNeeded (some fault) pool =
      Pool.remove { pool with lru := lru, file := failedSave pool.file page fault } id := by
  have hflush : Faulty.flushPage (some fault) id { pool with lru := lru } =
      (false, { pool with lru := lru, file := failedSave pool.file page fault }) := by
    rw [Faulty.flushPage, show ({ pool with lru := lru } : Pool).page id = some page from hpage]
    simp only [hdirty, if_true]
  rw [Faulty.evictIfNeeded, if_pos hover, hlru]
  simp only [hflush]

/-- The page leaves the pool, and the file is what the failed write made of it. -/
theorem Evicts.faulty {pool : Pool} {id : UInt64} {victim : Page} (h : Evicts pool id victim) (fault : SaveFault) :
    (Faulty.getPage (some fault) id pool).2.page victim.id = none ∧
      (Faulty.getPage (some fault) id pool).2.file = failedSave pool.file victim fault := by
  obtain ⟨loaded, hload, hover⟩ := h.load
  obtain ⟨lru, hlru⟩ := List.head?_eq_some_iff.1 h.front
  have hne : victim.id ≠ loaded.id := by
    intro heq
    have hpage := h.resident
    rw [heq, (onDisk_of_load hload).1, h.miss] at hpage
    cases hpage
  have hpage : (pool.insert loaded).page victim.id = some victim := by
    rw [Pool.page_insert, if_neg hne, h.resident]
  have hget : (Faulty.getPage (some fault) id pool).2 = Faulty.evictIfNeeded (some fault) (pool.insert loaded) := by
    simp only [Faulty.getPage, h.miss, hload]
  have hfront : (pool.insert loaded).lru = victim.id :: lru := hlru
  rw [hget, faulty_evictIfNeeded_some hover hfront hpage h.dirty]
  exact ⟨by rw [Pool.page_remove, if_pos rfl], rfl⟩

/-- **Eviction.** `get_page` evicts a page and writing it fails: the next `get_page` of that page finds its data exactly
    when the file already had, in its place, what was not written of it. -/
theorem evicted_page_kept_iff (pool : Pool) (id : UInt64) (victim : Page) (hevicts : Evicts pool id victim)
    (fault : SaveFault) (fault' : Option SaveFault) :
    (∃ page, (Faulty.getPage fault' victim.id (Faulty.getPage (some fault) id pool).2).1 = some page ∧
      page.data = victim.data) ↔
    ∃ bytes, pool.file = some bytes ∧
      readAt bytes (offset victim.id + fault.written) (PAGE_SIZE - fault.written) =
        some (victim.data.drop fault.written) := by
  obtain ⟨hgone, hfile⟩ := hevicts.faulty fault
  have hread : (Faulty.getPage fault' victim.id (Faulty.getPage (some fault) id pool).2).1 =
      loadPage (failedSave pool.file victim fault) victim.id := by
    rw [Faulty.getPage, hgone, hfile]
    cases loadPage (failedSave pool.file victim fault) victim.id <;> rfl
  rw [hread, load_iff_onDisk]
  -- there is a file: a page was loaded from it
  obtain ⟨loaded, hload, -⟩ := hevicts.load
  obtain ⟨-, -, bytes, hbytes, -⟩ := onDisk_of_load hload
  rw [hbytes, onDisk_failedSave]
  exact ⟨fun h => ⟨bytes, rfl, h⟩, fun ⟨_, heq, h⟩ => by cases heq; exact h⟩

/-- A file of two pages, and the second one put into a pool of one page. -/
def unsaved (byte : UInt8) : Pool :=
  poolAfter [.put 1 (pageOf byte) (length_pageOf byte)] (Pool.new 1 (some (pageOf 0 ++ pageOf 7)))

theorem evicts_unsaved (byte : UInt8) : Evicts (unsaved byte) 0 (dirtyPage byte) where
  miss := rfl
  load := by
    have hle : offset 0 + PAGE_SIZE ≤ (pageOf 0 ++ pageOf 7).length := by
      rw [List.length_append, length_pageOf, length_pageOf]
      decide
    have hload : loadPage (some (pageOf 0 ++ pageOf 7)) 0 =
        some ⟨0, slice (pageOf 0 ++ pageOf 7) (offset 0) PAGE_SIZE, false, length_slice hle⟩ := by
      simp only [loadPage]
      rw [dif_pos hle]
    exact ⟨_, hload, Nat.one_lt_two⟩
  front := rfl
  resident := rfl
  dirty := rfl

/-- The page was put as it was in the file. -/
theorem evicted_page_kept_iff_same : ∃ page,
    (Faulty.getPage none 1 (Faulty.getPage (some .notOpened) 0 (unsaved 7)).2).1 = some page ∧
      page.data = pageOf 7 := by
  refine (evicted_page_kept_iff (unsaved 7) 0 (dirtyPage 7) (evicts_unsaved 7) .notOpened none).2 ⟨_, rfl, ?_⟩
  refine readAt_eq_some.2 ⟨?_, ?_⟩
  · rw [List.length_append, length_pageOf, length_pageOf]
    decide
  · have hslice := slice_append (pageOf 0) (pageOf 7) [] (length_pageOf 0) (length_pageOf 7)
    rw [List.append_nil (pageOf 7)] at hslice
    rw [SaveFault.written, List.drop_zero, Nat.sub_zero, Nat.add_zero]
    exact hslice

/-- It was put with other data: they are lost, and the next `get_page` answers the ones before. -/
theorem evicted_page_lost :
    (Faulty.getPage none 1 (Faulty.getPage (some .notOpened) 0 (unsaved 8)).2).1.map (fun page => page.data.head?) =
      some (some 7) ∧
    ¬ ∃ page, (Faulty.getPage none 1 (Faulty.getPage (some .notOpened) 0 (unsaved 8)).2).1 = some page ∧
      page.data = pageOf 8 := by
  have hread : (Faulty.getPage none 1 (Faulty.getPage (some .notOpened) 0 (unsaved 8)).2).1.map
      (fun page => page.data.head?) = some (some 7) := by decide +kernel
  refine ⟨hread, ?_⟩
  rintro ⟨page, hpage, hdata⟩
  rw [hpage, Option.map_some, hdata] at hread
  exact absurd hread (by decide)

end RedisOps.BTree
