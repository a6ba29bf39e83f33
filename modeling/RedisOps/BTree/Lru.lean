import RedisOps.BTree.Coherence
import RedisOps.Lib.Steps

/-!
# The queue of the buffer pool (`redisdb/src/btree/buffer_pool.rs:26-56, 154-178`)

`lru_queue` is to list the pages of the pool from the one accessed longest ago to the one accessed last, so that
the front is the page to evict. `touch_lru` is called on a hit and on a put. On the third path, a page that is loaded
from the file, it is not: the page is in the pool and not in the queue, and can only leave the pool after an access
that finds it there.

Two things follow, one after another call, without I/O errors:

* `queue_in_order_iff` — the queue is right in every state of a run exactly when no `get_page` of the run loads.
* `within_capacity_iff` — the pool stays within its capacity exactly as long as a put finds room or its own page, and a
  load finds room or a page in the queue.
-/

namespace RedisOps.BTree

open Lib

/-! ## Calls -/

inductive Access where
  | get (id : UInt64)
  | put (page : Page)
  | flush (id : UInt64)
  | flushAll (order : Shuffle)

namespace Access

def prog : Access → PoolTask Unit
  | .get id => do
    let _ ← getPage id
    pure ()
  | .put page => lock (.put page)
  | .flush id => flushPage id
  | .flushAll order => BTree.flushAll order

/-- The pool after a call that does not fail. -/
def run (pool : Pool) (call : Access) : Option Pool :=
  match call.prog.run poolExec pool with
  | (some _, pool') => some pool'
  | (none, _) => none

/-- The page that is accessed, as the queue is to count it. -/
def accessed : Access → List UInt64
  | .get id => [id]
  | .put page => [page.id]
  | .flush _ | .flushAll _ => []

end Access

def accesses (calls : List Access) : List UInt64 := calls.flatMap Access.accessed

/-- How many accesses ago the page was accessed, or all of them. -/
def age (accesses : List UInt64) (id : UInt64) : Nat := accesses.reverse.idxOf id

theorem age_self (ids : List UInt64) (id : UInt64) : age (ids ++ [id]) id = 0 := by
  simp [age]

theorem age_of_ne (ids : List UInt64) {id id' : UInt64} (hne : id' ≠ id) : age (ids ++ [id]) id' = age ids id' + 1 := by
  simp [age, List.idxOf_cons, beq_eq_false_iff_ne.2 hne.symm]

/-! ## Which pages are in the pool -/

namespace Pool
variable {pool : Pool} {id : UInt64}

theorem mem_keys : id ∈ pool.pages.keys ↔ (pool.page id).isSome := by
  rw [← AList.mem_keys, ← AList.lookup_isSome, Pool.page, Option.isSome_map]

theorem mem_keys_insert (pool : Pool) (page : Page) (id : UInt64) :
    id ∈ (pool.insert page).pages.keys ↔ id = page.id ∨ id ∈ pool.pages.keys := by
  rw [mem_keys, mem_keys, page_insert]
  split <;> simp_all

theorem length_keys_insert (pool : Pool) (page : Page) : (pool.insert page).pages.keys.length =
    if page.id ∈ pool.pages.keys then pool.pages.keys.length else pool.pages.keys.length + 1 := by
  change (pool.pages.insert page.id ⟨page, rfl⟩).keys.length = _
  rw [AList.keys_insert, List.length_cons, List.length_erase]
  split
  · rename_i hmem
    have := List.length_pos_of_mem hmem
    omega
  · rfl

theorem lru_setDirty (pool : Pool) (id : UInt64) (dirty : Bool) : (pool.setDirty id dirty).lru = pool.lru := by
  unfold setDirty
  split <;> rfl

theorem capacity_setDirty (pool : Pool) (id : UInt64) (dirty : Bool) :
    (pool.setDirty id dirty).capacity = pool.capacity := by
  unfold setDirty
  split <;> rfl

theorem keys_setDirty (pool : Pool) (id : UInt64) (dirty : Bool) :
    (pool.setDirty id dirty).pages.keys.Perm pool.pages.keys := by
  unfold setDirty
  cases hp : pool.page id with
  | none => exact List.Perm.refl _
  | some page =>
    have hmem : id ∈ pool.pages.keys := mem_keys.2 (by rw [hp]; rfl)
    change (pool.pages.insert page.id _).keys.Perm _
    rw [AList.keys_insert, page_id hp]
    exact (List.perm_cons_erase hmem).symm

/-- The same pages are in the pool, and the same ones in the queue. -/
structure Alike (pool pool' : Pool) : Prop where
  lru : pool'.lru = pool.lru
  capacity : pool'.capacity = pool.capacity
  keys : pool'.pages.keys.Perm pool.pages.keys

theorem Alike.refl (pool : Pool) : Alike pool pool := ⟨rfl, rfl, List.Perm.refl _⟩

theorem Alike.trans {pool₁ pool₂ pool₃ : Pool} (h : Alike pool₁ pool₂) (h' : Alike pool₂ pool₃) :
    Alike pool₁ pool₃ :=
  ⟨h'.lru.trans h.lru, h'.capacity.trans h.capacity, h'.keys.trans h.keys⟩

theorem alike_flushed (pool : Pool) (id : UInt64) : Alike pool (pool.flushed id) := by
  unfold flushed
  cases pool.page id with
  | none => exact Alike.refl pool
  | some page =>
    simp only
    split
    · exact ⟨lru_setDirty _ id false, capacity_setDirty _ id false, keys_setDirty _ id false⟩
    · exact Alike.refl pool

theorem alike_flushEach : ∀ (ids : List UInt64) (pool : Pool), Alike pool (ids.foldl Pool.flushed pool)
  | [], pool => Alike.refl pool
  | id :: ids, pool => (pool.alike_flushed id).trans (alike_flushEach ids (pool.flushed id))

theorem keys_evicted (pool : Pool) (id : UInt64) : (pool.evicted id).pages.keys.Perm (pool.pages.keys.erase id) := by
  change ((pool.flushed id).pages.erase id).keys.Perm _
  rw [AList.keys_erase]
  exact (pool.alike_flushed id).keys.erase id

/-- Too many pages and one of them in the queue: the front goes. -/
theorem trimmed_of_over {lru : List UInt64} (hover : pool.capacity < pool.pages.keys.length) (hlru : pool.lru = id :: lru) :
    pool.trimmed.lru = lru ∧ pool.trimmed.capacity = pool.capacity ∧
      pool.trimmed.pages.keys.Perm (pool.pages.keys.erase id) := by
  have htrim : pool.trimmed = { pool with lru := lru }.evicted id := by
    rw [trimmed, if_pos hover, hlru]
  have halike := alike_flushed { pool with lru := lru } id
  rw [htrim]
  exact ⟨halike.lru, halike.capacity, keys_evicted { pool with lru := lru } id⟩

theorem trimmed_of_room (hroom : pool.pages.keys.length ≤ pool.capacity) : pool.trimmed = pool :=
  if_neg (Nat.not_lt.2 hroom)

theorem trimmed_of_nil (hlru : pool.lru = []) : pool.trimmed = pool := by
  unfold trimmed
  split
  · rw [hlru]
  · rfl

end Pool

/-- What a call does: a hit, a load, a put, a flush. -/
theorem Access.run_cases {pool pool' : Pool} {call : Access} (hrun : call.run pool = some pool') :
    (∃ id, call = .get id ∧ id ∈ pool.pages.keys ∧ pool' = { pool with lru := touch pool.lru id }) ∨
    (∃ page, call = .get page.id ∧ page.id ∉ pool.pages.keys ∧ loadPage pool.file page.id = some page ∧
      pool' = (pool.insert page).trimmed) ∨
    (∃ page, call = .put page ∧ pool' = pool.put page) ∨
    (call.accessed = [] ∧ (∀ id, call ≠ .get id) ∧ (∀ page, call ≠ .put page) ∧ Pool.Alike pool pool') := by
  cases call with
  | get id =>
    have hget : (Access.get id).run pool = match (getPage id).run poolExec pool with
        | (some _, pool') => some pool'
        | (none, _) => none := by
      rw [Access.run, Access.prog, Prog.run_bind]
      rcases (getPage id).run poolExec pool with ⟨_ | page, mid⟩ <;> rfl
    rw [hget, run_getPage] at hrun
    cases hp : pool.page id with
    | some page =>
      rw [hp] at hrun
      cases hrun
      exact .inl ⟨id, rfl, Pool.mem_keys.2 (by rw [hp]; rfl), rfl⟩
    | none =>
      cases hl : loadPage pool.file id with
      | none =>
        rw [hp, hl] at hrun
        cases hrun
      | some page =>
        rw [hp, hl] at hrun
        cases hrun
        obtain ⟨rfl, -, -⟩ := onDisk_of_load hl
        exact .inr (.inl ⟨page, rfl, by simp [Pool.mem_keys, hp], hl, rfl⟩)
  | put page =>
    cases hrun
    exact .inr (.inr (.inl ⟨page, rfl, rfl⟩))
  | flush id =>
    rw [Access.run, Access.prog, run_flushPage] at hrun
    cases hrun
    exact .inr (.inr (.inr ⟨rfl, nofun, nofun, pool.alike_flushed id⟩))
  | flushAll order =>
    rw [Access.run, Access.prog, run_flushAll] at hrun
    cases hrun
    exact .inr (.inr (.inr ⟨rfl, nofun, nofun, Pool.alike_flushEach _ pool⟩))

/-! ## The order of the queue -/

section Touch
variable {ids lru : List UInt64} {id id' : UInt64}

theorem mem_touch : id' ∈ touch lru id ↔ id' = id ∨ id' ∈ lru := by
  by_cases h : id' = id <;> simp [touch, h]

theorem nodup_touch (h : lru.Nodup) (id : UInt64) : (touch lru id).Nodup := by
  refine List.nodup_append.2 ⟨h.filter _, List.nodup_singleton id, ?_⟩
  intro x hx y hy heq
  rw [List.mem_singleton] at hy
  simp [heq, hy] at hx

/-- From the page accessed longest ago to the one accessed last. -/
def Ordered (ids lru : List UInt64) : Prop := lru.Pairwise fun id id' => age ids id' < age ids id

theorem Ordered.touch (h : Ordered ids lru) (id : UInt64) : Ordered (ids ++ [id]) (touch lru id) := by
  have hne : ∀ x ∈ lru.filter fun id' => id' ≠ id, x ≠ id := by
    intro x hx
    simpa using (List.mem_filter.1 hx).2
  refine List.pairwise_append.2 ⟨?_, List.pairwise_singleton _ _, ?_⟩
  · refine (h.filter _).imp_of_mem ?_
    intro x y hx hy hlt
    rw [age_of_ne ids (hne x hx), age_of_ne ids (hne y hy)]
    omega
  · intro x hx y hy
    rw [List.mem_singleton] at hy
    rw [hy, age_self, age_of_ne ids (hne x hx)]
    omega

end Touch

/-- The queue lists the pages of the pool, each once, in the order of their last accesses. -/
structure Pool.InOrder (ids : List UInt64) (pool : Pool) : Prop where
  nodup : pool.lru.Nodup
  resident : ∀ id, id ∈ pool.lru ↔ id ∈ pool.pages.keys
  ordered : Ordered ids pool.lru

/-- The page at the front of the queue is the one of the pool that was accessed longest ago. -/
def Pool.EvictsOldest (ids : List UInt64) (pool : Pool) : Prop :=
  ∀ id ∈ pool.lru.head?, ∀ id' ∈ pool.pages.keys, age ids id' ≤ age ids id

namespace Pool.InOrder
variable {ids : List UInt64} {pool pool' : Pool}

theorem evictsOldest (h : InOrder ids pool) : EvictsOldest ids pool := by
  intro id hid id' hid'
  obtain ⟨lru, hlru⟩ := List.head?_eq_some_iff.1 hid
  have hordered := h.ordered
  rw [hlru, Ordered, List.pairwise_cons] at hordered
  rw [← h.resident, hlru, List.mem_cons] at hid'
  rcases hid' with rfl | hid'
  · exact Nat.le_refl _
  · exact Nat.le_of_lt (hordered.1 id' hid')

/-- The page is in the pool after the access, and at the end of the queue. -/
theorem access (h : InOrder ids pool) {id : UInt64} (hlru : pool'.lru = touch pool.lru id)
    (hkeys : ∀ id', id' ∈ pool'.pages.keys ↔ id' = id ∨ id' ∈ pool.pages.keys) : InOrder (ids ++ [id]) pool' := by
  refine ⟨?_, ?_, ?_⟩
  · rw [hlru]
    exact nodup_touch h.nodup id
  · intro id'
    rw [hlru, mem_touch, hkeys, h.resident]
  · rw [hlru]
    exact h.ordered.touch id

theorem alike (h : InOrder ids pool) (halike : Alike pool pool') : InOrder ids pool' := by
  refine ⟨?_, ?_, ?_⟩
  · rw [halike.lru]
    exact h.nodup
  · intro id
    rw [halike.lru, halike.keys.mem_iff, h.resident]
  · rw [halike.lru]
    exact h.ordered

/-- A page that was loaded is in the pool, and no eviction that makes room for it brings it into the queue. -/
theorem not_load (h : InOrder ids pool) {page : Page} (hmiss : page.id ∉ pool.pages.keys) :
    ∃ id, id ∈ (pool.insert page).trimmed.pages.keys ∧ id ∉ (pool.insert page).trimmed.lru := by
  have hqueue : page.id ∉ pool.lru := fun hmem => hmiss ((h.resident _).1 hmem)
  have hmem : page.id ∈ (pool.insert page).pages.keys := (mem_keys_insert pool page _).2 (.inl rfl)
  refine ⟨page.id, ?_⟩
  by_cases hover : (pool.insert page).capacity < (pool.insert page).pages.keys.length
  · cases hlru : pool.lru with
    | nil =>
      have hnil : (pool.insert page).lru = [] := hlru
      rw [trimmed_of_nil hnil]
      exact ⟨hmem, hqueue⟩
    | cons id lru =>
      rw [hlru, List.mem_cons, not_or] at hqueue
      obtain ⟨hlru', -, hkeys⟩ := trimmed_of_over hover (show (pool.insert page).lru = id :: lru from hlru)
      rw [hlru', hkeys.mem_iff]
      exact ⟨(List.mem_erase_of_ne hqueue.1).2 hmem, hqueue.2⟩
  · rw [trimmed_of_room (Nat.not_lt.1 hover)]
    exact ⟨hmem, hqueue⟩

end Pool.InOrder

/-- A `get_page` finds its page in the pool. -/
def Access.Hits (pool : Pool) : Access → Prop
  | .get id => id ∈ pool.pages.keys
  | _ => True

/-- **Step.** -/
theorem Pool.InOrder.step {ids : List UInt64} {pool pool' : Pool} {call : Access} (h : pool.InOrder ids)
    (hrun : call.run pool = some pool') : pool'.InOrder (ids ++ call.accessed) ↔ call.Hits pool := by
  rcases Access.run_cases hrun with ⟨id, rfl, hhit, rfl⟩ | ⟨page, rfl, hmiss, -, rfl⟩ | ⟨page, rfl, rfl⟩ |
    ⟨hno, hget, hput, halike⟩
  · refine iff_of_true (h.access rfl fun id' => ?_) hhit
    constructor
    · exact .inr
    · rintro (rfl | hmem)
      · exact hhit
      · exact hmem
  · obtain ⟨id, hmem, hnot⟩ := h.not_load hmiss
    exact iff_of_false (fun hafter => hnot ((hafter.resident id).2 hmem)) hmiss
  · exact iff_of_true (h.access rfl (mem_keys_insert pool page)) trivial
  · rw [hno, List.append_nil]
    refine iff_of_true (h.alike halike) ?_
    cases call with
    | get id => exact absurd rfl (hget id)
    | _ => trivial

theorem inOrder_new (capacity : Nat) (file : Option Bytes) : (Pool.new capacity file).InOrder [] :=
  ⟨List.nodup_nil, fun id => by simp [Pool.new], List.Pairwise.nil⟩

theorem accesses_concat (calls : List Access) (call : Access) :
    accesses (calls ++ [call]) = accesses calls ++ call.accessed := by
  simp [accesses]

/-- **The queue.** In a run without I/O errors the queue is right in every state, and its front the page accessed
    longest ago, exactly when every `get_page` of the run finds its page in the pool. -/
theorem queue_in_order_iff (capacity : Nat) (file : Option Bytes) (calls : List Access) (final : Pool)
    (hrun : runAll Access.run (Pool.new capacity file) calls = some final) :
    Always Access.run (Pool.new capacity file) calls
        (fun pre pool => pool.InOrder (accesses pre) ∧ pool.EvictsOldest (accesses pre)) ↔
      Each Access.run (Pool.new capacity file) calls Access.Hits := by
  refine always_iff_each (fun _ => True) (fun _ _ _ _ _ => trivial) ?_ trivial
    ⟨inOrder_new capacity file, (inOrder_new capacity file).evictsOldest⟩ hrun
  intro pre pool call pool' _ hgood hcall
  rw [accesses_concat, ← hgood.1.step hcall]
  exact ⟨fun h => h.1, fun h => ⟨h, h.evictsOldest⟩⟩

/-- Page 1 is put, and found by the `get_page` after it. -/
def hitCalls : List Access := [.put (dirtyPage 7), .get 1]

theorem queue_in_order_iff_hit : Always Access.run (Pool.new 1 none) hitCalls
    fun pre pool => pool.InOrder (accesses pre) ∧ pool.EvictsOldest (accesses pre) := by
  refine (queue_in_order_iff 1 none hitCalls _ rfl).2 ?_
  intro pre call pool hpre hrun
  rcases pre with _ | ⟨first, _ | ⟨second, rest⟩⟩
  · have hput : call = .put (dirtyPage 7) := by simpa [hitCalls] using hpre
    rw [hput]
    trivial
  · obtain ⟨rfl, rfl⟩ : first = .put (dirtyPage 7) ∧ call = .get 1 := by
      simpa [hitCalls] using hpre
    cases hrun
    exact List.mem_singleton.2 rfl
  · simp [hitCalls] at hpre

/-- A page is loaded from a file of one page. -/
theorem loaded_page_not_queued :
    (runAll Access.run (Pool.new 1 (some (pageOf 7))) [.get 0]).map (fun pool => (pool.pages.keys, pool.lru)) =
      some ([0], []) ∧
    ¬ Always Access.run (Pool.new 1 (some (pageOf 7))) [.get 0]
      fun pre pool => pool.InOrder (accesses pre) ∧ pool.EvictsOldest (accesses pre) := by
  have hstate : (runAll Access.run (Pool.new 1 (some (pageOf 7))) [.get 0]).map
      (fun pool => (pool.pages.keys, pool.lru)) = some ([0], []) := by decide +kernel
  refine ⟨hstate, fun halways => ?_⟩
  obtain ⟨pool, hrun, hpool⟩ := Option.map_eq_some_iff.1 hstate
  have hres := (halways _ pool List.prefix_rfl hrun).1.resident 0
  rw [Prod.mk.injEq] at hpool
  rw [hpool.1, hpool.2] at hres
  simp at hres

/-! ## The capacity -/

/-- The queue names pages of the pool only, each once. -/
structure Pool.Queued (capacity : Nat) (pool : Pool) : Prop where
  capacity : pool.capacity = capacity
  nodup : pool.lru.Nodup
  resident : ∀ id ∈ pool.lru, id ∈ pool.pages.keys

namespace Pool.Queued
variable {capacity : Nat} {pool pool' : Pool}

theorem access (h : Queued capacity pool) {id : UInt64} (hcap : pool'.capacity = pool.capacity)
    (hlru : pool'.lru = touch pool.lru id)
    (hkeys : ∀ id', id' ∈ pool'.pages.keys ↔ id' = id ∨ id' ∈ pool.pages.keys) : Queued capacity pool' := by
  refine ⟨hcap.trans h.capacity, by rw [hlru]; exact nodup_touch h.nodup id, ?_⟩
  intro id' hmem
  rw [hlru, mem_touch] at hmem
  exact (hkeys id').2 (hmem.imp_right (h.resident id'))

theorem alike (h : Queued capacity pool) (halike : Alike pool pool') : Queued capacity pool' := by
  refine ⟨halike.capacity.trans h.capacity, by rw [halike.lru]; exact h.nodup, ?_⟩
  intro id hmem
  rw [halike.lru] at hmem
  exact halike.keys.mem_iff.2 (h.resident id hmem)

theorem insert (h : Queued capacity pool) (page : Page) : Queued capacity (pool.insert page) :=
  ⟨h.capacity, h.nodup, fun id hmem => (mem_keys_insert pool page id).2 (.inr (h.resident id hmem))⟩

theorem trimmed (h : Queued capacity pool) : Queued capacity pool.trimmed := by
  by_cases hover : pool.capacity < pool.pages.keys.length
  · cases hlru : pool.lru with
    | nil => rwa [trimmed_of_nil hlru]
    | cons id lru =>
      obtain ⟨hlru', hcap, hkeys⟩ := trimmed_of_over hover hlru
      have hnodup := h.nodup
      rw [hlru, List.nodup_cons] at hnodup
      refine ⟨hcap.trans h.capacity, by rw [hlru']; exact hnodup.2, ?_⟩
      intro id' hmem
      rw [hlru'] at hmem
      have hne : id' ≠ id := fun heq => hnodup.1 (heq ▸ hmem)
      exact hkeys.mem_iff.2 ((List.mem_erase_of_ne hne).2 (h.resident id' (by rw [hlru]; exact List.mem_cons_of_mem _ hmem)))
  · rwa [trimmed_of_room (Nat.not_lt.1 hover)]

theorem step (h : Queued capacity pool) {call : Access} (hrun : call.run pool = some pool') :
    Queued capacity pool' := by
  rcases Access.run_cases hrun with ⟨id, rfl, hhit, rfl⟩ | ⟨page, rfl, -, -, rfl⟩ | ⟨page, rfl, rfl⟩ | ⟨-, -, -, halike⟩
  · refine h.access rfl rfl fun id' => ⟨.inr, ?_⟩
    rintro (rfl | hmem)
    · exact hhit
    · exact hmem
  · exact (h.insert page).trimmed
  · exact h.access rfl rfl (mem_keys_insert pool page)
  · exact h.alike halike

end Pool.Queued

/-- There is room for what the call brings into the pool: a put, which evicts nothing, finds its page or a free place; a
    load may find a page in the queue instead. -/
def Access.Fits (pool : Pool) : Access → Prop
  | .get id => id ∈ pool.pages.keys ∨ pool.pages.keys.length < pool.capacity ∨ pool.lru ≠ []
  | .put page => page.id ∈ pool.pages.keys ∨ pool.pages.keys.length < pool.capacity
  | _ => True

/-- A page is loaded: the pool has grown by it, unless another one went. -/
theorem Pool.Queued.length_load {capacity : Nat} {pool : Pool} (h : pool.Queued capacity)
    (hle : pool.pages.keys.length ≤ capacity) {page : Page} (hmiss : page.id ∉ pool.pages.keys) :
    (pool.insert page).trimmed.pages.keys.length ≤ capacity ↔ pool.pages.keys.length < capacity ∨ pool.lru ≠ [] := by
  have hlen : (pool.insert page).pages.keys.length = pool.pages.keys.length + 1 := by
    rw [length_keys_insert, if_neg hmiss]
  have hcap : (pool.insert page).capacity = capacity := h.capacity
  by_cases hroom : pool.pages.keys.length < capacity
  · rw [trimmed_of_room (by omega), hlen]
    exact iff_of_true hroom (.inl hroom)
  cases hlru : pool.lru with
  | nil =>
    have hnil : (pool.insert page).lru = [] := hlru
    rw [trimmed_of_nil hnil, hlen]
    exact iff_of_false (by omega) (by simp [hroom])
  | cons id lru =>
    have hcons : (pool.insert page).lru = id :: lru := hlru
    obtain ⟨-, -, hkeys⟩ := trimmed_of_over (by omega) hcons
    have hmem : id ∈ (pool.insert page).pages.keys := (h.insert page).resident id (by rw [hcons]; simp)
    rw [hkeys.length_eq, List.length_erase_of_mem hmem, hlen]
    exact iff_of_true (by omega) (by simp)

/-- **Step.** -/
theorem Pool.Queued.fits {capacity : Nat} {pool pool' : Pool} {call : Access} (h : pool.Queued capacity)
    (hle : pool.pages.keys.length ≤ capacity) (hrun : call.run pool = some pool') :
    pool'.pages.keys.length ≤ capacity ↔ call.Fits pool := by
  rcases Access.run_cases hrun with ⟨id, rfl, hhit, rfl⟩ | ⟨page, rfl, hmiss, -, rfl⟩ | ⟨page, rfl, rfl⟩ |
    ⟨-, hget, hput, halike⟩
  · exact iff_of_true hle (.inl hhit)
  · rw [h.length_load hle hmiss, ← h.capacity]
    exact ⟨.inr, fun hfits => hfits.resolve_left hmiss⟩
  · change (pool.insert page).pages.keys.length ≤ capacity ↔ _ ∨ _
    rw [length_keys_insert, h.capacity]
    split
    · rename_i hmem
      exact iff_of_true hle (.inl hmem)
    · rename_i hmiss
      exact ⟨.inr, fun hfits => hfits.resolve_left hmiss⟩
  · rw [halike.keys.length_eq]
    refine iff_of_true hle ?_
    cases call with
    | get id => exact absurd rfl (hget id)
    | put page => exact absurd rfl (hput page)
    | _ => trivial

/-- **Capacity.** In a run without I/O errors the pool is within its capacity in every state exactly when every call
    finds room for what it brings. -/
theorem within_capacity_iff (capacity : Nat) (file : Option Bytes) (calls : List Access) (final : Pool)
    (hrun : runAll Access.run (Pool.new capacity file) calls = some final) :
    Always Access.run (Pool.new capacity file) calls (fun _ pool => pool.pages.keys.length ≤ capacity) ↔
      Each Access.run (Pool.new capacity file) calls Access.Fits := by
  have hnew : (Pool.new capacity file).Queued capacity := ⟨rfl, List.nodup_nil, fun id hmem => by cases hmem⟩
  refine always_iff_each (Pool.Queued capacity) (fun pool call pool' h hcall => h.step hcall) ?_ hnew
    (Nat.zero_le capacity) hrun
  intro pre pool call pool' hqueued hle hcall
  exact hqueued.fits hle hcall

theorem within_capacity_iff_hit :
    Always Access.run (Pool.new 1 none) hitCalls fun _ pool => pool.pages.keys.length ≤ 1 := by
  refine (within_capacity_iff 1 none hitCalls _ rfl).2 ?_
  intro pre call pool hpre hrun
  rcases pre with _ | ⟨first, _ | ⟨second, rest⟩⟩
  · have hput : call = .put (dirtyPage 7) := by simpa [hitCalls] using hpre
    cases hrun
    rw [hput]
    exact .inr Nat.zero_lt_one
  · obtain ⟨rfl, rfl⟩ : first = .put (dirtyPage 7) ∧ call = .get 1 := by
      simpa [hitCalls] using hpre
    cases hrun
    exact .inl (List.mem_singleton.2 rfl)
  · simp [hitCalls] at hpre

/-- Two puts into a pool of one page. -/
theorem puts_over_capacity :
    (runAll Access.run (Pool.new 1 none) [.put ⟨1, pageOf 7, true, length_pageOf 7⟩,
      .put ⟨2, pageOf 8, true, length_pageOf 8⟩]).map (fun pool => pool.pages.keys.length) = some 2 ∧
    ¬ Always Access.run (Pool.new 1 none) [.put ⟨1, pageOf 7, true, length_pageOf 7⟩,
      .put ⟨2, pageOf 8, true, length_pageOf 8⟩] fun _ pool => pool.pages.keys.length ≤ 1 := by
  have hstate : (runAll Access.run (Pool.new 1 none) [.put ⟨1, pageOf 7, true, length_pageOf 7⟩,
      .put ⟨2, pageOf 8, true, length_pageOf 8⟩]).map (fun pool => pool.pages.keys.length) = some 2 := by
    decide +kernel
  refine ⟨hstate, fun halways => ?_⟩
  obtain ⟨pool, hrun, hpool⟩ := Option.map_eq_some_iff.1 hstate
  have hle := halways _ pool List.prefix_rfl hrun
  omega

end RedisOps.BTree
