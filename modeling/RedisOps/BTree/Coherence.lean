import RedisOps.BTree.Pool

/-!
# Coherence of the buffer pool

One call after another, the pool is a map from ids to data: `get_page` answers what was put last,
whatever was evicted and loaded in between, and after `flush_all` it is in the file. That needs pages with places of
their own in the file, ids below 2^52.

With `put_page` calls by other tasks between the steps of a `flush_page` it is not: the flag is cleared by id, after
the copy was written, so that an update in between may be lost.
-/

namespace RedisOps.BTree

open Lib

/-! ## One call after another -/

inductive PoolCall where
  | get (id : UInt64)
  | put (id : UInt64) (data : Bytes) (size : data.length = PAGE_SIZE)
  | markDirty (id : UInt64)
  | flush (id : UInt64)
  | flushAll (order : Shuffle)

namespace PoolCall

/-- Callers put pages with the dirty flag set. -/
def prog : PoolCall → PoolTask Unit
  | .get id => do
    let _ ← getPage id
    pure ()
  | .put id data size => lock (.put ⟨id, data, true, size⟩)
  | .markDirty id => lock (.setDirty id true)
  | .flush id => flushPage id
  | .flushAll order => BTree.flushAll order

def id? : PoolCall → Option UInt64
  | .get id | .put id _ _ | .markDirty id | .flush id => some id
  | .flushAll _ => none

/-- The data put last for each page. -/
def latest (last : UInt64 → Option Bytes) : PoolCall → UInt64 → Option Bytes
  | .put id data _ => Function.update last id (some data)
  | _ => last

end PoolCall

/-- The pool after the calls; a call that fails leaves it as it is then. -/
def poolAfter (calls : List PoolCall) (pool : Pool) : Pool :=
  calls.foldl (fun pool call => (call.prog.run poolExec pool).2) pool

def latestPut (calls : List PoolCall) : UInt64 → Option Bytes := calls.foldl PoolCall.latest fun _ => none

/-- The id whose place in the file ends at 2^64. -/
def idLimit : Nat := 2 ^ 52

theorem offset_of_small {id : UInt64} (h : id.toNat < idLimit) : offset id = id.toNat * PAGE_SIZE := by
  unfold idLimit at h
  unfold offset PAGE_SIZE
  omega

theorem apart_of_small {id id' : UInt64} (h : id.toNat < idLimit) (h' : id'.toNat < idLimit) (hne : id ≠ id') :
    Apart id id' := by
  have hnat : id.toNat ≠ id'.toNat := fun heq => hne (UInt64.toNat_inj.1 heq)
  unfold Apart
  rw [offset_of_small h, offset_of_small h']
  unfold PAGE_SIZE
  omega

/-- Every page that was put holds what was put last, and has a place of its own. -/
structure Coherent (latest : UInt64 → Option Bytes) (pool : Pool) : Prop where
  small : ∀ id page, pool.page id = some page → id.toNat < idLimit
  named : ∀ id data, latest id = some data → id.toNat < idLimit
  holds : ∀ id data, latest id = some data → Holds pool id data

namespace Coherent

variable {latest : UInt64 → Option Bytes} {pool : Pool}

theorem congr (h : Coherent latest pool) {pool' : Pool} (hpages : pool'.pages = pool.pages)
    (hfile : pool'.file = pool.file) : Coherent latest pool' := by
  refine ⟨fun id page hp => h.small id page ?_, h.named, fun id data hl => (h.holds id data hl).congr hpages hfile⟩
  rwa [Pool.page, hpages] at hp

theorem apart (h : Coherent latest pool) {id id' : UInt64} {data : Bytes} (hl : latest id = some data) {page : Page}
    (hp : pool.page id' = some page) (hne : id ≠ id') : Apart id id' :=
  apart_of_small (h.named id data hl) (h.small id' page hp) hne

/-- A change to one page that is there leaves the ids as they are. -/
theorem small_map (h : Coherent latest pool) {f : Page → Page} {id id' : UInt64} {page : Page}
    (hp : (if id' = id then (pool.page id).map f else pool.page id') = some page) : id'.toNat < idLimit := by
  split at hp
  · rename_i hid
    obtain ⟨page', hp', -⟩ := Option.map_eq_some_iff.1 hp
    rw [hid]
    exact h.small id page' hp'
  · exact h.small id' page hp

theorem small_insert (h : Coherent latest pool) {page page' : Page} (hid : page.id.toNat < idLimit) {id' : UInt64}
    (hp : (pool.insert page).page id' = some page') : id'.toNat < idLimit := by
  rw [Pool.page_insert] at hp
  split at hp
  · rename_i heq
    rwa [heq]
  · exact h.small id' page' hp

theorem flushed (h : Coherent latest pool) (id : UInt64) : Coherent latest (pool.flushed id) := by
  refine ⟨fun id' page hp => ?_, h.named, fun id' data hl => (h.holds id' data hl).flushed fun _ => h.apart hl⟩
  rw [Pool.page_flushed] at hp
  exact h.small_map hp

theorem evicted (h : Coherent latest pool) (id : UInt64) : Coherent latest (pool.evicted id) := by
  refine ⟨fun id' page hp => ?_, h.named, fun id' data hl => (h.holds id' data hl).evicted fun _ => h.apart hl⟩
  rw [Pool.evicted, Pool.page_remove] at hp
  split at hp
  · cases hp
  · exact (h.flushed id).small id' page hp

theorem trimmed (h : Coherent latest pool) : Coherent latest pool.trimmed := by
  unfold Pool.trimmed
  split
  · split
    · exact h
    · rename_i id lru hlru
      have hlru' : Coherent latest { pool with lru := lru } := h.congr rfl rfl
      exact hlru'.evicted id
  · exact h

theorem loaded (h : Coherent latest pool) {id : UInt64} (hid : id.toNat < idLimit) {page : Page}
    (hload : loadPage pool.file id = some page) (hmiss : pool.page id = none) : Coherent latest (pool.insert page) := by
  obtain ⟨rfl, -, -⟩ := onDisk_of_load hload
  exact ⟨fun _ _ => h.small_insert hid, h.named, fun id' data hl => (h.holds id' data hl).load hload hmiss⟩

theorem put (h : Coherent latest pool) (page : Page) (hid : page.id.toNat < idLimit) (hdirty : page.dirty = true) :
    Coherent (Function.update latest page.id (some page.data)) (pool.insert page) := by
  refine ⟨fun _ _ => h.small_insert hid, fun id' data hl => ?_, fun id' data hl => ?_⟩
  · by_cases heq : id' = page.id
    · rwa [heq]
    · exact h.named id' data (by simpa [heq] using hl)
  · by_cases heq : id' = page.id
    · subst heq
      rw [Function.update_self, Option.some.injEq] at hl
      rw [← hl]
      exact holds_put pool hdirty
    · exact (h.holds id' data (by simpa [heq] using hl)).insert_of_ne heq

theorem markDirty (h : Coherent latest pool) (id : UInt64) : Coherent latest (pool.setDirty id true) := by
  refine ⟨fun id' page hp => ?_, h.named, fun id' data hl => (h.holds id' data hl).markDirty id⟩
  rw [Pool.page_setDirty] at hp
  exact h.small_map hp

theorem flushEach (ids : List UInt64) {pool : Pool} (h : Coherent latest pool) :
    Coherent latest (ids.foldl Pool.flushed pool) := by
  induction ids generalizing pool with
  | nil => exact h
  | cons id ids ih => exact ih (h.flushed id)

/-- **Step.** -/
theorem call (h : Coherent latest pool) {call : PoolCall} (hsmall : ∀ id, call.id? = some id → id.toNat < idLimit) :
    Coherent (call.latest latest) (call.prog.run poolExec pool).2 := by
  cases call with
  | get id =>
    have hrun : ((PoolCall.get id).prog.run poolExec pool).2 = ((getPage id).run poolExec pool).2 := by
      rw [PoolCall.prog, Prog.run_bind]
      rcases (getPage id).run poolExec pool with ⟨_ | _, _⟩ <;> rfl
    rw [hrun, run_getPage]
    cases hp : pool.page id with
    | some page => exact h.congr rfl rfl
    | none =>
      cases hl : loadPage pool.file id with
      | none => exact h
      | some page => exact (h.loaded (hsmall id rfl) hl hp).trimmed
  | put id data size =>
    have hput : Coherent (Function.update latest id (some data)) (pool.insert ⟨id, data, true, size⟩) :=
      h.put ⟨id, data, true, size⟩ (hsmall id rfl) rfl
    exact hput.congr rfl rfl
  | markDirty id => exact h.markDirty id
  | flush id =>
    rw [show (PoolCall.flush id).prog = flushPage id from rfl, run_flushPage]
    exact h.flushed id
  | flushAll order =>
    rw [show (PoolCall.flushAll order).prog = BTree.flushAll order from rfl, run_flushAll]
    exact h.flushEach _

/-- **Run.** -/
theorem run (calls : List PoolCall) {latest : UInt64 → Option Bytes} {pool : Pool} (h : Coherent latest pool)
    (hsmall : ∀ call ∈ calls, ∀ id, call.id? = some id → id.toNat < idLimit) :
    Coherent (calls.foldl PoolCall.latest latest) (poolAfter calls pool) := by
  induction calls generalizing latest pool with
  | nil => exact h
  | cons call calls ih =>
    exact ih (h.call (hsmall call (by simp))) fun call' hmem => hsmall call' (List.mem_cons_of_mem _ hmem)

end Coherent

theorem coherent_new (capacity : Nat) (file : Option Bytes) :
    Coherent (fun _ => none) (Pool.new capacity file) := by
  refine ⟨fun id page hp => ?_, fun _ _ hl => (nomatch hl), fun _ _ hl => (nomatch hl)⟩
  simp [Pool.new, Pool.page] at hp

/-- What `flush_all` goes through is clean afterwards. -/
theorem flushEach_clean : ∀ (ids : List UInt64) {pool : Pool} {id : UInt64} {page : Page},
    (ids.foldl Pool.flushed pool).page id = some page → page.dirty = true →
      id ∉ ids ∧ ∃ page', pool.page id = some page' ∧ page'.dirty = true
  | [], pool, id, page, hp, hd => ⟨by simp, page, hp, hd⟩
  | id' :: ids, pool, id, page, hp, hd => by
    obtain ⟨hnot, page', hp', hd'⟩ := flushEach_clean ids hp hd
    rw [Pool.page_flushed] at hp'
    split at hp'
    · obtain ⟨_, -, rfl⟩ := Option.map_eq_some_iff.1 hp'
      cases hd'
    · rename_i hne
      exact ⟨by simp [hne, hnot], page', hp', hd'⟩

theorem flushAll_clean (order : Shuffle) {pool : Pool} {id : UInt64} {page : Page}
    (hp : ((flushAll order).run poolExec pool).2.page id = some page) : page.dirty = false := by
  rw [run_flushAll] at hp
  by_contra hd
  obtain ⟨hnot, page', hp', hd'⟩ := flushEach_clean _ hp (by simpa using hd)
  exact hnot ((order.2 _).mem_iff.2 (Pool.mem_dirtyIds.2 ⟨page', hp', hd'⟩))

/-- **Coherence.** With page ids below 2^52, whatever the capacity, the file at the start and the calls: `get_page`
    answers what was put last, and `flush_all` leaves that in the file. -/
theorem pool_coherent (capacity : Nat) (file : Option Bytes) (calls : List PoolCall)
    (hsmall : ∀ call ∈ calls, ∀ id, call.id? = some id → id.toNat < idLimit) (id : UInt64) (data : Bytes)
    (hput : latestPut calls id = some data) :
    (∃ page pool', (getPage id).run poolExec (poolAfter calls (Pool.new capacity file)) = (some page, pool') ∧
      page.id = id ∧ page.data = data) ∧
    ∀ order, ∃ bytes, ((flushAll order).run poolExec (poolAfter calls (Pool.new capacity file))).2.file = some bytes ∧
      readAt bytes (id.toNat * PAGE_SIZE) PAGE_SIZE = some data := by
  have hcoh : Coherent (latestPut calls) (poolAfter calls (Pool.new capacity file)) :=
    (coherent_new capacity file).run calls hsmall
  refine ⟨(hcoh.holds id data hput).get, ?_⟩
  intro order
  have hflush : Coherent (latestPut calls)
      ((flushAll order).run poolExec (poolAfter calls (Pool.new capacity file))).2 := by
    rw [run_flushAll]
    exact hcoh.flushEach _
  have hholds := hflush.holds id data hput
  have hdisk : OnDisk ((flushAll order).run poolExec (poolAfter calls (Pool.new capacity file))).2.file id data := by
    cases hp : ((flushAll order).run poolExec (poolAfter calls (Pool.new capacity file))).2.page id with
    | none => exact hholds.stored hp
    | some page => exact (hholds.cached page hp).2 (flushAll_clean order hp)
  obtain ⟨bytes, hfile, hread⟩ := hdisk
  exact ⟨bytes, hfile, by rwa [offset_of_small (hcoh.named id data hput)] at hread⟩

/-- A page of one byte. -/
def pageOf (byte : UInt8) : Bytes := List.replicate PAGE_SIZE byte

theorem length_pageOf (byte : UInt8) : (pageOf byte).length = PAGE_SIZE := List.length_replicate

theorem pool_coherent_two : ∃ page pool', (getPage 1).run poolExec
    (poolAfter [.put 1 (pageOf 7) (length_pageOf 7), .put 2 (pageOf 8) (length_pageOf 8)] (Pool.new 1 none)) =
      (some page, pool') ∧ page.id = 1 ∧ page.data = pageOf 7 := by
  refine (pool_coherent 1 none _ ?_ 1 (pageOf 7) ?_).1
  · simp [PoolCall.id?, idLimit]
  · simp [latestPut, PoolCall.latest]

/-- Two pages with one place in the file, both written back; `get_page(0)` evicts the first. -/
def colliding : List PoolCall :=
  [.put 1 (pageOf 7) (length_pageOf 7), .put 4503599627370497 (pageOf 8) (length_pageOf 8), .flush 1,
    .flush 4503599627370497, .get 0]

/-- `get_page(1)` answers the data of page 2^52 + 1. -/
theorem page_read_as_another : latestPut colliding 1 = some (pageOf 7) ∧
    ((getPage 1).run poolExec (poolAfter colliding (Pool.new 1 none))).1.map (fun page => page.data.head?) =
      some (some 8) ∧
    ¬ ∃ page pool', (getPage 1).run poolExec (poolAfter colliding (Pool.new 1 none)) = (some page, pool') ∧
      page.data = pageOf 7 := by
  have hread : ((getPage 1).run poolExec (poolAfter colliding (Pool.new 1 none))).1.map
      (fun page => page.data.head?) = some (some 8) := by decide +kernel
  refine ⟨by simp [latestPut, colliding, PoolCall.latest], hread, ?_⟩
  rintro ⟨page, pool', hrun, hdata⟩
  rw [hrun, Option.map_some, hdata] at hread
  exact absurd hread (by decide)

/-! ## A flush among updates -/

/-- `put_page` calls of other tasks. -/
def putEach : List Page → PoolTask Unit
  | [] => pure ()
  | page :: pages => do
    lock (.put page)
    putEach pages

/-- Where the puts of other tasks fall among the three steps of `flush_page`: before the copy, before the write of
    the file, before the flag is cleared, after it. -/
structure Schedule where
  before : List Page
  copied : List Page
  saved : List Page
  after : List Page

namespace Schedule

def puts (s : Schedule) : List Page := s.before ++ s.copied ++ s.saved ++ s.after

/-- `flush_page` from its copy on, with the puts in between. -/
def rest (s : Schedule) (id : UInt64) : Option Page → PoolTask Unit
  | none => putEach (s.copied ++ s.saved ++ s.after)
  | some page =>
    if page.dirty then do
      putEach s.copied
      lock (.save page)
      putEach s.saved
      lock (.setDirty id false)
      putEach s.after
    else putEach (s.copied ++ s.saved ++ s.after)

def prog (s : Schedule) (id : UInt64) : PoolTask Unit := do
  putEach s.before
  let copy ← lock (.snapshot id)
  s.rest id copy

end Schedule

def Pool.put (pool : Pool) (page : Page) : Pool := { pool.insert page with lru := touch pool.lru page.id }

theorem run_putEach : ∀ (pages : List Page) (pool : Pool),
    (putEach pages).run poolExec pool = (some (), pages.foldl Pool.put pool)
  | [], _ => rfl
  | page :: pages, pool => run_putEach pages (pool.put page)

theorem Schedule.run_prog (s : Schedule) (id : UInt64) (pool : Pool) : (s.prog id).run poolExec pool =
    (s.rest id ((s.before.foldl Pool.put pool).page id)).run poolExec (s.before.foldl Pool.put pool) := by
  rw [prog, Prog.run_bind, run_putEach]
  rfl

/-- The pool when `flush_page` has written its copy and cleared the flag. -/
def Schedule.cleared (s : Schedule) (pool : Pool) (id : UInt64) (copy : Page) : Pool :=
  let mid := (s.before ++ s.copied).foldl Pool.put pool
  (s.saved.foldl Pool.put { mid with file := savePage mid.file copy }).setDirty id false

/-- The page is dirty at the copy. -/
theorem Schedule.run_dirty (s : Schedule) {id : UInt64} {pool : Pool} {page : Page}
    (hp : (s.before.foldl Pool.put pool).page id = some page) (hd : page.dirty = true) :
    (s.prog id).run poolExec pool = (some (), s.after.foldl Pool.put (s.cleared pool id page)) := by
  rw [run_prog, hp, rest, if_pos hd, Prog.run_bind, run_putEach, cleared, List.foldl_append]
  change (putEach s.saved >>= fun _ => lock (.setDirty id false) >>= fun _ => putEach s.after).run poolExec _ = _
  rw [Prog.run_bind, run_putEach]
  exact run_putEach s.after _

/-- It is not there, or clean: the puts only. -/
theorem Schedule.run_clean (s : Schedule) {id : UInt64} {pool : Pool}
    (hp : ∀ page, (s.before.foldl Pool.put pool).page id = some page → page.dirty = false) :
    (s.prog id).run poolExec pool = (some (), s.puts.foldl Pool.put pool) := by
  have hputs : s.puts.foldl Pool.put pool =
      (s.copied ++ s.saved ++ s.after).foldl Pool.put (s.before.foldl Pool.put pool) := by
    rw [← List.foldl_append, puts]
    simp only [List.append_assoc]
  rw [run_prog, hputs]
  cases hpage : (s.before.foldl Pool.put pool).page id with
  | none => exact run_putEach _ _
  | some page =>
    rw [rest, if_neg (by simp [hp page hpage])]
    exact run_putEach _ _

section Par
variable {pool pool' : Pool}

theorem par_putEach_op {o : PoolOp} {k : o.Ret → PoolTask Unit} {puts : List Page}
    (h : Prog.Par poolExec (.op o k) (putEach puts) pool () () pool') :
    ∃ pre post r mid, puts = pre ++ post ∧ poolExec o (pre.foldl Pool.put pool) = some (r, mid) ∧
      Prog.Par poolExec (k r) (putEach post) mid () () pool' := by
  induction puts generalizing pool with
  | nil =>
    change Prog.Par poolExec (.op o k) (.ret ()) pool () () pool' at h
    cases h with
    | left hx h => exact ⟨[], [], _, _, rfl, hx, h⟩
  | cons page pages ih =>
    change Prog.Par poolExec (.op o k) (.op (.put page) fun _ => putEach pages) pool () () pool' at h
    cases h with
    | left hx h => exact ⟨[], page :: pages, _, _, rfl, hx, h⟩
    | right hx h =>
      cases hx
      obtain ⟨pre, post, r, mid, rfl, hx, h⟩ := ih h
      exact ⟨page :: pre, post, r, mid, rfl, hx, h⟩

theorem par_putEach_ret {puts : List Page}
    (h : Prog.Par poolExec (.ret () : PoolTask Unit) (putEach puts) pool () () pool') :
    pool' = puts.foldl Pool.put pool := by
  induction puts generalizing pool with
  | nil =>
    change Prog.Par poolExec (.ret () : PoolTask Unit) (.ret ()) pool () () pool' at h
    cases h
    rfl
  | cons page pages ih =>
    change Prog.Par poolExec (.ret () : PoolTask Unit) (.op (.put page) fun _ => putEach pages) pool () () pool' at h
    cases h with
    | right hx h =>
      cases hx
      exact ih h

/-- The schedules are all the ways to interleave. -/
theorem schedule_of_par {id : UInt64} {puts : List Page}
    (h : Prog.Par poolExec (flushPage id) (putEach puts) pool () () pool') :
    ∃ s : Schedule, s.puts = puts ∧ (s.prog id).run poolExec pool = (some (), pool') := by
  change Prog.Par poolExec (.op (.snapshot id) (flushCopy id)) (putEach puts) pool () () pool' at h
  obtain ⟨before, rest, _, _, rfl, hx, h⟩ := par_putEach_op h
  cases hx
  -- without a dirty copy the flush is over
  have hclean : (∀ page, (before.foldl Pool.put pool).page id = some page → page.dirty = false) →
      Prog.Par poolExec (.ret ()) (putEach rest) (before.foldl Pool.put pool) () () pool' →
      ∃ s : Schedule, s.puts = before ++ rest ∧ (s.prog id).run poolExec pool = (some (), pool') := by
    intro hp h
    refine ⟨⟨before, rest, [], []⟩, by simp [Schedule.puts], ?_⟩
    rw [Schedule.run_clean _ hp, par_putEach_ret h]
    simp [Schedule.puts]
  cases hp : (before.foldl Pool.put pool).page id with
  | none =>
    rw [hp] at h
    exact hclean (by simp [hp]) h
  | some page =>
    rw [hp, flushCopy] at h
    cases hd : page.dirty with
    | false =>
      rw [if_neg (by simp [hd])] at h
      exact hclean (by simp [hp, hd]) h
    | true =>
      rw [if_pos hd] at h
      change Prog.Par poolExec (.op (.save page) fun _ => .op (.setDirty id false) .ret) _ _ _ _ _ at h
      obtain ⟨copied, rest, _, _, rfl, hx, h⟩ := par_putEach_op h
      cases hx
      obtain ⟨saved, after, _, _, rfl, hx, h⟩ := par_putEach_op h
      cases hx
      refine ⟨⟨before, copied, saved, after⟩, by simp [Schedule.puts], ?_⟩
      rw [Schedule.run_dirty _ hp hd, par_putEach_ret h, Schedule.cleared, List.foldl_append]

end Par

/-- The page after the puts: the last one. -/
def lastPage (page : Option Page) (puts : List Page) : Option Page := puts.foldl (fun _ page => some page) page

def lastData (data : Bytes) (puts : List Page) : Bytes := puts.foldl (fun _ page => page.data) data

/-- `flush_page` copies a dirty page, the last put comes between the copy and the clearing of the flag, and it has
    other data than the copy. -/
def Schedule.Loses (s : Schedule) (pool : Pool) (id : UInt64) : Prop :=
  ∃ copy last, lastPage (pool.page id) s.before = some copy ∧ copy.dirty = true ∧ s.after = [] ∧
    (s.copied ++ s.saved).getLast? = some last ∧ last.data ≠ copy.data

section Puts
variable {pool : Pool} {id : UInt64} {data : Bytes}

theorem file_putEach : ∀ (puts : List Page) (pool : Pool), (puts.foldl Pool.put pool).file = pool.file
  | [], _ => rfl
  | page :: puts, pool => file_putEach puts (pool.put page)

theorem page_putEach : ∀ (puts : List Page) (pool : Pool), (∀ page ∈ puts, page.id = id) →
    (puts.foldl Pool.put pool).page id = lastPage (pool.page id) puts
  | [], _, _ => rfl
  | page :: puts, pool, hputs => by
    obtain ⟨hid, hputs⟩ := List.forall_mem_cons.1 hputs
    have hput : (pool.put page).page id = some page := by
      change (pool.insert page).page id = some page
      rw [Pool.page_insert, if_pos hid.symm]
    rw [List.foldl_cons, page_putEach puts (pool.put page) hputs, hput]
    rfl

/-- A put makes the page hold its data, whatever it held. -/
theorem holds_putEach_cons (pool : Pool) (data : Bytes) : ∀ (puts : List Page) (page : Page),
    (∀ p ∈ page :: puts, p.id = id ∧ p.dirty = true) →
      Holds ((page :: puts).foldl Pool.put pool) id (lastData data (page :: puts)) := by
  intro puts
  induction puts generalizing pool data with
  | nil =>
    intro page hputs
    obtain ⟨hid, hdirty⟩ := hputs page (by simp)
    rw [← hid]
    exact (holds_put pool hdirty).congr rfl rfl
  | cons page' puts ih =>
    intro page hputs
    exact ih (pool.put page) page.data page' fun p hp => hputs p (List.mem_cons_of_mem _ hp)

theorem holds_putEach (puts : List Page) (h : Holds pool id data)
    (hputs : ∀ page ∈ puts, page.id = id ∧ page.dirty = true) :
    Holds (puts.foldl Pool.put pool) id (lastData data puts) := by
  cases puts with
  | nil => exact h
  | cons page puts => exact holds_putEach_cons pool data puts page hputs

/-- What is read after the page has left the pool. -/
theorem read_after_evict {x : Bytes} (h : Holds (pool.evicted id) id data) :
    (∃ page pool', (evict id >>= fun _ => getPage id).run poolExec pool = (some page, pool') ∧ page.data = x) ↔
      data = x := by
  obtain ⟨page, pool', hrun, -, hdata⟩ := h.get
  have hread : (evict id >>= fun _ => getPage id).run poolExec pool = (some page, pool') := by
    rw [Prog.run_bind, run_evict]
    exact hrun
  rw [hread]
  constructor
  · rintro ⟨_, _, heq, rfl⟩
    cases heq
    exact hdata.symm
  · rintro rfl
    exact ⟨page, pool', rfl, hdata⟩

/-- A page whose flag is clear leaves no trace but the file. -/
theorem holds_evicted_of_clean (hclean : ∀ page, pool.page id = some page → page.dirty = false)
    (hdisk : OnDisk pool.file id data) : Holds (pool.evicted id) id data := by
  rw [Pool.evicted, Pool.flushed_of_clean hclean]
  exact ⟨fun page hp => by simp at hp, fun _ => hdisk⟩

theorem lastData_append (data : Bytes) (xs ys : List Page) :
    lastData data (xs ++ ys) = lastData (lastData data xs) ys := by
  simp [lastData]

theorem lastData_of_getLast? {data : Bytes} {xs : List Page} {last : Page} (h : xs.getLast? = some last) :
    lastData data xs = last.data := by
  obtain ⟨ys, rfl⟩ := List.getLast?_eq_some_iff.1 h
  simp [lastData]

/-- The copy is in the file, and the page that goes by it is clean. -/
theorem Schedule.holds_cleared (s : Schedule) {copy : Page} (hid : copy.id = id) :
    Holds ((s.cleared pool id copy).evicted id) id copy.data := by
  refine holds_evicted_of_clean (fun page hp => ?_) ?_
  · rw [cleared, Pool.page_setDirty, if_pos rfl] at hp
    obtain ⟨_, -, rfl⟩ := Option.map_eq_some_iff.1 hp
    rfl
  · rw [cleared, Pool.file_setDirty, file_putEach, ← hid]
    exact onDisk_save _ copy

/-- **A flush among updates.** With puts of the page by other tasks before, between and after the steps of
    `flush_page`, the page as read after its eviction is the one put last, exactly unless the last put comes between
    the copy and the clearing of the flag, with other data. -/
theorem flush_keeps_iff (s : Schedule) (hholds : Holds pool id data)
    (hputs : ∀ page ∈ s.puts, page.id = id ∧ page.dirty = true) :
    (∃ page pool', (s.prog id >>= fun _ => evict id >>= fun _ => getPage id).run poolExec pool = (some page, pool') ∧
      page.data = lastData data s.puts) ↔ ¬ s.Loses pool id := by
  have hbefore : ∀ page ∈ s.before, page.id = id ∧ page.dirty = true :=
    fun page hp => hputs page (by simp [Schedule.puts, hp])
  have hcopy := page_putEach s.before pool fun page hp => (hbefore page hp).1
  by_cases hclean : ∀ page, (s.before.foldl Pool.put pool).page id = some page → page.dirty = false
  · -- nothing is flushed, the puts stay dirty
    have hlast := holds_putEach s.puts hholds hputs
    rw [Prog.run_bind, s.run_clean hclean]
    refine iff_of_true ((read_after_evict (hlast.evicted fun _ _ hne => absurd rfl hne)).2 rfl) ?_
    rintro ⟨copy, _, hc, hd, -⟩
    rw [hclean copy (by rw [hcopy, hc])] at hd
    cases hd
  · obtain ⟨copy, hp, hd⟩ : ∃ page, (s.before.foldl Pool.put pool).page id = some page ∧ page.dirty = true := by
      simpa using hclean
    rw [Prog.run_bind, s.run_dirty hp hd]
    cases hafter : s.after with
    | cons page after =>
      -- the last put sets the flag again
      have hlast := holds_putEach_cons (s.cleared pool id copy) (lastData data (s.before ++ s.copied ++ s.saved)) after
        page fun p hp => hputs p (by simp [Schedule.puts, hafter, List.mem_cons.1 hp])
      rw [Schedule.puts, lastData_append, hafter]
      refine iff_of_true ((read_after_evict (hlast.evicted fun _ _ hne => absurd rfl hne)).2 rfl) ?_
      rintro ⟨_, _, -, -, hnil, -⟩
      rw [hafter] at hnil
      cases hnil
    | nil =>
      -- what is read is the copy
      have hdata : copy.data = lastData data s.before :=
        ((holds_putEach s.before hholds hbefore).cached copy hp).1
      have hputsData : lastData data s.puts = lastData copy.data (s.copied ++ s.saved) := by
        rw [Schedule.puts, hafter, List.append_nil, List.append_assoc, lastData_append, hdata]
      rw [hputsData]
      apply (read_after_evict (s.holds_cleared (Pool.page_id hp))).trans
      constructor
      · rintro heq ⟨copy', last, hc, -, -, hlast, hne⟩
        rw [← hcopy, hp, Option.some.injEq] at hc
        subst hc
        rw [lastData_of_getLast? hlast] at heq
        exact hne heq.symm
      · intro hkeeps
        cases hlast : (s.copied ++ s.saved).getLast? with
        | none =>
          rw [List.getLast?_eq_none_iff.1 hlast]
          rfl
        | some last =>
          rw [lastData_of_getLast? hlast]
          by_contra hne
          exact hkeeps ⟨copy, last, by rw [← hcopy, hp], hd, hafter, hlast, fun heq => hne heq.symm⟩

end Puts

/-- Page 1 as callers put it. -/
def dirtyPage (byte : UInt8) : Page := ⟨1, pageOf byte, true, length_pageOf byte⟩

theorem flush_keeps_iff_after : ∃ page pool',
    ((⟨[], [], [], [dirtyPage 8]⟩ : Schedule).prog 1 >>= fun _ => evict 1 >>= fun _ => getPage 1).run poolExec
      ((Pool.new 1 none).insert (dirtyPage 7)) = (some page, pool') ∧ page.data = pageOf 8 := by
  refine (flush_keeps_iff ⟨[], [], [], [dirtyPage 8]⟩ (holds_put (Pool.new 1 none) rfl) ?_).2 ?_
  · intro page hpage
    rw [List.mem_singleton.1 hpage]
    exact ⟨rfl, rfl⟩
  · rintro ⟨_, _, -, -, hnil, -⟩
    cases hnil

/-- The page is put again between the copy and the clearing of the flag: after the eviction the copy is back. -/
theorem update_forgotten_by_flush :
    (((⟨[], [dirtyPage 8], [], []⟩ : Schedule).prog 1 >>= fun _ => evict 1 >>= fun _ => getPage 1).run poolExec
      ((Pool.new 1 none).insert (dirtyPage 7))).1.map (fun page => page.data.head?) = some (some 7) ∧
    lastData (pageOf 7) [dirtyPage 8] = pageOf 8 ∧
    ¬ ∃ page pool',
      ((⟨[], [dirtyPage 8], [], []⟩ : Schedule).prog 1 >>= fun _ => evict 1 >>= fun _ => getPage 1).run poolExec
        ((Pool.new 1 none).insert (dirtyPage 7)) = (some page, pool') ∧ page.data = pageOf 8 := by
  have hread : (((⟨[], [dirtyPage 8], [], []⟩ : Schedule).prog 1 >>= fun _ => evict 1 >>= fun _ =>
      getPage 1).run poolExec ((Pool.new 1 none).insert (dirtyPage 7))).1.map (fun page => page.data.head?) =
        some (some 7) := by decide +kernel
  refine ⟨hread, rfl, ?_⟩
  rintro ⟨page, pool', hrun, hdata⟩
  rw [hrun, Option.map_some, hdata] at hread
  exact absurd hread (by decide)

end RedisOps.BTree
