import RedisOps.BTree.Calls

/-!
# Closing and reopening (`storage.rs:14-49`, `btree.rs:92-133`)

`BTree::new` starts with root 0 and page counter 1. `init` sets the root only in the branch for an empty file;
with pages in the file it puts what the log replays into the pool and returns (`:104-116`). Nothing in the file
says which page was the root or how many there are.

Whatever was put and deleted before, a reopened storage has another root than the one that was
flushed, and hands out a page that is in use.
-/

namespace RedisOps.BTree

open Lib

variable {K V : Type}

/-! ## Opening -/

def putAll : List (PageId × Node K V) → Task K V Unit
  | [] => pure ()
  | (id, n) :: entries => do
    await (.putPage id n)
    putAll entries

/-- `BTree::init`, on a file of the given size and with the pages the log replays. -/
def initFrom (size : Nat) (entries : List (PageId × Node K V)) : Task K V Unit :=
  if size > 0 then putAll entries else init

/-- The file `flush` leaves: every page at `id * PAGE_SIZE`, so it ends behind the last one. -/
def fileSize (db : Db K V) : Nat :=
  (Finset.range db.nextPage).sup fun id => if (db.pages id).isSome then (id + 1) * PAGE_SIZE else 0

/-- A new `Storage` on the flushed file and its log, after `init`. -/
def reopen (db : Db K V) (entries : List (PageId × Node K V)) : Db K V :=
  ((initFrom (fileSize db) entries).run exec { db with root := 0, nextPage := 1, nextTx := 1 }).2

/-- A fresh `Storage` after `init` and the calls, one after another. -/
def served [LinearOrder K] (fuel : Nat) (calls : List (Call K V)) : Db K V :=
  calls.foldl (fun db call => ((call.prog fuel).run exec db).2)
    ((initFrom 0 []).run exec (Db.new : Db K V)).2

/-- The metadata a reopened tree needs. -/
def Restored (db db' : Db K V) : Prop := db'.root = db.root ∧ ∀ id, (db.pages id).isSome → id < db'.nextPage

/-! ## What the calls keep -/

/-- The root is a page that was allocated, and page 1 was the first. -/
structure Rooted (db : Db K V) : Prop where
  root : 1 ≤ db.root
  next : 2 ≤ db.nextPage
  first : (db.pages 1).isSome

theorem Rooted.put {db : Db K V} (h : Rooted db) (id : PageId) (n : Node K V) :
    Rooted { db with pages := Function.update db.pages id (some n) } := by
  refine ⟨h.root, h.next, ?_⟩
  by_cases hid : 1 = id
  · subst hid
    simp
  · simpa [Function.update_of_ne hid] using h.first

/-- **Step** of an insertion: a new root is the page allocated last. -/
theorem Rooted.step {db db' : Db K V} {s : Insertion K V} {o : PageOp K V} {r : o.Ret}
    (h : Rooted db ∧ ∀ id, s.fresh = some id → 1 ≤ id) (hok : insertion.ok s o) (hx : exec o db = some (r, db')) :
    Rooted db' ∧ ∀ id, (insertion.next s o r).fresh = some id → 1 ≤ id := by
  obtain ⟨hdb, hfresh⟩ := h
  cases o with
  | getPage id =>
    obtain ⟨n, -, heq⟩ := Option.map_eq_some_iff.1 hx
    cases heq
    exact ⟨hdb, hfresh⟩
  | putPage id n => cases hx; exact ⟨hdb.put id n, hfresh⟩
  | allocPage =>
    cases hx
    refine ⟨⟨hdb.root, Nat.le_succ_of_le hdb.next, hdb.first⟩, ?_⟩
    intro id heq
    cases heq
    exact Nat.le_of_succ_le hdb.next
  | readRoot => exact hok.elim
  | writeRoot id => cases hx; exact ⟨⟨hfresh id hok, hdb.next, hdb.first⟩, hfresh⟩
  | nextTxId => exact hok.elim
  | appendWrite id n => cases hx; exact ⟨⟨hdb.root, hdb.next, hdb.first⟩, hfresh⟩
  | appendCommit tx => exact hok.elim

section
variable [LinearOrder K]

/-- **Step** of the engine. -/
theorem Rooted.call {db : Db K V} (h : Rooted db) (fuel : Nat) (call : Call K V) :
    Rooted ((call.prog fuel).run exec db).2 := by
  have hbody : Rooted ((call.body fuel db.root).run exec { db with nextTx := db.nextTx + 1 }).2 := by
    have hstart : Rooted { db with nextTx := db.nextTx + 1 } := ⟨h.root, h.next, h.first⟩
    cases call with
    | put key value =>
      obtain ⟨_, ⟨hrooted, -⟩, -⟩ := Prog.run_obeys (fun s o db r db' hok hI hx => Rooted.step hI hok hx)
        (inserts_body_put fuel db.root key value .start rfl) ⟨hstart, fun _ heq => nomatch heq⟩
      exact hrooted
    | delete key =>
      refine (Prog.run_inv ?_ (all_body_delete fuel db.root key) hstart).1
      intro o db r db' ho hI hx
      cases o with
      | getPage id =>
        obtain ⟨n, -, heq⟩ := Option.map_eq_some_iff.1 hx
        cases heq
        exact hI
      | putPage id n => cases hx; exact hI.put id n
      | _ => exact ho.elim
  rw [run_call]
  rcases hrun : (call.body fuel db.root).run exec { db with nextTx := db.nextTx + 1 } with ⟨_ | answer, db'⟩
  · rwa [hrun] at hbody
  · rw [hrun] at hbody
    exact ⟨hbody.root, hbody.next, hbody.first⟩

/-- **Run.** -/
theorem rooted_served (fuel : Nat) (calls : List (Call K V)) : Rooted (served fuel calls) := by
  unfold served
  have hinit : Rooted ((initFrom 0 []).run exec (Db.new : Db K V)).2 :=
    ⟨Nat.le_refl 1, Nat.le_refl 2, by simp [initFrom, init, Prog.run, exec, Db.new]⟩
  generalize ((initFrom 0 []).run exec (Db.new : Db K V)).2 = db at hinit
  induction calls generalizing db with
  | nil => exact hinit
  | cons call calls ih => exact ih _ (hinit.call fuel call)

end

/-! ## What reopening forgets -/

/-- The flushed file is not empty. -/
theorem Rooted.fileSize_pos {db : Db K V} (h : Rooted db) : 0 < fileSize db := by
  have hle := Finset.le_sup (f := fun id => if (db.pages id).isSome then (id + 1) * PAGE_SIZE else 0)
    (Finset.mem_range.2 h.next)
  rw [if_pos h.first] at hle
  exact Nat.lt_of_lt_of_le (by decide) hle

theorem Rooted.reopen_eq {db : Db K V} (h : Rooted db) :
    reopen db [] = { db with root := 0, nextPage := 1, nextTx := 1 } := by
  rw [reopen, initFrom, if_pos h.fileSize_pos]
  rfl

/-- **Reopening restores nothing.** After any calls and a flush, the reopened storage has another root, and the
    page it allocates next is one in use. -/
theorem reopen_forgets [LinearOrder K] (fuel : Nat) (calls : List (Call K V)) :
    ¬ Restored (served fuel calls) (reopen (served fuel calls) []) ∧
      (reopen (served fuel calls) []).root ≠ (served fuel calls).root ∧
      ((served fuel calls).pages (reopen (served fuel calls) []).nextPage).isSome := by
  have h := rooted_served fuel calls
  rw [h.reopen_eq]
  have hroot : 0 ≠ (served fuel calls).root := Nat.ne_of_lt h.root
  exact ⟨fun hres => hroot hres.1, hroot, h.first⟩

/-- One key, flushed and reopened: the root was page 1 and is page 0, the counter is back at 1. -/
theorem reopened_root_lost :
    (served 1 [.put (keyOf 1) 7]).root = 1 ∧ (reopen (served 1 [.put (keyOf 1) 7]) []).root = 0 ∧
      (reopen (served 1 [.put (keyOf 1) 7]) []).nextPage = 1 ∧
      ¬ ∀ calls : List (Call Key Nat), Restored (served 1 calls) (reopen (served 1 calls) []) := by
  refine ⟨by decide, by decide, by decide, ?_⟩
  intro hall
  exact absurd (hall [.put (keyOf 1) 7]).1 (by decide)

end RedisOps.BTree
