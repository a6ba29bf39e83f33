import RedisOps.BTree.Calls

/-!
# Write-ahead logging (`btree.rs:226-523`)

Every page that `put` puts into the pool is logged by the next operation, so a record of what the page ends up
as is in the log before the commit. `delete_from_leaf` serialises the page and drops the bytes (`:519-522`): a
`delete` that finds its key changes a page without a record.
-/

namespace RedisOps.BTree

open Lib

variable {K V : Type}

/-- Every page that differs between the two states is in one of the records as it is now. -/
def Covers (recs : List (Record K V)) (db db' : Db K V) : Prop :=
  ∀ id, db'.pages id ≠ db.pages id → ∃ tx n, db'.pages id = some n ∧ .write tx id n ∈ recs

/-- What has changed between the two states has been logged between them. -/
def Logged (db db' : Db K V) : Prop := ∃ recs, db'.wal = db.wal ++ recs ∧ Covers recs db db'

/-- The same of a whole call, which ends with its commit record. -/
def LoggedCommit (db db' : Db K V) : Prop :=
  ∃ recs, db'.wal = db.wal ++ recs ++ [.commit db.nextTx] ∧ Covers recs db db'

theorem Logged.commit_iff {db mid : Db K V} :
    LoggedCommit db { mid with wal := mid.wal ++ [.commit db.nextTx] } ↔ Logged db mid := by
  simp only [LoggedCommit, Logged, List.append_cancel_right_eq, Covers]

/-! ## `put` is write-ahead -/

/-- In the middle of an insertion: the page put last may still be missing in the log. -/
structure LoggedSoFar (db₀ : Db K V) (s : Insertion K V) (db : Db K V) (recs : List (Record K V)) : Prop where
  wal : db.wal = db₀.wal ++ recs
  pending : ∀ id n, s.unlogged = some (id, n) → db.pages id = some n
  covers : ∀ id, db.pages id ≠ db₀.pages id →
    (∃ n, s.unlogged = some (id, n)) ∨ ∃ tx n, db.pages id = some n ∧ .write tx id n ∈ recs

/-- **Step.** -/
theorem LoggedSoFar.step {db₀ db db' : Db K V} {s : Insertion K V} {recs : List (Record K V)} {o : PageOp K V}
    {r : o.Ret} (h : LoggedSoFar db₀ s db recs) (hok : insertion.ok s o) (hx : exec o db = some (r, db')) :
    ∃ recs', LoggedSoFar db₀ (insertion.next s o r) db' recs' := by
  cases o with
  | getPage id =>
    obtain ⟨n, -, heq⟩ := Option.map_eq_some_iff.1 hx
    cases heq
    exact ⟨recs, h⟩
  | putPage id n =>
    cases hx
    refine ⟨recs, h.wal, fun id' n' heq => ?_, fun id' hne => ?_⟩
    · cases heq
      exact Function.update_self ..
    · by_cases hid : id' = id
      · exact .inl ⟨n, by rw [hid]; rfl⟩
      · -- nothing else was pending
        simp only [Function.update_of_ne hid] at hne ⊢
        obtain ⟨m, hm⟩ | hlogged := h.covers id' hne
        · rw [show s.unlogged = none from hok] at hm
          cases hm
        · exact .inr hlogged
  | allocPage => cases hx; exact ⟨recs, h.wal, h.pending, h.covers⟩
  | readRoot => exact hok.elim
  | writeRoot id => cases hx; exact ⟨recs, h.wal, h.pending, h.covers⟩
  | nextTxId => exact hok.elim
  | appendWrite id n =>
    cases hx
    refine ⟨recs ++ [.write db.nextTx id n], by simp [h.wal], ?_, fun id' hne => .inr ?_⟩
    · rintro _ _ ⟨⟩
    have hun : s.unlogged = some (id, n) := hok
    obtain ⟨m, hm⟩ | ⟨tx, m, hm, hmem⟩ := h.covers id' hne
    · rw [hun] at hm
      cases hm
      exact ⟨db.nextTx, n, h.pending id n hun, by simp⟩
    · exact ⟨tx, m, hm, List.mem_append_left _ hmem⟩
  | appendCommit tx => exact hok.elim

/-- **Run.** -/
theorem Inserts.logged {α : Type} {p : Task K V α} (hp : Inserts p) {db db' : Db K V} {tx : Nat} {a : α}
    (hrun : p.run exec { db with nextTx := tx } = (some a, db')) : Logged db db' := by
  have hstep : ∀ s o (mid : Db K V) r mid', insertion.ok s o → (∃ recs, LoggedSoFar db s mid recs) →
      exec o mid = some (r, mid') → ∃ recs, LoggedSoFar db (insertion.next s o r) mid' recs := by
    rintro s o mid r mid' hok ⟨recs, h⟩ hx
    exact h.step hok hx
  have hstart : LoggedSoFar db Insertion.start { db with nextTx := tx } [] :=
    ⟨by simp, fun _ _ heq => (nomatch heq), fun _ hne => absurd rfl hne⟩
  obtain ⟨s, ⟨recs, h⟩, hdone⟩ := Prog.run_obeys hstep (hp Insertion.start rfl) ⟨[], hstart⟩
  rw [hrun] at h hdone
  refine ⟨recs, h.wal, fun id hne => (h.covers id hne).resolve_left ?_⟩
  rintro ⟨n, hn⟩
  rw [(hdone a rfl).2] at hn
  cases hn

section
variable [LinearOrder K]

/-! ## `delete` is not -/

/-- The call logs what it changes: it is a `put`, or the leaf `delete_from` comes to does not have the key. -/
def LogsAll (fuel : Nat) (db : Db K V) : Call K V → Prop
  | .put _ _ => True
  | .delete key => ∀ leaf n, descend db.pages (routeDelete · key) fuel db.root = some (leaf, n) → key ∉ n.keys

theorem slotOf_lt {n : Node K V} {key : K} {i : Nat} (h : slotOf n key = some i) : i < n.keys.length :=
  (List.findIdx?_eq_some_iff_getElem.1 h).1

/-- The leaf without a slot is another leaf. -/
theorem eraseSlot_ne {n : Node K V} {key : K} {i : Nat} (h : slotOf n key = some i) : eraseSlot n i ≠ n := by
  intro he
  have hlen := congrArg (fun m : Node K V => m.keys.length) he
  have hlt := slotOf_lt h
  simp only [eraseSlot, List.length_eraseIdx_of_lt hlt] at hlen
  omega

theorem run_body_delete (fuel : Nat) (db : Db K V) (root : PageId) (key : K) :
    ((Call.delete key).body fuel root).run exec db =
      (((deleteFrom fuel root key).run exec db).1.map some, ((deleteFrom fuel root key).run exec db).2) :=
  Prog.run_map exec some (deleteFrom fuel root key) db

/-- **Write-ahead completeness.** A completed call has logged, before its commit, every page it changed exactly
    when it is a `put`, or a `delete` that finds nothing to delete. -/
theorem logged_iff {fuel : Nat} {db db' : Db K V} {answer : Option Bool} (call : Call K V)
    (hrun : (call.prog fuel).run exec db = (some answer, db')) : LoggedCommit db db' ↔ LogsAll fuel db call := by
  rw [run_call] at hrun
  rcases hbody : (call.body fuel db.root).run exec { db with nextTx := db.nextTx + 1 } with ⟨_ | a, mid⟩
  · rw [hbody] at hrun
    cases hrun
  rw [hbody] at hrun
  cases hrun
  rw [Logged.commit_iff]
  cases call with
  | put key value =>
    exact iff_of_true ((inserts_body_put fuel db.root key value).logged hbody) trivial
  | delete key =>
    rw [run_body_delete, run_deleteFrom] at hbody
    cases hd : descend db.pages (routeDelete · key) fuel db.root with
    | none =>
      rw [hd] at hbody
      cases hbody
    | some p =>
      obtain ⟨leaf, n⟩ := p
      have hpage := descend_page hd
      simp only [hd, run_deleteFromLeaf (show ({ db with nextTx := db.nextTx + 1 } : Db K V).pages leaf = some n
        from hpage)] at hbody
      have hlogs : LogsAll fuel db (.delete key) ↔ slotOf n key = none := by
        rw [slotOf_eq_none]
        constructor
        · intro h
          exact h leaf n hd
        · intro h leaf' n' hd'
          rw [hd] at hd'
          cases hd'
          exact h
      rw [hlogs]
      cases hi : slotOf n key with
      | none =>
        rw [hi] at hbody
        cases hbody
        exact iff_of_true ⟨[], by simp, fun _ h => absurd rfl h⟩ rfl
      | some i =>
        rw [hi] at hbody
        cases hbody
        refine iff_of_false ?_ (by simp)
        rintro ⟨recs, hwal, hcovers⟩
        obtain rfl : recs = [] := by simpa using hwal
        obtain ⟨_, _, -, hmem⟩ := hcovers leaf (by simpa [hpage] using eraseSlot_ne hi)
        cases hmem

end

theorem logged_iff_put : LoggedCommit twoLeaves (((Call.put (keyOf 2) 7).prog 2).run exec twoLeaves).2 := by
  have hrun : ((Call.put (keyOf 2) 7).prog 2).run exec twoLeaves =
      (some none, (((Call.put (keyOf 2) 7).prog 2).run exec twoLeaves).2) := Prod.ext (by decide) rfl
  exact (logged_iff _ hrun).2 trivial

/-- The delete is acknowledged and committed; of the page without the key there is no record. -/
theorem delete_not_logged :
    (((Call.delete (keyOf 2)).prog 2).run exec twoLeaves).1 = some (some true) ∧
      ¬ LoggedCommit twoLeaves (((Call.delete (keyOf 2)).prog 2).run exec twoLeaves).2 := by
  refine ⟨by decide, ?_⟩
  rintro ⟨recs, hwal, hcovers⟩
  have hlog : (((Call.delete (keyOf 2)).prog 2).run exec twoLeaves).2.wal = [.commit 5] := by decide
  rw [hlog] at hwal
  obtain rfl : recs = [] := by simpa [twoLeaves] using hwal
  obtain ⟨_, _, -, hmem⟩ := hcovers 1 (by decide)
  cases hmem

end RedisOps.BTree
