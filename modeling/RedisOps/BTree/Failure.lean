import RedisOps.BTree.Race

/-!
# A put whose log fails (`redisdb/src/btree/btree.rs:140-145, 226-344`, `wal.rs:42-80`)

Every page goes into the pool first and into the log after that, and an append that fails ends the `put` with its error.
What was put into the pool by then stays there: `append_rollback` (`wal.rs:82`) has no caller, and there is nothing
that would take a page back.

* `execLog` — the operations with a log of which one append fails.
* `put_atomic_iff` — a failed put changes no answer exactly when there was nothing to change: the first thing that a
  put does is to bring its entry into the leaf.
-/

namespace RedisOps.BTree

open Lib

variable {K V : Type}

def PageOp.isAppend : PageOp K V → Bool
  | .appendWrite _ _ | .appendCommit _ => true
  | _ => false

/-- `exec`, with a count of the appends; the one with the number `failing` fails, and nothing is logged. -/
def execLog (failing : Option Nat) (o : PageOp K V) (s : Db K V × Nat) : Option (o.Ret × (Db K V × Nat)) :=
  if o.isAppend then
    if failing = some s.2 then none else (exec o s.1).map fun x => (x.1, (x.2, s.2 + 1))
  else (exec o s.1).map fun x => (x.1, (x.2, s.2))

/-- A log that does not fail. -/
theorem run_execLog_none {α : Type} (p : Task K V α) (db : Db K V) (m : Nat) :
    (p.run (execLog none) (db, m)).1 = (p.run exec db).1 ∧ (p.run (execLog none) (db, m)).2.1 = (p.run exec db).2 := by
  induction p generalizing db m with
  | ret a => exact ⟨rfl, rfl⟩
  | fail => exact ⟨rfl, rfl⟩
  | op o k ih =>
    cases hx : exec o db with
    | none =>
      have hlog : execLog none o (db, m) = none := by simp [execLog, hx]
      rw [Prog.run_op_none _ hx, Prog.run_op_none _ hlog]
      exact ⟨rfl, rfl⟩
    | some x =>
      obtain ⟨m', hlog⟩ : ∃ m', execLog none o (db, m) = some (x.1, (x.2, m')) := by
        cases hop : o.isAppend with
        | true => exact ⟨m + 1, by simp [execLog, hx, hop]⟩
        | false => exact ⟨m, by simp [execLog, hx, hop]⟩
      rw [Prog.run_op_some _ hx, Prog.run_op_some _ hlog]
      exact ih x.1 x.2 m'

/-- The count of the appends does not go down. -/
theorem run_execLog_count {α : Type} (failing : Option Nat) (p : Task K V α) (db : Db K V) (m : Nat) :
    m ≤ (p.run (execLog failing) (db, m)).2.2 := by
  induction p generalizing db m with
  | ret a => exact Nat.le_refl m
  | fail => exact Nat.le_refl m
  | op o k ih =>
    cases hlog : execLog failing o (db, m) with
    | none =>
      rw [Prog.run_op_none _ hlog]
    | some x =>
      have hm : m ≤ x.2.2 := by
        unfold execLog at hlog
        split at hlog
        · split at hlog
          · cases hlog
          · obtain ⟨y, -, rfl⟩ := Option.map_eq_some_iff.1 hlog
            exact Nat.le_succ m
        · obtain ⟨y, -, rfl⟩ := Option.map_eq_some_iff.1 hlog
          exact Nat.le_refl m
      rw [Prog.run_op_some _ hlog]
      exact hm.trans (ih x.1 x.2.1 x.2.2)

/-! ## A put, up to its first append -/

variable [LinearOrder K] {db : Db K V} {h fuel : Nat} {id leaf : PageId} {key : K} {value : V} {n : Node K V}

/-- `insert_into_leaf` behind its append: a leaf with a new key may have to split. -/
def splitIfFull (fuel : Nat) (leaf : PageId) (key : K) (value : V) (n : Node K V) : Task K V Unit :=
  match slotOf n key with
  | some _ => pure ()
  | none => if (leafInsert n key value).keys.length ≥ ORDER then splitLeaf fuel leaf else pure ()

theorem splitIfFull_of_mem {fuel : Nat} (hmem : key ∈ n.keys) : splitIfFull fuel leaf key value n = .ret () := by
  unfold splitIfFull
  cases hi : slotOf n key with
  | some i => rfl
  | none => exact absurd hmem (slotOf_eq_none.1 hi)

/-- The leaf is put, then logged, then split. -/
theorem insertIntoLeaf_steps (fuel : Nat) (leaf : PageId) (key : K) (value : V) (g : Unit → Task K V Unit) :
    ∃ k : Node K V → Task K V Unit, (insertIntoLeaf fuel leaf key value >>= g) = .op (.getPage leaf) k ∧
      ∀ n, k n = .op (.putPage leaf (leafInsert n key value)) fun _ =>
        .op (.appendWrite leaf (leafInsert n key value)) fun _ => splitIfFull fuel leaf key value n >>= g := by
  refine ⟨_, rfl, fun n => ?_⟩
  unfold splitIfFull leafInsert
  cases hi : slotOf n key with
  | some i =>
    simp only [Prog.ret_bind', hi]
    rfl
  | none =>
    simp only [Prog.ret_bind', hi]
    rfl

/-- The descent only reads. -/
theorem run_insertInto_log (value : V) (g : Unit → Task K V Unit) :
    ∀ {fuel : Nat} {id : PageId}, descend db.pages (route · key) fuel id = some (leaf, n) → ∃ fuel', ∀ failing m,
      (insertInto fuel id key value >>= g).run (execLog failing) (db, m) =
        (insertIntoLeaf fuel' leaf key value >>= g).run (execLog failing) (db, m)
  | 0, _, hd => by cases hd
  | fuel + 1, id, hd => by
    obtain ⟨k, heq, hleaf, hinternal⟩ := insertInto_eq fuel id key value g
    obtain ⟨node, hp, hnode⟩ := descend_succ hd
    have hx : ∀ failing m, execLog failing (.getPage id) (db, m) = some (node, (db, m)) := by
      intro failing m
      simp [execLog, PageOp.isAppend, exec, hp]
    rcases hnode with ⟨hl, rfl, rfl⟩ | ⟨hl, c, hc, hd⟩
    · refine ⟨fuel, fun failing m => ?_⟩
      rw [heq, Prog.run_op_some _ (hx failing m), hleaf node hl]
    · obtain ⟨fuel', ih⟩ := run_insertInto_log value g hd
      refine ⟨fuel', fun failing m => ?_⟩
      rw [heq, Prog.run_op_some _ (hx failing m), hinternal node c hl hc, ih]

/-- The database with the entry in the leaf. -/
def Db.entered (db : Db K V) (leaf : PageId) (n : Node K V) (key : K) (value : V) : Db K V :=
  { db with pages := Function.update db.pages leaf (some (leafInsert n key value)), nextTx := db.nextTx + 1 }

/-- A put brings its entry into the leaf before it logs anything. -/
theorem run_put_log (hd : descend db.pages (route · key) fuel db.root = some (leaf, n)) (value : V) :
    ∃ fuel', ∀ failing, (put fuel key value).run (execLog failing) (db, 0) =
      (Prog.op (.appendWrite leaf (leafInsert n key value)) fun _ => splitIfFull fuel' leaf key value n >>= fun _ =>
        Prog.op (.appendCommit db.nextTx) .ret).run (execLog failing) (db.entered leaf n key value, 0) := by
  have hput : ∀ failing, (put fuel key value).run (execLog failing) (db, 0) =
      (insertInto fuel db.root key value >>= fun _ => Prog.op (.appendCommit db.nextTx) .ret).run (execLog failing)
        ({ db with nextTx := db.nextTx + 1 }, 0) := fun _ => rfl
  have hd' : descend ({ db with nextTx := db.nextTx + 1 } : Db K V).pages (route · key) fuel db.root = some (leaf, n) := hd
  obtain ⟨fuel', hinsert⟩ := run_insertInto_log value (fun _ => Prog.op (.appendCommit db.nextTx) .ret) hd'
  obtain ⟨k, heq, hk⟩ := insertIntoLeaf_steps fuel' leaf key value fun _ => Prog.op (.appendCommit db.nextTx) .ret
  refine ⟨fuel', fun failing => ?_⟩
  have hget : execLog failing (.getPage leaf) ({ db with nextTx := db.nextTx + 1 }, 0) =
      some (n, ({ db with nextTx := db.nextTx + 1 }, 0)) := by
    simp [execLog, PageOp.isAppend, exec, descend_page hd]
  have hputPage : execLog failing (.putPage leaf (leafInsert n key value)) ({ db with nextTx := db.nextTx + 1 }, 0) =
      some ((), (db.entered leaf n key value, 0)) := rfl
  rw [hput, hinsert, heq, Prog.run_op_some _ hget, hk, Prog.run_op_some _ hputPage]

/-! ## What is left of a failed put -/

/-- The log records a put appends, while none of them fails. -/
def putAppends (fuel : Nat) (db : Db K V) (key : K) (value : V) : Nat :=
  ((put fuel key value).run (execLog none) (db, 0)).2.2

/-- Whichever append fails, the put does, and no key has another answer than before. -/
def PutAtomic (fuel : Nat) (db : Db K V) (key : K) (value : V) : Prop :=
  ∀ j < putAppends fuel db key value, ∃ db' m,
    (put fuel key value).run (execLog (some j)) (db, 0) = (none, (db', m)) ∧
      ∀ k, ((get fuel k).run exec db').1 = ((get fuel k).run exec db).1

theorem run_get_entered (hlands : Lands db.pages h db.root leaf n)
    (hd : descend db.pages (route · key) fuel db.root = some (leaf, n)) (value : V) :
    ((get fuel key).run exec (db.entered leaf n key value)).1 = some (some value) := by
  have hl' : (leafInsert n key value).isLeaf = true := by
    unfold leafInsert
    split <;> exact hlands.isLeaf
  rw [run_get]
  simp only [Db.entered]
  rw [descend_update _ hlands.page hlands.isLeaf hl', hd]
  simp [slotGet_leafInsert_of_len hlands.len]

/-- A value that is there already. -/
theorem leafInsert_same (hlen : n.values.length = n.keys.length) (hget : slotGet key n.keys n.values = some value) :
    key ∈ n.keys ∧ leafInsert n key value = n := by
  have hmem : key ∈ n.keys := (slotGet_isSome hlen).1 (by rw [hget]; rfl)
  refine ⟨hmem, ?_⟩
  rw [slotGet_eq] at hget
  unfold leafInsert
  cases hi : slotOf n key with
  | none => exact absurd hmem (slotOf_eq_none.1 hi)
  | some i =>
    rw [hi] at hget
    obtain ⟨hlt, hval⟩ := List.getElem?_eq_some_iff.1 hget
    simp only
    rw [← hval, List.set_getElem_self hlt]

/-- **A failed put.** In every tree in search order, for every key and value: a put changes no answer when one of its
    appends fails exactly when the tree holds that value for the key already. -/
theorem put_atomic_iff (ht : SearchTree db.pages h db.root) (hf : h ≤ fuel) (key : K) (value : V) :
    PutAtomic fuel db key value ↔ ((get fuel key).run exec db).1 = some (some value) := by
  obtain ⟨leaf, n, hd, hlands⟩ := ht.descend (route · key) (route_le · key) hf
  obtain ⟨fuel', hput⟩ := run_put_log hd value
  let logged : Db K V := { db.entered leaf n key value with
    wal := db.wal ++ [.write (db.nextTx + 1) leaf (leafInsert n key value)] }
  have hfails : execLog (some 0) (.appendWrite leaf (leafInsert n key value)) (db.entered leaf n key value, 0) =
      none := rfl
  have hlogs : ∀ failing, failing ≠ some 0 → execLog failing (.appendWrite leaf (leafInsert n key value))
      (db.entered leaf n key value, 0) = some ((), (logged, 1)) := fun failing hne => if_neg hne
  constructor
  · -- the first append fails, with the entry in the leaf
    intro hatomic
    have hcount : 0 < putAppends fuel db key value := by
      rw [putAppends, hput, Prog.run_op_some _ (hlogs none (by simp))]
      exact run_execLog_count none _ _ 1
    obtain ⟨db', m, hrun, hsame⟩ := hatomic 0 hcount
    rw [hput, Prog.run_op_none _ hfails] at hrun
    cases hrun
    rw [← hsame key, run_get_entered hlands hd]
  · intro hheld
    have hslot : slotGet key n.keys n.values = some value := by
      rw [run_get, hd] at hheld
      simpa using hheld
    obtain ⟨hmem, hsame⟩ := leafInsert_same hlands.len hslot
    -- the page that is put is the one that was there
    have hpages : (db.entered leaf n key value).pages = db.pages := by
      rw [Db.entered, hsame, ← hlands.page, Function.update_eq_self]
    have hanswers : ∀ db' : Db K V, db'.pages = db.pages → db'.root = db.root →
        ∀ k, ((get fuel k).run exec db').1 = ((get fuel k).run exec db).1 := by
      intro db' hp hr k
      rw [run_get, run_get, hp, hr]
    have hrest : ∀ failing, (put fuel key value).run (execLog failing) (db, 0) =
        (Prog.op (.appendWrite leaf (leafInsert n key value)) fun _ => Prog.op (.appendCommit db.nextTx) .ret).run
          (execLog failing) (db.entered leaf n key value, 0) := by
      intro failing
      rw [hput, splitIfFull_of_mem hmem]
      rfl
    have htwo : putAppends fuel db key value = 2 := by
      rw [putAppends, hrest]
      rfl
    intro j hj
    rw [htwo] at hj
    obtain rfl | rfl : j = 0 ∨ j = 1 := by omega
    · refine ⟨db.entered leaf n key value, 0, ?_, hanswers _ hpages rfl⟩
      rw [hrest, Prog.run_op_none _ hfails]
    · refine ⟨logged, 1, ?_, hanswers logged hpages rfl⟩
      rw [hrest, Prog.run_op_some _ (hlogs _ (by simp))]
      rfl

/-- The value of a key is put once more. -/
theorem put_atomic_iff_again : PutAtomic 2 twoLeaves (keyOf 2) 2 :=
  (put_atomic_iff searchTree_twoLeaves (Nat.le_refl 2) (keyOf 2) 2).2 (by decide)

/-- Another value is put and the first append fails: `put` answers an error and `get` the new value. -/
theorem failed_put_read :
    ((put 2 (keyOf 2) 7).run (execLog (some 0)) (twoLeaves, 0)).1 = none ∧
    ((get 2 (keyOf 2)).run exec twoLeaves).1 = some (some 2) ∧
    ((get 2 (keyOf 2)).run exec ((put 2 (keyOf 2) 7).run (execLog (some 0)) (twoLeaves, 0)).2.1).1 = some (some 7) ∧
    ¬ PutAtomic 2 twoLeaves (keyOf 2) 7 := by
  have hbefore : ((get 2 (keyOf 2)).run exec twoLeaves).1 = some (some 2) := by decide
  have hafter : ((get 2 (keyOf 2)).run exec ((put 2 (keyOf 2) 7).run (execLog (some 0)) (twoLeaves, 0)).2.1).1 =
      some (some 7) := by decide
  refine ⟨by decide, hbefore, hafter, fun hatomic => ?_⟩
  obtain ⟨db', m, hrun, hsame⟩ := hatomic 0 (by decide)
  rw [hrun, hsame, hbefore] at hafter
  exact absurd hafter (by decide)

end RedisOps.BTree
