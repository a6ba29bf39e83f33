import RedisOps.BTree.Delete
import RedisOps.BTree.Insert
import RedisOps.Lib.Par

/-!
# Two `put`s at a time (`btree.rs:140-145, 200-274`)

`put` goes down to a leaf, reads it, and puts the changed leaf back; `alloc_page` and `next_tx_id` hold their lock
from the read to the write, `insert_into_leaf` holds none. A second `put` to the same leaf in between is lost.

In a tree in search order with room in its leaves, two interleaved `put`s always both last exactly
when their keys belong to different leaves, or both values are there already.
-/

namespace RedisOps.BTree

open Lib

variable {K V : Type} [LinearOrder K]

/-! ## One `put` among others -/

/-- How far a `put` is that goes to `leaf`, found as `n`; the flag says whether it has written. -/
inductive Putting (pages : PageId → Option (Node K V)) (root : PageId) (key : K) (value : V) (leaf : PageId)
    (n : Node K V) : Bool → Task K V Unit → Prop
  | called (fuel : Nat) : descend pages (route · key) fuel root = some (leaf, n) →
      Putting pages root key value leaf n false (put fuel key value)
  | rooted (fuel : Nat) : descend pages (route · key) fuel root = some (leaf, n) →
      Putting pages root key value leaf n false
        (await .nextTxId >>= fun tx => insertInto fuel root key value >>= fun _ => await (.appendCommit tx))
  | descending (fuel : Nat) (id : PageId) (tx : Nat) : descend pages (route · key) fuel id = some (leaf, n) →
      Putting pages root key value leaf n false
        (insertInto fuel id key value >>= fun _ => await (.appendCommit tx))
  | atLeaf (fuel tx : Nat) : Putting pages root key value leaf n false
      (insertIntoLeaf fuel leaf key value >>= fun _ => await (.appendCommit tx))
  | read (tx : Nat) : Putting pages root key value leaf n false
      (.op (.putPage leaf (leafInsert n key value)) fun _ =>
        .op (.appendWrite leaf (leafInsert n key value)) fun _ => .op (.appendCommit tx) .ret)
  | wrote (tx : Nat) : Putting pages root key value leaf n true
      (.op (.appendWrite leaf (leafInsert n key value)) fun _ => .op (.appendCommit tx) .ret)
  | logged (tx : Nat) : Putting pages root key value leaf n true (.op (.appendCommit tx) .ret)
  | finished : Putting pages root key value leaf n true (.ret ())

/-- The first operation of an insertion and what it goes on with. -/
theorem insertInto_eq (fuel : Nat) (id : PageId) (key : K) (value : V) (g : Unit → Task K V Unit) :
    ∃ k, (insertInto (fuel + 1) id key value >>= g) = .op (.getPage id) k ∧
      (∀ n, n.isLeaf = true → k n = (insertIntoLeaf fuel id key value >>= g)) ∧
      ∀ n c, n.isLeaf = false → n.children[route n key]? = some c → k n = (insertInto fuel c key value >>= g) := by
  refine ⟨_, rfl, fun n hl => ?_, fun n c hl hc => ?_⟩
  · simp only [Prog.ret_bind', hl, if_true]
    rfl
  · simp only [Prog.ret_bind', hl, Bool.false_eq_true, if_false, child, hc]
    rfl

theorem insertIntoLeaf_eq (fuel : Nat) (leaf : PageId) (key : K) (value : V) (g : Unit → Task K V Unit) :
    ∃ k, (insertIntoLeaf fuel leaf key value >>= g) = .op (.getPage leaf) k ∧
      ∀ n, n.keys.length + 1 < ORDER → k n = .op (.putPage leaf (leafInsert n key value)) fun _ =>
        .op (.appendWrite leaf (leafInsert n key value)) g := by
  refine ⟨_, rfl, ?_⟩
  intro n hroom
  unfold leafInsert
  cases hi : slotOf n key with
  | some i =>
    simp only [Prog.ret_bind', hi]
    rfl
  | none =>
    have hlen : ¬ ORDER ≤ (n.keys.insertIdx (insertPos key n.keys) key).length := by
      rw [List.length_insertIdx_of_le_length (insertPos_le key n.keys)]
      omega
    simp only [Prog.ret_bind', hi, ge_iff_le, hlen, if_false]
    rfl

section Step
variable {pages : PageId → Option (Node K V)} {root leaf : PageId} {key : K} {value : V} {n : Node K V}

/-- The pages as a `put` needs them: internal nodes are as they were, and so is its leaf until it writes it. -/
structure Undisturbed (pages : PageId → Option (Node K V)) (root leaf : PageId) (n : Node K V) (wrote : Bool)
    (db : Db K V) : Prop where
  root : db.root = root
  internal : ∀ id m, pages id = some m → m.isLeaf = false → db.pages id = some m
  leaf : wrote = false → db.pages leaf = some n

/-- **Step.** One operation of a `put`: it leaves the pages, or writes its leaf. -/
theorem Putting.step {wrote : Bool} {o : PageOp K V} {k : o.Ret → Task K V Unit} {r : o.Ret} {db db' : Db K V}
    (h : Putting pages root key value leaf n wrote (.op o k)) (hroom : n.keys.length + 1 < ORDER)
    (hdb : Undisturbed pages root leaf n wrote db) (hx : exec o db = some (r, db')) :
    db'.root = root ∧ ∃ wrote', Putting pages root key value leaf n wrote' (k r) ∧
      ((wrote' = wrote ∧ db'.pages = db.pages) ∨ (wrote = false ∧ wrote' = true ∧
        db'.pages = Function.update db.pages leaf (some (leafInsert n key value)))) := by
  generalize hp : Prog.op o k = p at h
  cases h with
  | called fuel hd =>
    cases hp
    cases hx
    refine ⟨hdb.root, false, ?_, .inl ⟨rfl, rfl⟩⟩
    rw [hdb.root]
    exact .rooted fuel hd
  | rooted fuel hd =>
    cases hp
    cases hx
    exact ⟨hdb.root, false, .descending fuel root _ hd, .inl ⟨rfl, rfl⟩⟩
  | descending fuel id tx hd =>
    cases fuel with
    | zero => cases hd
    | succ fuel =>
      obtain ⟨k', hk', hleaf, hchild⟩ := insertInto_eq fuel id key value fun _ => await (.appendCommit tx)
      rw [hk'] at hp
      cases hp
      obtain ⟨m, hm, heq⟩ := Option.map_eq_some_iff.1 hx
      cases heq
      obtain ⟨m₀, hm₀, ⟨hl, rfl, rfl⟩ | ⟨hl, c, hc, hd⟩⟩ := descend_succ hd
      · -- the leaf, and nobody else has written it
        rw [hdb.leaf rfl, Option.some.injEq] at hm
        subst hm
        refine ⟨hdb.root, false, ?_, .inl ⟨rfl, rfl⟩⟩
        rw [hleaf _ hl]
        exact .atLeaf fuel tx
      · rw [hdb.internal id m₀ hm₀ hl, Option.some.injEq] at hm
        subst hm
        refine ⟨hdb.root, false, ?_, .inl ⟨rfl, rfl⟩⟩
        rw [hchild _ c hl hc]
        exact .descending fuel c tx hd
  | atLeaf fuel tx =>
    obtain ⟨k', hk', hk⟩ := insertIntoLeaf_eq fuel leaf key value fun _ => await (.appendCommit tx)
    rw [hk'] at hp
    cases hp
    obtain ⟨m, hm, heq⟩ := Option.map_eq_some_iff.1 hx
    cases heq
    rw [hdb.leaf rfl, Option.some.injEq] at hm
    subst hm
    refine ⟨hdb.root, false, ?_, .inl ⟨rfl, rfl⟩⟩
    rw [hk n hroom]
    exact .read tx
  | read tx =>
    cases hp
    cases hx
    exact ⟨hdb.root, true, .wrote tx, .inr ⟨rfl, rfl, rfl⟩⟩
  | wrote tx =>
    cases hp
    cases hx
    exact ⟨hdb.root, true, .logged tx, .inl ⟨rfl, rfl⟩⟩
  | logged tx =>
    cases hp
    cases hx
    exact ⟨hdb.root, true, .finished, .inl ⟨rfl, rfl⟩⟩
  | finished => cases hp

/-- A `put` that has returned has written. -/
theorem Putting.of_ret {wrote : Bool} (h : Putting pages root key value leaf n wrote (.ret ())) : wrote = true := by
  generalize hp : Prog.ret () = p at h
  cases h with
  | called fuel hd => cases hp
  | rooted fuel hd => cases hp
  | descending fuel id tx hd =>
    cases fuel with
    | zero => cases hd
    | succ fuel =>
      obtain ⟨k, hk, -⟩ := insertInto_eq fuel id key value fun _ => await (.appendCommit tx)
      rw [hk] at hp
      cases hp
  | atLeaf fuel tx =>
    obtain ⟨k, hk, -⟩ := insertIntoLeaf_eq fuel leaf key value fun _ => await (.appendCommit tx)
    rw [hk] at hp
    cases hp
  | read tx => cases hp
  | wrote tx => rfl
  | logged tx => rfl
  | finished => rfl

end Step

/-! ## Two `put`s that do not meet -/

/-- A `put` and the leaf it goes to. -/
structure Target (db : Db K V) (fuel : Nat) (key : K) (leaf : PageId) (n : Node K V) : Prop where
  found : descend db.pages (route · key) fuel db.root = some (leaf, n)
  isLeaf : n.isLeaf = true
  len : n.values.length = n.keys.length
  room : n.keys.length + 1 < ORDER

theorem Target.page {db : Db K V} {fuel : Nat} {key : K} {leaf : PageId} {n : Node K V}
    (h : Target db fuel key leaf n) : db.pages leaf = some n := descend_page h.found

/-- The pages with the leaves of the `put`s that have written. -/
def raced (pages : PageId → Option (Node K V)) (leaf₁ : PageId) (m₁ : Node K V) (leaf₂ : PageId) (m₂ : Node K V)
    (wrote₁ wrote₂ : Bool) : PageId → Option (Node K V) :=
  let pages' := if wrote₁ then Function.update pages leaf₁ (some m₁) else pages
  if wrote₂ then Function.update pages' leaf₂ (some m₂) else pages'

section Apart
variable {pages : PageId → Option (Node K V)} {leaf₁ leaf₂ : PageId} {n₁ n₂ m₁ m₂ : Node K V}

omit [LinearOrder K] in
theorem raced_of_ne {id : PageId} (h₁ : id ≠ leaf₁) (h₂ : id ≠ leaf₂) (wrote₁ wrote₂ : Bool) :
    raced pages leaf₁ m₁ leaf₂ m₂ wrote₁ wrote₂ id = pages id := by
  cases wrote₁ <;> cases wrote₂ <;> simp [raced, h₁, h₂]

variable (hp₁ : pages leaf₁ = some n₁) (hp₂ : pages leaf₂ = some n₂)
  (happ : leaf₁ ≠ leaf₂ ∨ m₁ = n₁ ∧ m₂ = n₂)
include hp₁ hp₂ happ

omit [LinearOrder K] in
/-- The second `put` does not disturb the first. -/
theorem raced_left (wrote₂ : Bool) : raced pages leaf₁ m₁ leaf₂ m₂ false wrote₂ leaf₁ = some n₁ ∧
    Function.update (raced pages leaf₁ m₁ leaf₂ m₂ false wrote₂) leaf₁ (some m₁) =
      raced pages leaf₁ m₁ leaf₂ m₂ true wrote₂ := by
  rcases happ with hne | ⟨rfl, rfl⟩
  · cases wrote₂
    · exact ⟨hp₁, rfl⟩
    · exact ⟨by simpa [raced, hne] using hp₁, Function.update_comm hne.symm _ _ _⟩
  · -- nothing changes
    have hid₁ : Function.update pages leaf₁ (some m₁) = pages := by rw [← hp₁, Function.update_eq_self]
    have hid₂ : Function.update pages leaf₂ (some m₂) = pages := by rw [← hp₂, Function.update_eq_self]
    cases wrote₂ <;> simp [raced, hid₁, hid₂, hp₁]

omit [LinearOrder K] in
/-- Nor the first the second. -/
theorem raced_right (wrote₁ : Bool) : raced pages leaf₁ m₁ leaf₂ m₂ wrote₁ false leaf₂ = some n₂ ∧
    Function.update (raced pages leaf₁ m₁ leaf₂ m₂ wrote₁ false) leaf₂ (some m₂) =
      raced pages leaf₁ m₁ leaf₂ m₂ wrote₁ true := by
  refine ⟨?_, rfl⟩
  cases wrote₁
  · exact hp₂
  · rcases happ with hne | ⟨rfl, rfl⟩
    · simpa [raced, hne.symm] using hp₂
    · have hid₁ : Function.update pages leaf₁ (some m₁) = pages := by rw [← hp₁, Function.update_eq_self]
      simpa [raced, hid₁] using hp₂

end Apart

section Kept
variable {db : Db K V} {fuel : Nat} {key₁ key₂ : K} {value₁ value₂ : V} {leaf₁ leaf₂ : PageId} {n₁ n₂ : Node K V}

/-- **Run.** Whatever the order, both leaves end up written. -/
theorem pages_of_par (h₁ : Target db fuel key₁ leaf₁ n₁) (h₂ : Target db fuel key₂ leaf₂ n₂)
    (happ : leaf₁ ≠ leaf₂ ∨ leafInsert n₁ key₁ value₁ = n₁ ∧ leafInsert n₂ key₂ value₂ = n₂) {db' : Db K V}
    (hpar : Prog.Par exec (put fuel key₁ value₁) (put fuel key₂ value₂) db () () db') :
    db'.root = db.root ∧ db'.pages =
      raced db.pages leaf₁ (leafInsert n₁ key₁ value₁) leaf₂ (leafInsert n₂ key₂ value₂) true true := by
  have hinternal : ∀ w₁ w₂ id m, db.pages id = some m → m.isLeaf = false →
      raced db.pages leaf₁ (leafInsert n₁ key₁ value₁) leaf₂ (leafInsert n₂ key₂ value₂) w₁ w₂ id = some m := by
    intro w₁ w₂ id m hm hl
    have hne : ∀ {leaf n}, db.pages leaf = some n → n.isLeaf = true → id ≠ leaf := by
      rintro leaf n hp hleaf rfl
      rw [hm, Option.some.injEq] at hp
      rw [← hp, hl] at hleaf
      cases hleaf
    rw [raced_of_ne (hne h₁.page h₁.isLeaf) (hne h₂.page h₂.isLeaf), hm]
  obtain ⟨w₁, w₂, hw₁, hw₂, hroot, hpages⟩ := hpar.inv
    (I := fun p q mid => ∃ w₁ w₂, Putting db.pages db.root key₁ value₁ leaf₁ n₁ w₁ p ∧
      Putting db.pages db.root key₂ value₂ leaf₂ n₂ w₂ q ∧ mid.root = db.root ∧ mid.pages =
        raced db.pages leaf₁ (leafInsert n₁ key₁ value₁) leaf₂ (leafInsert n₂ key₂ value₂) w₁ w₂)
    (by
      rintro o k q mid r mid' ⟨w₁, w₂, hw₁, hw₂, hroot, hpages⟩ hx
      have hmid : Undisturbed db.pages db.root leaf₁ n₁ w₁ mid := by
        refine ⟨hroot, fun id m hm hl => by rw [hpages, hinternal w₁ w₂ id m hm hl], ?_⟩
        rintro rfl
        rw [hpages, (raced_left h₁.page h₂.page happ w₂).1]
      obtain ⟨hroot', w₁', hw₁', ⟨rfl, hsame⟩ | ⟨rfl, rfl, hwrote⟩⟩ := hw₁.step h₁.room hmid hx
      · exact ⟨_, w₂, hw₁', hw₂, hroot', by rw [hsame, hpages]⟩
      · exact ⟨true, w₂, hw₁', hw₂, hroot', by rw [hwrote, hpages, (raced_left h₁.page h₂.page happ w₂).2]⟩)
    (by
      rintro p o k mid r mid' ⟨w₁, w₂, hw₁, hw₂, hroot, hpages⟩ hx
      have hmid : Undisturbed db.pages db.root leaf₂ n₂ w₂ mid := by
        refine ⟨hroot, fun id m hm hl => by rw [hpages, hinternal w₁ w₂ id m hm hl], ?_⟩
        rintro rfl
        rw [hpages, (raced_right h₁.page h₂.page happ w₁).1]
      obtain ⟨hroot', w₂', hw₂', ⟨rfl, hsame⟩ | ⟨rfl, rfl, hwrote⟩⟩ := hw₂.step h₂.room hmid hx
      · exact ⟨w₁, _, hw₁, hw₂', hroot', by rw [hsame, hpages]⟩
      · exact ⟨w₁, true, hw₁, hw₂', hroot', by rw [hwrote, hpages, (raced_right h₁.page h₂.page happ w₁).2]⟩)
    ⟨false, false, .called fuel h₁.found, .called fuel h₂.found, rfl, rfl⟩
  rw [hw₁.of_ret, hw₂.of_ret] at hpages
  exact ⟨hroot, hpages⟩

/-- What is asked of two `put`s: both last, and no other key is touched. -/
def Kept (fuel : Nat) (db db' : Db K V) (key₁ : K) (value₁ : V) (key₂ : K) (value₂ : V) : Prop :=
  ((get fuel key₁).run exec db').1 = some (some value₁) ∧ ((get fuel key₂).run exec db').1 = some (some value₂) ∧
    ∀ key, key ≠ key₁ → key ≠ key₂ → ((get fuel key).run exec db').1 = ((get fuel key).run exec db).1

theorem leafInsert_isLeaf (n : Node K V) (key : K) (value : V) : (leafInsert n key value).isLeaf = n.isLeaf := by
  unfold leafInsert
  split <;> rfl

/-- A value put where it is already. -/
theorem leafInsert_eq_self {n : Node K V} {key : K} {value : V} (h : slotGet key n.keys n.values = some value) :
    leafInsert n key value = n := by
  rw [slotGet_eq] at h
  unfold leafInsert
  cases hi : slotOf n key with
  | none => simp [hi] at h
  | some i =>
    simp only [hi] at h
    obtain ⟨hlt, rfl⟩ := List.getElem?_eq_some_iff.1 h
    simp

theorem Target.get_eq {key : K} {leaf : PageId} {n : Node K V} (h : Target db fuel key leaf n) :
    ((get fuel key).run exec db).1 = some (slotGet key n.keys n.values) := by
  rw [run_get, h.found]
  rfl

/-- `get` after the leaf of a `put` has been written. -/
theorem Target.get_write {key : K} {leaf : PageId} {n : Node K V} (h : Target db fuel key leaf n) (value : V)
    {db' : Db K V} (hroot : db'.root = db.root)
    (hpages : db'.pages = Function.update db.pages leaf (some (leafInsert n key value))) (k : K) :
    ((get fuel k).run exec db').1 = if k = key then some (some value) else ((get fuel k).run exec db).1 := by
  have hl' : (leafInsert n key value).isLeaf = true := by rw [leafInsert_isLeaf, h.isLeaf]
  rw [run_get, run_get, hroot, hpages, descend_update _ h.page h.isLeaf hl']
  by_cases hk : k = key
  · subst hk
    simp [h.found, slotGet_leafInsert_of_len h.len]
  · cases hd : descend db.pages (route · k) fuel db.root with
    | none => simp [hk]
    | some p =>
      by_cases hp : p.1 = leaf
      · have hn : p.2 = n := by
          have := descend_page hd
          rw [hp, h.page, Option.some.injEq] at this
          exact this.symm
        simp [hk, hp, hn, slotGet_leafInsert_of_len h.len]
      · simp [hk, hp]

/-- Different leaves: both `put`s last. -/
theorem kept_of_apart (h₁ : Target db fuel key₁ leaf₁ n₁) (h₂ : Target db fuel key₂ leaf₂ n₂) (hkey : key₁ ≠ key₂)
    (hne : leaf₁ ≠ leaf₂) {db' : Db K V} (hroot : db'.root = db.root)
    (hpages : db'.pages =
      raced db.pages leaf₁ (leafInsert n₁ key₁ value₁) leaf₂ (leafInsert n₂ key₂ value₂) true true) :
    Kept fuel db db' key₁ value₁ key₂ value₂ := by
  -- the first leaf written, then the second
  let mid : Db K V := { db with pages := Function.update db.pages leaf₁ (some (leafInsert n₁ key₁ value₁)) }
  have hmid : Target mid fuel key₂ leaf₂ n₂ := by
    refine ⟨?_, h₂.isLeaf, h₂.len, h₂.room⟩
    have hl' : (leafInsert n₁ key₁ value₁).isLeaf = true := by rw [leafInsert_isLeaf, h₁.isLeaf]
    change descend (Function.update db.pages leaf₁ (some (leafInsert n₁ key₁ value₁))) _ fuel db.root = _
    rw [descend_update _ h₁.page h₁.isLeaf hl', h₂.found]
    simp [hne.symm]
  have hget : ∀ k, ((get fuel k).run exec db').1 = if k = key₂ then some (some value₂) else
      if k = key₁ then some (some value₁) else ((get fuel k).run exec db).1 := by
    intro k
    have hfirst : ((get fuel k).run exec mid).1 =
        if k = key₁ then some (some value₁) else ((get fuel k).run exec db).1 :=
      h₁.get_write value₁ (show mid.root = db.root from rfl) rfl k
    rw [hmid.get_write value₂ hroot hpages, hfirst]
  refine ⟨?_, ?_, fun k hk₁ hk₂ => ?_⟩
  · rw [hget, if_neg hkey, if_pos rfl]
  · rw [hget, if_pos rfl]
  · rw [hget, if_neg hk₂, if_neg hk₁]

end Kept

/-! ## Two `put`s that meet -/

section Lost
variable {db : Db K V} {fuel : Nat} {key key₁ key₂ : K} {value value₁ value₂ : V} {leaf : PageId} {n : Node K V}

/-- The way down and the read of the leaf. -/
theorem runs_insertInto (g : Unit → Task K V Unit) (hroom : n.keys.length + 1 < ORDER) (db : Db K V) :
    ∀ {fuel : Nat} {id : PageId}, descend db.pages (route · key) fuel id = some (leaf, n) →
      Prog.Runs exec (insertInto fuel id key value >>= g) db
        (.op (.putPage leaf (leafInsert n key value)) fun _ =>
          .op (.appendWrite leaf (leafInsert n key value)) g) db
  | 0, _, hd => by cases hd
  | fuel + 1, id, hd => by
    obtain ⟨k, hk, hleaf, hchild⟩ := insertInto_eq fuel id key value g
    rw [hk]
    obtain ⟨m, hm, hcases⟩ := descend_succ hd
    have hx : exec (.getPage id) db = some (m, db) := by simp [exec, hm]
    refine .step hx ?_
    rcases hcases with ⟨hl, rfl, rfl⟩ | ⟨hl, c, hc, hd⟩
    · obtain ⟨k', hk', hread⟩ := insertIntoLeaf_eq fuel id key value g
      rw [hleaf m hl, hk']
      refine .step hx ?_
      rw [hread m hroom]
      exact .refl _ _
    · rw [hchild m c hl hc]
      exact runs_insertInto g hroom db hd

/-- A `put` up to its write. -/
theorem Target.runs_put (h : Target db fuel key leaf n) (value : V) : Prog.Runs exec (put fuel key value) db
    (.op (.putPage leaf (leafInsert n key value)) fun _ =>
      .op (.appendWrite leaf (leafInsert n key value)) fun _ => .op (.appendCommit db.nextTx) .ret)
    { db with nextTx := db.nextTx + 1 } := by
  refine .step rfl (.step rfl ?_)
  exact runs_insertInto (fun _ => await (.appendCommit db.nextTx)) h.room { db with nextTx := db.nextTx + 1 } h.found

/-- **The lost update.** The first `put` reads the leaf, the second runs as a whole, the first writes. -/
theorem lost_of_same_leaf (h₁ : Target db fuel key₁ leaf n) (h₂ : Target db fuel key₂ leaf n) (value₁ value₂ : V) :
    ∃ db', Prog.Par exec (put fuel key₁ value₁) (put fuel key₂ value₂) db () () db' ∧ db'.root = db.root ∧
      db'.pages = Function.update db.pages leaf (some (leafInsert n key₁ value₁)) := by
  have h₂' : Target { db with nextTx := db.nextTx + 1 } fuel key₂ leaf n := ⟨h₂.found, h₂.isLeaf, h₂.len, h₂.room⟩
  have hpar := (h₁.runs_put value₁).par_left ((h₂'.runs_put value₂).par_right
    (.right rfl (.right rfl (.right rfl (.left rfl (.left rfl (.left rfl (.done () () _))))))))
  exact ⟨_, hpar, rfl, Function.update_idem ..⟩

end Lost

/-! ## All trees -/

/-- The leaf is below the page, at most `h` levels down. -/
def LeafBelow (pages : PageId → Option (Node K V)) : Nat → PageId → PageId → Node K V → Prop
  | 0, _, _, _ => False
  | h + 1, id, leaf, n => ∃ m, pages id = some m ∧
      if m.isLeaf then id = leaf ∧ m = n else ∃ c ∈ m.children, LeafBelow pages h c leaf n

/-- No leaf of the tree splits when two keys come in. -/
def RoomForTwo (db : Db K V) (h : Nat) : Prop :=
  ∀ leaf n, LeafBelow db.pages h db.root leaf n → n.keys.length + 2 < ORDER

theorem leafBelow_of_descend {pages : PageId → Option (Node K V)} {pick : Node K V → Nat} :
    ∀ {h fuel : Nat} {id leaf : PageId} {n : Node K V}, SearchTree pages h id → h ≤ fuel →
      descend pages pick fuel id = some (leaf, n) → LeafBelow pages h id leaf n
  | 0, _, _, _, _, ht, _, _ => ht.elim
  | h + 1, 0, _, _, _, _, hf, _ => by omega
  | h + 1, fuel + 1, id, leaf, n, ⟨m, hm, hnode⟩, hf, hd => by
    refine ⟨m, hm, ?_⟩
    obtain ⟨m', hm', hcases⟩ := descend_succ hd
    rw [hm, Option.some.injEq] at hm'
    subst hm'
    rcases hcases with ⟨hl, hleaf⟩ | ⟨hl, c, hc, hd⟩
    · rw [hl, if_pos rfl]
      exact hleaf
    · rw [hl, if_neg (by simp)] at hnode ⊢
      have hmem := List.mem_of_getElem? hc
      exact ⟨c, hmem, leafBelow_of_descend (hnode.2.1 c hmem) (Nat.le_of_succ_le_succ hf) hd⟩

section Tree
variable {db : Db K V} {h fuel : Nat} {key₁ key₂ : K}

/-- The leaf the key belongs to. -/
def leafOf (db : Db K V) (fuel : Nat) (key : K) : Option PageId :=
  (descend db.pages (route · key) fuel db.root).map Prod.fst

theorem target_of_tree (ht : SearchTree db.pages h db.root) (hf : h ≤ fuel) (hroom : RoomForTwo db h) (key : K) :
    ∃ leaf n, Target db fuel key leaf n ∧ leafOf db fuel key = some leaf := by
  obtain ⟨leaf, n, hd, hlands⟩ := ht.descend (route · key) (route_le · key) hf
  have hlen := hroom leaf n (leafBelow_of_descend ht hf hd)
  exact ⟨leaf, n, ⟨hd, hlands.isLeaf, hlands.len, by omega⟩, by simp [leafOf, hd]⟩

/-- **Two `put`s at a time.** In a tree in search order with room for two keys in its leaves, every interleaving
    keeps both values and all other keys exactly when the keys belong to different leaves, or the values are
    there already. -/
theorem puts_kept_iff (ht : SearchTree db.pages h db.root) (hf : h ≤ fuel) (hroom : RoomForTwo db h)
    (hkey : key₁ ≠ key₂) (value₁ value₂ : V) :
    (∀ db', Prog.Par exec (put fuel key₁ value₁) (put fuel key₂ value₂) db () () db' →
      Kept fuel db db' key₁ value₁ key₂ value₂) ↔
    leafOf db fuel key₁ ≠ leafOf db fuel key₂ ∨
      (((get fuel key₁).run exec db).1 = some (some value₁) ∧
        ((get fuel key₂).run exec db).1 = some (some value₂)) := by
  obtain ⟨leaf₁, n₁, h₁, hleaf₁⟩ := target_of_tree ht hf hroom key₁
  obtain ⟨leaf₂, n₂, h₂, hleaf₂⟩ := target_of_tree ht hf hroom key₂
  rw [hleaf₁, hleaf₂, h₁.get_eq, h₂.get_eq]
  simp only [ne_eq, Option.some.injEq]
  constructor
  · intro hall
    by_contra hcond
    rw [not_or, not_not] at hcond
    obtain ⟨rfl, hvalues⟩ := hcond
    obtain rfl : n₁ = n₂ := by
      have := h₁.page.symm.trans h₂.page
      simpa using this
    -- whoever writes last undoes the other
    obtain ⟨db₁, hpar₁, hroot₁, hpages₁⟩ := lost_of_same_leaf h₁ h₂ value₁ value₂
    obtain ⟨db₂, hpar₂, hroot₂, hpages₂⟩ := lost_of_same_leaf h₂ h₁ value₂ value₁
    have hlast₁ := (hall db₁ hpar₁).2.1
    have hlast₂ := (hall db₂ hpar₂.symm).1
    rw [h₁.get_write value₁ hroot₁ hpages₁, if_neg hkey.symm, h₂.get_eq, Option.some.injEq] at hlast₁
    rw [h₂.get_write value₂ hroot₂ hpages₂, if_neg hkey, h₁.get_eq, Option.some.injEq] at hlast₂
    exact hvalues ⟨hlast₂, hlast₁⟩
  · rintro hcond db' hpar
    by_cases hne : leaf₁ = leaf₂
    · -- both writes change nothing
      obtain ⟨hv₁, hv₂⟩ := hcond.resolve_left (not_not.2 hne)
      have hid₁ := leafInsert_eq_self hv₁
      have hid₂ := leafInsert_eq_self hv₂
      obtain ⟨hroot, hpages⟩ := pages_of_par h₁ h₂ (.inr ⟨hid₁, hid₂⟩) hpar
      have hpages' : db'.pages = db.pages := by
        rw [hpages, hid₁, hid₂]
        simp only [raced, if_true]
        rw [← h₁.page, Function.update_eq_self, ← h₂.page, Function.update_eq_self]
      have hget : ∀ k, ((get fuel k).run exec db').1 = ((get fuel k).run exec db).1 := by
        intro k
        rw [run_get, run_get, hroot, hpages']
      refine ⟨?_, ?_, fun k _ _ => hget k⟩
      · rw [hget, h₁.get_eq, hv₁]
      · rw [hget, h₂.get_eq, hv₂]
    · obtain ⟨hroot, hpages⟩ := pages_of_par h₁ h₂ (.inl hne) hpar
      exact kept_of_apart h₁ h₂ hkey hne hroot hpages

end Tree

theorem room_twoLeaves : RoomForTwo twoLeaves 2 := by
  rintro leaf n ⟨m, hm, hbelow⟩
  cases hm
  obtain ⟨c, hc, m, hm, hleaf⟩ := hbelow
  rcases List.mem_pair.1 hc with rfl | rfl <;> · cases hm; cases hleaf.2; decide

/-- A `put` into each leaf. -/
theorem puts_kept_iff_apart : ∃ db', Prog.Par exec (put 2 (keyOf 1) 10) (put 2 (keyOf 4) 40) twoLeaves () () db' ∧
    Kept 2 twoLeaves db' (keyOf 1) 10 (keyOf 4) 40 := by
  have hkept := (puts_kept_iff searchTree_twoLeaves (Nat.le_refl 2) room_twoLeaves (by decide) 10 40).2
    (.inl (show leafOf twoLeaves 2 (keyOf 1) ≠ leafOf twoLeaves 2 (keyOf 4) by decide))
  -- one after the other is one of the orders
  have hfirst : (put 2 (keyOf 1) 10).run exec twoLeaves =
      (some (), ((put 2 (keyOf 1) 10).run exec twoLeaves).2) := Prod.ext (by decide) rfl
  have hsecond : (put 2 (keyOf 4) 40).run exec ((put 2 (keyOf 1) 10).run exec twoLeaves).2 =
      (some (), ((put 2 (keyOf 4) 40).run exec ((put 2 (keyOf 1) 10).run exec twoLeaves).2).2) :=
    Prod.ext (by decide) rfl
  have hpar := (Prog.runs_of_run hfirst).par_left ((Prog.runs_of_run hsecond).par_right (.done () () _))
  exact ⟨_, hpar, hkept _ hpar⟩

/-- Two new keys for one leaf: one of them is acknowledged and gone. -/
theorem concurrent_put_lost : SearchTree twoLeaves.pages 2 twoLeaves.root ∧ RoomForTwo twoLeaves 2 ∧
    ∃ db', Prog.Par exec (put 2 (keyOf 5) 5) (put 2 (keyOf 6) 6) twoLeaves () () db' ∧
      ((get 2 (keyOf 6)).run exec db').1 = some none ∧ ¬ Kept 2 twoLeaves db' (keyOf 5) 5 (keyOf 6) 6 := by
  refine ⟨searchTree_twoLeaves, room_twoLeaves, ?_⟩
  have h₁ : Target twoLeaves 2 (keyOf 5) 2 ⟨true, [keyOf 3, keyOf 4], [3, 4], [], 0, 0⟩ :=
    ⟨by decide, rfl, rfl, by decide⟩
  have h₂ : Target twoLeaves 2 (keyOf 6) 2 ⟨true, [keyOf 3, keyOf 4], [3, 4], [], 0, 0⟩ :=
    ⟨by decide, rfl, rfl, by decide⟩
  obtain ⟨db', hpar, hroot, hpages⟩ := lost_of_same_leaf h₁ h₂ 5 6
  have hget : ((get 2 (keyOf 6)).run exec db').1 = some none := by
    rw [h₁.get_write 5 hroot hpages, if_neg (by decide), h₂.get_eq]
    decide
  refine ⟨db', hpar, hget, ?_⟩
  intro hkept
  rw [hkept.2.1] at hget
  cases hget

end RedisOps.BTree
