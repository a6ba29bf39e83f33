import RedisOps.BTree.Tree

/-!
# Inserting from an empty tree

A run of `put`s from `init`. No node ever gets a parent: the root has none, both halves of a split
inherit it, and the halves of a new root keep theirs at 0 (`btree.rs:318-341`). So a split is a
split of the root: it always makes a new root over the two halves, and what else the old root held is
cut off. The first split is right, since then the root is the leaf that splits. The second one loses
the other leaf (`btree_loses_keys`).

`puts_get` says what does hold: as long as no leaf below a root splits (`Roomy`), `get` answers the last
value put. The invariant `Rep` has two cases, a single leaf or a root over two leaves.
-/

namespace RedisOps.BTree

open Lib

variable {K V : Type} [LinearOrder K]

/-! ## Runs -/

def puts (fuel : Nat) : List (K × V) → Task K V Unit
  | [] => pure ()
  | (key, value) :: ops => do
    put fuel key value
    puts fuel ops

/-- `init` on an empty file, then the puts one after another. -/
def session (fuel : Nat) (ops : List (K × V)) : Task K V Unit := do
  init
  puts fuel ops

/-- The database after the puts. -/
def after (fuel : Nat) (ops : List (K × V)) : Db K V := ((session fuel ops).run exec Db.new).2

/-- The value of the last put of the key. -/
def lastPut (key : K) (ops : List (K × V)) : Option V :=
  ops.foldl (fun last op => if op.1 = key then some op.2 else last) none

/-- The put of `key` splits no leaf below a root: the root is a leaf, or the leaf the key belongs to has
    it already or has room for one more. -/
def Roomy (db : Db K V) (key : K) : Prop :=
  ∀ root c leaf, db.pages db.root = some root → root.isLeaf = false →
    root.children[route root key]? = some c → db.pages c = some leaf →
    key ∈ leaf.keys ∨ leaf.keys.length + 1 < ORDER

/-! ## Leaves -/

/-- A leaf as the puts leave it. -/
structure LeafOk (n : Node K V) : Prop where
  leaf : n.isLeaf = true
  sorted : n.keys.Pairwise (· < ·)
  len : n.values.length = n.keys.length
  parent : n.parentId = 0

/-- The record `insert_into_leaf` writes. -/
def leafInsert (n : Node K V) (key : K) (value : V) : Node K V :=
  match slotOf n key with
  | some i => { n with values := n.values.set i value }
  | none => { n with
      keys := n.keys.insertIdx (insertPos key n.keys) key
      values := n.values.insertIdx (insertPos key n.keys) value }

theorem leafInsert_ok {n : Node K V} (h : LeafOk n) (key : K) (value : V) :
    LeafOk (leafInsert n key value) := by
  unfold leafInsert
  cases hi : slotOf n key with
  | some i => exact ⟨h.leaf, h.sorted, by simpa using h.len, h.parent⟩
  | none =>
    have hp := insertPos_le key n.keys
    refine ⟨h.leaf, sorted_insertPos h.sorted (slotOf_eq_none.1 hi), ?_, h.parent⟩
    rw [List.length_insertIdx_of_le_length (by rw [h.len]; exact hp), List.length_insertIdx_of_le_length hp,
      h.len]

theorem slotGet_leafInsert_of_len {n : Node K V} (hlen : n.values.length = n.keys.length) (key : K) (value : V)
    (key' : K) : slotGet key' (leafInsert n key value).keys (leafInsert n key value).values =
      if key' = key then some value else slotGet key' n.keys n.values := by
  unfold leafInsert
  cases hi : slotOf n key with
  | some i => exact slotGet_set value key' hlen hi
  | none => exact slotGet_insertIdx value hlen (insertPos_le key n.keys) (slotOf_eq_none.1 hi) key'

theorem slotGet_leafInsert {n : Node K V} (h : LeafOk n) (key : K) (value : V) (key' : K) :
    slotGet key' (leafInsert n key value).keys (leafInsert n key value).values =
      if key' = key then some value else slotGet key' n.keys n.values :=
  slotGet_leafInsert_of_len h.len key value key'

theorem mem_leafInsert {n : Node K V} {key k : K} {value : V}
    (hk : k ∈ (leafInsert n key value).keys) : k = key ∨ k ∈ n.keys := by
  unfold leafInsert at hk
  cases hi : slotOf n key with
  | some i =>
    rw [hi] at hk
    exact .inr hk
  | none =>
    rw [hi] at hk
    exact (List.mem_insertIdx (insertPos_le key n.keys)).1 hk

/-- The halves of a leaf. -/
def leftHalf (n : Node K V) (right : PageId) : Node K V :=
  { n with
    keys := n.keys.take (n.keys.length / 2), values := n.values.take (n.keys.length / 2), nextLeaf := right }

def rightHalf (n : Node K V) : Node K V :=
  ⟨true, n.keys.drop (n.keys.length / 2), n.values.drop (n.keys.length / 2), [], n.parentId, n.nextLeaf⟩

theorem leftHalf_ok {n : Node K V} (h : LeafOk n) (right : PageId) : LeafOk (leftHalf n right) :=
  ⟨h.leaf, h.sorted.sublist (List.take_sublist _ _), by simp [leftHalf, h.len], h.parent⟩

theorem rightHalf_ok {n : Node K V} (h : LeafOk n) : LeafOk (rightHalf n) :=
  ⟨rfl, h.sorted.sublist (List.drop_sublist _ _), by simp [rightHalf, h.len], h.parent⟩

/-! ## What the programs do -/

section Run
variable {db : Db K V} {n : Node K V} {id : PageId}

/-- A page written and logged. -/
def Db.write (db : Db K V) (id : PageId) (n : Node K V) : Db K V :=
  { db with
    pages := Function.update db.pages id (some n), wal := db.wal ++ [.write db.nextTx id n] }

theorem run_findValue_leaf (fuel : Nat) (h : db.pages id = some n) (hl : n.isLeaf = true) (key : K) :
    (findValue (fuel + 1) id key).run exec db = (some (slotGet key n.keys n.values), db) := by
  rw [slotGet_eq]
  cases hi : slotOf n key <;> simp [findValue, Prog.run, exec, h, hl, hi]

theorem run_findValue_internal (fuel : Nat) (h : db.pages id = some n) (hl : n.isLeaf = false) {key : K}
    {c : PageId} (hc : n.children[route n key]? = some c) :
    (findValue (fuel + 1) id key).run exec db = (findValue fuel c key).run exec db := by
  simp [findValue, Prog.run, exec, h, hl, child, hc]

theorem run_insertInto_leaf (fuel : Nat) (h : db.pages id = some n) (hl : n.isLeaf = true) (key : K)
    (value : V) : (insertInto (fuel + 1) id key value).run exec db =
      (insertIntoLeaf fuel id key value).run exec db := by
  simp [insertInto, Prog.run, exec, h, hl]

theorem run_insertInto_internal (fuel : Nat) (h : db.pages id = some n) (hl : n.isLeaf = false) {key : K}
    (value : V) {c : PageId} (hc : n.children[route n key]? = some c) :
    (insertInto (fuel + 1) id key value).run exec db = (insertInto fuel c key value).run exec db := by
  simp [insertInto, Prog.run, exec, h, hl, child, hc]

/-- Room for the key: the leaf is written, nothing else changes. -/
theorem run_insertIntoLeaf_room (fuel : Nat) (h : db.pages id = some n) {key : K} (value : V)
    (hroom : key ∈ n.keys ∨ n.keys.length + 1 < ORDER) :
    (insertIntoLeaf fuel id key value).run exec db = (some (), db.write id (leafInsert n key value)) := by
  unfold leafInsert
  cases hi : slotOf n key with
  | some i => simp [insertIntoLeaf, Prog.run, exec, h, hi, Db.write]
  | none =>
    have hlen : ¬ ORDER ≤ (n.keys.insertIdx (insertPos key n.keys) key).length := by
      rw [List.length_insertIdx_of_le_length (insertPos_le key n.keys)]
      have := hroom.resolve_left (slotOf_eq_none.1 hi)
      omega
    simp [insertIntoLeaf, Prog.run, exec, h, hi, Db.write, hlen]

/-- The database after a node has been cut in two, before the key between the halves has a place. -/
def Db.halve (db : Db K V) (id : PageId) (left right : Node K V) : Db K V :=
  ({ db with nextPage := db.nextPage + 1 }.write db.nextPage right).write id left

/-- The database after a new root over two halves. -/
def Db.grow (db : Db K V) (middle : K) (id right : PageId) : Db K V :=
  { { db with nextPage := db.nextPage + 1 }.write db.nextPage ⟨false, [middle], [], [id, right], 0, 0⟩ with
    root := db.nextPage }

theorem run_splitLeaf_halve (fuel : Nat) {middle : K} (hp : db.pages id = some n)
    (hm : n.keys[n.keys.length / 2]? = some middle) :
    (splitLeaf fuel id).run exec db = (linkHalves (insertIntoInternal fuel) n id db.nextPage middle).run exec
      (db.halve id (leftHalf n db.nextPage) (rightHalf n)) := by
  simp [splitLeaf, Prog.run, exec, hp, hm, Db.halve, Db.write, leftHalf, rightHalf]

omit [LinearOrder K] in
theorem run_linkHalves_top (insertUp : PageId → K → PageId → PageId → Task K V Unit) (hn : n.parentId = 0)
    (id right : PageId) (middle : K) :
    (linkHalves insertUp n id right middle).run exec db = (some (), db.grow middle id right) := by
  simp [linkHalves, Prog.run, exec, hn, Db.grow, Db.write]

/-- The database after a parentless leaf has split. -/
def Db.split (db : Db K V) (id : PageId) (n : Node K V) (middle : K) : Db K V :=
  let right := db.nextPage
  let db₁ := { db with nextPage := right + 1 }.write right (rightHalf n)
  let db₂ := db₁.write id (leftHalf n right)
  let db₃ := { db₂ with nextPage := right + 2 }.write (right + 1) ⟨false, [middle], [], [id, right], 0, 0⟩
  { db₃ with root := right + 1 }

theorem run_splitLeaf (fuel : Nat) (h : db.pages id = some n) (hp : n.parentId = 0) {middle : K}
    (hm : n.keys[n.keys.length / 2]? = some middle) :
    (splitLeaf fuel id).run exec db = (some (), db.split id n middle) := by
  rw [run_splitLeaf_halve fuel h hm, run_linkHalves_top _ hp]
  rfl

/-- No room: the leaf is written and splits. -/
theorem run_insertIntoLeaf_full (fuel : Nat) (h : db.pages id = some n) (hn : LeafOk n) {key : K} (value : V)
    (hfull : key ∉ n.keys ∧ ORDER ≤ n.keys.length + 1) :
    ∃ middle, (leafInsert n key value).keys[(leafInsert n key value).keys.length / 2]? = some middle ∧
      (insertIntoLeaf fuel id key value).run exec db =
        (some (), (db.write id (leafInsert n key value)).split id (leafInsert n key value) middle) := by
  have hi := slotOf_eq_none.2 hfull.1
  have hlen : (leafInsert n key value).keys.length = n.keys.length + 1 := by
    simp [leafInsert, hi, List.length_insertIdx_of_le_length (insertPos_le key n.keys)]
  obtain ⟨middle, hm⟩ : ∃ middle, (leafInsert n key value).keys[(leafInsert n key value).keys.length / 2]? =
      some middle := ⟨_, List.getElem?_eq_getElem (by omega)⟩
  refine ⟨middle, hm, ?_⟩
  have hpage : (db.write id (leafInsert n key value)).pages id = some (leafInsert n key value) := by
    simp [Db.write]
  have hsplit := run_splitLeaf fuel hpage (leafInsert_ok hn key value).parent hm
  rw [← hsplit]
  have hord : ORDER ≤ (n.keys.insertIdx (insertPos key n.keys) key).length := by
    rw [List.length_insertIdx_of_le_length (insertPos_le key n.keys)]
    exact hfull.2
  simp [insertIntoLeaf, Prog.run, exec, h, hi, Db.write, leafInsert, hord]

end Run

/-! ## The invariant -/

/-- The database holds the map `m`: in one leaf, or in two leaves under a root. -/
inductive Rep (db : Db K V) (m : K → Option V) : Prop
  | leaf (n : Node K V) : db.pages db.root = some n → LeafOk n →
      db.root < db.nextPage → (∀ k, m k = slotGet k n.keys n.values) → Rep db m
  | two (sep : K) (a b : PageId) (na nb : Node K V) :
      db.pages db.root = some ⟨false, [sep], [], [a, b], 0, 0⟩ →
      db.pages a = some na → db.pages b = some nb → LeafOk na → LeafOk nb → a ≠ b →
      db.root < db.nextPage → a < db.nextPage → b < db.nextPage →
      (∀ k ∈ na.keys, k < sep) → (∀ k ∈ nb.keys, sep ≤ k) →
      (∀ k, m k = if k < sep then slotGet k na.keys na.values else slotGet k nb.keys nb.values) → Rep db m

theorem Rep.congr {db db' : Db K V} {m : K → Option V} (h : Rep db m) (hp : db'.pages = db.pages)
    (hr : db'.root = db.root) (hn : db'.nextPage = db.nextPage) : Rep db' m := by
  cases h with
  | leaf n h₁ h₂ h₃ h₄ => exact .leaf n (by rw [hp, hr, h₁]) h₂ (by rw [hr, hn]; exact h₃) h₄
  | two sep a b na nb h₁ h₂ h₃ h₄ h₅ h₆ h₇ h₈ h₉ h₁₀ h₁₁ h₁₂ =>
    exact .two sep a b na nb (by rw [hp, hr, h₁]) (by rw [hp, h₂]) (by rw [hp, h₃]) h₄ h₅ h₆
      (by rw [hr, hn]; exact h₇) (by rw [hn]; exact h₈) (by rw [hn]; exact h₉) h₁₀ h₁₁ h₁₂

/-- `get` reads the map. -/
theorem Rep.get {db : Db K V} {m : K → Option V} (h : Rep db m) (fuel : Nat) (key : K) :
    (get (fuel + 2) key).run exec db = (some (m key), db) := by
  have hget : (BTree.get (fuel + 2) key).run exec db = (findValue (fuel + 2) db.root key).run exec db := rfl
  rw [hget]
  cases h with
  | leaf n hroot hn _ hm => rw [run_findValue_leaf _ hroot hn.leaf, hm]
  | two sep a b na nb hroot ha hb hna hnb _ _ _ _ _ _ hm =>
    rw [hm]
    by_cases hlt : key < sep
    · rw [run_findValue_internal _ hroot rfl (c := a) (by simp [route, List.findIdx_cons, hlt]),
        run_findValue_leaf _ ha hna.leaf, if_pos hlt]
    · rw [run_findValue_internal _ hroot rfl (c := b) (by simp [route, List.findIdx_cons, hlt]),
        run_findValue_leaf _ hb hnb.leaf, if_neg hlt]

/-- The split of a root leaf: the two halves under a new root hold what the leaf held. -/
theorem rep_split {db : Db K V} {n : Node K V} {middle : K} (hn : LeafOk n) (hlt : db.root < db.nextPage)
    (hm : n.keys[n.keys.length / 2]? = some middle) :
    Rep (db.split db.root n middle) fun k => slotGet k n.keys n.values := by
  obtain ⟨hleft, hright⟩ := sorted_take_drop hn.sorted hm
  have h₁ : db.root ≠ db.nextPage := Nat.ne_of_lt hlt
  have h₂ : db.root ≠ db.nextPage + 1 := Nat.ne_of_lt (Nat.lt_succ_of_lt hlt)
  refine .two middle db.root db.nextPage (leftHalf n db.nextPage) (rightHalf n) ?_ ?_ ?_
    (leftHalf_ok hn _) (rightHalf_ok hn) h₁ ?_ ?_ ?_ hleft hright
    (slotGet_split hn.len hn.sorted hm)
  · simp [Db.split, Db.write]
  · simp [Db.split, Db.write, Function.update_of_ne h₂]
  · simp [Db.split, Db.write, Function.update_of_ne h₁.symm]
  · simp [Db.split, Db.write]
  · exact Nat.lt_add_right 2 hlt
  · simp [Db.split, Db.write]

/-- **Step.** An insertion with room below the root writes the map. -/
theorem Rep.insertInto {db : Db K V} {m : K → Option V} (h : Rep db m) (fuel : Nat) {key : K} (value : V)
    (hr : Roomy db key) :
    ∃ db', (insertInto (fuel + 2) db.root key value).run exec db = (some (), db') ∧
      Rep db' (Function.update m key (some value)) := by
  cases h with
  | leaf n hroot hn hlt hm =>
    have hm' : ∀ k, Function.update m key (some value) k =
        slotGet k (leafInsert n key value).keys (leafInsert n key value).values := fun k => by
      rw [slotGet_leafInsert hn, Function.update_apply, hm k]
    have hpage : (db.write db.root (leafInsert n key value)).pages db.root = some (leafInsert n key value) := by
      simp [Db.write]
    rw [run_insertInto_leaf _ hroot hn.leaf]
    by_cases hroom : key ∈ n.keys ∨ n.keys.length + 1 < ORDER
    · rw [run_insertIntoLeaf_room _ hroot value hroom]
      exact ⟨_, rfl, .leaf _ hpage (leafInsert_ok hn key value) hlt hm'⟩
    · obtain ⟨middle, hmid, hrun⟩ := run_insertIntoLeaf_full (fuel + 1) hroot hn value
        (by rw [not_or] at hroom; exact ⟨hroom.1, by omega⟩)
      rw [hrun]
      refine ⟨_, rfl, ?_⟩
      rw [show Function.update m key (some value) = _ from funext hm']
      exact rep_split (leafInsert_ok hn key value) hlt hmid
  | two sep a b na nb hroot ha hb hna hnb hab hlt hlta hltb hka hkb hm =>
    have hne : ∀ {c : PageId} {n : Node K V}, db.pages c = some n → n.isLeaf = true → db.root ≠ c := by
      rintro c n hc hl rfl
      rw [hroot] at hc
      cases hc
      cases hl
    by_cases hk : key < sep
    · -- the left leaf
      have hc : ([a, b] : List PageId)[route (⟨false, [sep], [], [a, b], 0, 0⟩ : Node K V) key]? = some a := by
        simp [route, List.findIdx_cons, hk]
      rw [run_insertInto_internal _ hroot rfl value hc, run_insertInto_leaf _ ha hna.leaf,
        run_insertIntoLeaf_room _ ha value (hr _ a na hroot rfl hc ha)]
      refine ⟨_, rfl, .two sep a b (leafInsert na key value) nb ?_ ?_ ?_ (leafInsert_ok hna key value) hnb
        hab hlt hlta hltb ?_ hkb fun k => ?_⟩
      · simp [Db.write, Function.update_of_ne (hne ha hna.leaf), hroot]
      · simp [Db.write]
      · simp [Db.write, Function.update_of_ne hab.symm, hb]
      · intro k hmem
        rcases mem_leafInsert hmem with rfl | hmem
        · exact hk
        · exact hka k hmem
      · rw [slotGet_leafInsert hna, Function.update_apply, hm k]
        by_cases hkk : k = key
        · simp [hkk, hk]
        · simp [hkk]
    · -- the right leaf
      have hc : ([a, b] : List PageId)[route (⟨false, [sep], [], [a, b], 0, 0⟩ : Node K V) key]? = some b := by
        simp [route, List.findIdx_cons, hk]
      rw [run_insertInto_internal _ hroot rfl value hc, run_insertInto_leaf _ hb hnb.leaf,
        run_insertIntoLeaf_room _ hb value (hr _ b nb hroot rfl hc hb)]
      refine ⟨_, rfl, .two sep a b na (leafInsert nb key value) ?_ ?_ ?_ hna (leafInsert_ok hnb key value)
        hab hlt hlta hltb hka ?_ fun k => ?_⟩
      · simp [Db.write, Function.update_of_ne (hne hb hnb.leaf), hroot]
      · simp [Db.write, Function.update_of_ne hab, ha]
      · simp [Db.write]
      · intro k hmem
        rcases mem_leafInsert hmem with rfl | hmem
        · exact not_lt.1 hk
        · exact hkb k hmem
      · rw [slotGet_leafInsert hnb, Function.update_apply, hm k]
        by_cases hkk : k = key
        · simp [hkk, hk]
        · simp [hkk]

/-- **Step.** -/
theorem Rep.put {db : Db K V} {m : K → Option V} (h : Rep db m) (fuel : Nat) {key : K} (value : V)
    (hr : Roomy db key) :
    ∃ db', (put (fuel + 2) key value).run exec db = (some (), db') ∧
      Rep db' (Function.update m key (some value)) := by
  have hdb : Rep { db with nextTx := db.nextTx + 1 } m := h.congr rfl rfl rfl
  obtain ⟨db', hrun, hrep⟩ := hdb.insertInto fuel value hr
  refine ⟨{ db' with wal := db'.wal ++ [.commit db.nextTx] }, ?_, hrep.congr rfl rfl rfl⟩
  have hput : (BTree.put (fuel + 2) key value).run exec db =
      (BTree.insertInto (fuel + 2) db.root key value >>= fun _ => await (.appendCommit db.nextTx)).run exec
        { db with nextTx := db.nextTx + 1 } := rfl
  rw [hput, Prog.run_bind, hrun]
  rfl

/-! ## Whole runs -/

theorem run_puts_snoc (fuel : Nat) (key : K) (value : V) : ∀ (ops : List (K × V)) {db db' : Db K V},
    (puts fuel ops).run exec db = (some (), db') →
      (puts fuel (ops ++ [(key, value)])).run exec db = (put fuel key value).run exec db'
  | [], db, db', h => by
    cases h
    change (put fuel key value >>= fun _ => pure ()).run exec db = _
    rw [Prog.run_bind]
    rcases (put fuel key value).run exec db with ⟨_ | _, _⟩ <;> rfl
  | (k, v) :: ops, db, db', h => by
    change (put fuel k v >>= fun _ => puts fuel (ops ++ [(key, value)])).run exec db = _
    change (put fuel k v >>= fun _ => puts fuel ops).run exec db = _ at h
    rw [Prog.run_bind] at h ⊢
    rcases hp : (put fuel k v).run exec db with ⟨_ | _, db₁⟩
    · rw [hp] at h
      cases h
    · rw [hp] at h
      exact run_puts_snoc fuel key value ops h

theorem run_session_snoc {fuel : Nat} {ops : List (K × V)} {db : Db K V}
    (h : (session fuel ops).run exec Db.new = (some (), db)) (key : K) (value : V) :
    (session fuel (ops ++ [(key, value)])).run exec Db.new = (put fuel key value).run exec db :=
  run_puts_snoc fuel key value ops h

theorem lastPut_snoc (ops : List (K × V)) (key : K) (value : V) :
    (fun k => lastPut k (ops ++ [(key, value)])) =
      Function.update (fun k => lastPut k ops) key (some value) := by
  funext k
  by_cases hk : k = key
  · simp [lastPut, hk]
  · simp [lastPut, hk, Ne.symm hk]

/-- **Run.** -/
theorem rep_session (fuel : Nat) (ops : List (K × V))
    (hroom : ∀ pre key value post, ops = pre ++ (key, value) :: post → Roomy (after (fuel + 2) pre) key) :
    ∃ db, (session (fuel + 2) ops).run exec Db.new = (some (), db) ∧ Rep db fun k => lastPut k ops := by
  induction ops using List.reverseRecOn with
  | nil =>
    refine ⟨_, rfl, .leaf ⟨true, [], [], [], 0, 0⟩ ?_ ⟨rfl, by simp, rfl, rfl⟩ ?_ fun k => rfl⟩
    · rfl
    · exact Nat.one_lt_two
  | append_singleton ops op ih =>
    obtain ⟨key, value⟩ := op
    obtain ⟨db, hrun, hrep⟩ := ih fun pre k v post h =>
      hroom pre k v (post ++ [(key, value)]) (by simp [h])
    have hr : Roomy db key := by
      have := hroom ops key value [] rfl
      rwa [after, hrun] at this
    obtain ⟨db', hput, hrep'⟩ := hrep.put fuel value hr
    refine ⟨db', by rw [run_session_snoc hrun, hput], ?_⟩
    rwa [lastPut_snoc]

def isRoomy (db : Db K V) (key : K) : Bool :=
  match db.pages db.root with
  | none => true
  | some root => root.isLeaf || ((root.children[route root key]?).bind db.pages).all fun leaf =>
      key ∈ leaf.keys || leaf.keys.length + 1 < ORDER

theorem roomy_of_isRoomy {db : Db K V} {key : K} (h : isRoomy db key = true) : Roomy db key := by
  intro root c leaf hroot hl hc hleaf
  simpa [isRoomy, hroot, hl, hc, hleaf] using h

/-- Every put of a run splits no leaf below a root. -/
def isRoomyRun (fuel : Nat) : List (K × V) → Db K V → Bool
  | [], _ => true
  | (key, value) :: ops, db =>
    isRoomy db key && match (put fuel key value).run exec db with
      | (some _, db') => isRoomyRun fuel ops db'
      | (none, _) => false

theorem roomy_of_isRoomyRun {fuel : Nat} {key : K} {value : V} {post : List (K × V)} : ∀ {pre : List (K × V)}
    {db : Db K V}, isRoomyRun fuel (pre ++ (key, value) :: post) db = true →
      Roomy ((puts fuel pre).run exec db).2 key
  | [], _, h => roomy_of_isRoomy (Bool.and_eq_true_iff.1 h).1
  | (k, v) :: pre, db, h => by
    have hrest := (Bool.and_eq_true_iff.1 h).2
    change Roomy ((put fuel k v >>= fun _ => puts fuel pre).run exec db).2 key
    rw [Prog.run_bind]
    rcases hput : (put fuel k v).run exec db with ⟨_ | _, db'⟩
    · simp [hput] at hrest
    · rw [hput] at hrest
      exact roomy_of_isRoomyRun hrest

/-- **No key is lost without a second split.** In every run of puts none of which splits a leaf below a
    root, `get` answers, after every put, the last value put for each key, and `None` for the others. -/
theorem puts_get {fuel : Nat} (hf : 2 ≤ fuel) (ops : List (K × V))
    (hroom : ∀ pre key value post, ops = pre ++ (key, value) :: post → Roomy (after fuel pre) key)
    (pre : List (K × V)) (hpre : pre <+: ops) (key : K) :
    ((session fuel pre >>= fun _ => get fuel key).run exec Db.new).1 = some (lastPut key pre) := by
  obtain ⟨fuel, rfl⟩ := Nat.exists_eq_add_of_le' hf
  obtain ⟨rest, rfl⟩ := hpre
  obtain ⟨db, hrun, hrep⟩ := rep_session fuel pre fun p k v post h =>
    hroom p k v (post ++ rest) (by simp [h])
  rw [Prog.run_bind, hrun]
  exact congrArg Prod.fst (hrep.get fuel key)

/-- The 64th key splits the root, the 65th goes to the right one of the two leaves. -/
theorem puts_get_two :
    let ops : List (Nat × Nat) := (List.range 65).map fun i => (i, i)
    ((session 2 ops >>= fun _ => get 2 0).run exec Db.new).1 = some (some 0) ∧
      ((after 2 ops).pages (after 2 ops).root).map Node.children = some [1, 2] := by
  intro ops
  have hrun : isRoomyRun 2 ops ((init : Task Nat Nat Unit).run exec Db.new).2 = true := by decide +kernel
  refine ⟨?_, by decide +kernel⟩
  rw [show some 0 = lastPut 0 ops by decide]
  refine puts_get (Nat.le_refl 2) _ ?_ _ List.prefix_rfl 0
  intro pre key value post hops
  rw [hops] at hrun
  exact roomy_of_isRoomyRun hrun

/-- `n` keys in their order, each with its number. -/
def ascending (n : Nat) : List (Key × Nat) := (List.range n).map fun i => (keyOf (UInt8.ofNat i), i)

/-- **The second split loses the other leaf.** The 64th key splits the root. The right leaf fills up again and
    splits with the 96th; the new root is over its halves only. -/
theorem btree_loses_keys :
    ((session 3 (ascending 96) >>= fun _ => get 3 (keyOf 0)).run exec Db.new).1 = some none ∧
      lastPut (keyOf 0) (ascending 96) = some 0 := by
  decide +kernel

end RedisOps.BTree
