import RedisOps.BTree.Page
import RedisOps.Lib.Prog

/-!
# Slots and the size of a page (`btree.rs:41-82, 174-462`)

A page has slots of `KEY_SIZE + VALUE_SIZE` bytes behind the header, and the children behind the
`ORDER`-th slot. `ORDER` slots of 96 bytes do not fit in 4096: the last key that does is 42, the last value
41, and the first child is at 6176.

The functions of the tree are given here on the bytes of the pages they touch, each up to the calls it ends
with; `node` is the header of `page`. `none` is an access outside of a page. `inRange_iff` says for each of
them when there is none: a leaf must stay at 42 slots, and no function that touches a child can succeed.
-/

namespace RedisOps.BTree

open Lib

namespace BTreeNode

def keyOffset (index : Nat) : Nat := HEADER_SIZE + index * (KEY_SIZE + VALUE_SIZE)

def valueOffset (index : Nat) : Nat := HEADER_SIZE + index * (KEY_SIZE + VALUE_SIZE) + KEY_SIZE

def childOffset (index : Nat) : Nat := HEADER_SIZE + ORDER * (KEY_SIZE + VALUE_SIZE) + index * 8

/-- The buffer of `size` bytes that `write_key` and `write_value` fill: cut off or padded with zeros. -/
def buffer (size : Nat) (bs : Bytes) : Bytes := bs.take size ++ List.replicate (size - bs.length) 0

def readKey (page : Page) (index : Nat) : Option Bytes := page.readSlice (keyOffset index) KEY_SIZE

def writeKey (page : Page) (index : Nat) (key : Bytes) : Option Page :=
  page.writeSlice (keyOffset index) (buffer KEY_SIZE key)

def readValue (page : Page) (index : Nat) : Option Bytes := page.readSlice (valueOffset index) VALUE_SIZE

def writeValue (page : Page) (index : Nat) (value : Bytes) : Option Page :=
  page.writeSlice (valueOffset index) (buffer VALUE_SIZE value)

def readChildId (page : Page) (index : Nat) : Option UInt64 := page.readU64 (childOffset index)

def writeChildId (page : Page) (index : Nat) (childId : UInt64) : Option Page :=
  page.writeU64 (childOffset index) childId

/-! ## Which slots fit -/

/-- The last slot whose value is inside the page; one more key is. -/
def LAST_SLOT : Nat := 41

theorem length_buffer (size : Nat) (bs : Bytes) : (buffer size bs).length = size := by
  simp only [buffer, List.length_append, List.length_take, List.length_replicate]
  omega

section Slots
variable {page : Page} {i : Nat}

@[simp] theorem isSome_readKey : (readKey page i).isSome ↔ i ≤ LAST_SLOT + 1 := by
  rw [readKey, Page.isSome_readSlice]
  simp only [keyOffset, HEADER_SIZE, KEY_SIZE, VALUE_SIZE, PAGE_SIZE, LAST_SLOT]
  omega

@[simp] theorem isSome_writeKey {key : Bytes} : (writeKey page i key).isSome ↔ i ≤ LAST_SLOT + 1 := by
  rw [writeKey, Page.isSome_writeSlice, length_buffer]
  simp only [keyOffset, HEADER_SIZE, KEY_SIZE, VALUE_SIZE, PAGE_SIZE, LAST_SLOT]
  omega

@[simp] theorem isSome_readValue : (readValue page i).isSome ↔ i ≤ LAST_SLOT := by
  rw [readValue, Page.isSome_readSlice]
  simp only [valueOffset, HEADER_SIZE, KEY_SIZE, VALUE_SIZE, PAGE_SIZE, LAST_SLOT]
  omega

@[simp] theorem isSome_writeValue {value : Bytes} : (writeValue page i value).isSome ↔ i ≤ LAST_SLOT := by
  rw [writeValue, Page.isSome_writeSlice, length_buffer]
  simp only [valueOffset, HEADER_SIZE, KEY_SIZE, VALUE_SIZE, PAGE_SIZE, LAST_SLOT]
  omega

/-- No child is inside the page. -/
@[simp] theorem readChildId_eq_none (page : Page) (i : Nat) : readChildId page i = none := by
  rw [← Option.not_isSome_iff_eq_none, readChildId, Page.readU64, Option.isSome_map, Page.isSome_readSlice]
  simp only [childOffset, HEADER_SIZE, ORDER, KEY_SIZE, VALUE_SIZE, PAGE_SIZE]
  omega

@[simp] theorem writeChildId_eq_none (page : Page) (i : Nat) (childId : UInt64) :
    writeChildId page i childId = none := by
  rw [← Option.not_isSome_iff_eq_none, writeChildId, Page.writeU64, Page.isSome_writeSlice, length_leBytes]
  simp only [childOffset, HEADER_SIZE, ORDER, KEY_SIZE, VALUE_SIZE, PAGE_SIZE]
  omega

end Slots

/-- The key in a slot. -/
def keyAt (page : Page) (i : Nat) : Bytes := slice page.data (keyOffset i) KEY_SIZE

theorem readKey_of_le {page : Page} {i : Nat} (hi : i ≤ LAST_SLOT + 1) :
    readKey page i = some (keyAt page i) := by
  have hsome : (readKey page i).isSome := isSome_readKey.2 hi
  exact page.readSlice_of_le (Page.isSome_readSlice.1 hsome)

theorem readKey_of_lt {page : Page} {i : Nat} (hi : LAST_SLOT + 1 < i) : readKey page i = none := by
  rw [← Option.not_isSome_iff_eq_none, isSome_readKey]
  omega

end BTreeNode

/-! ## The functions on bytes -/

namespace OnPage

open BTreeNode

/-- What `find_value` does after its page: answer, or go on at a child. -/
inductive Found where
  | answer (value : Option Bytes)
  | descend (childId : UInt64)

/-- The loop of `find_value` and `insert_into_leaf` over a leaf: `hit` at the first slot with the key, else
    `step` carries a value on. -/
def scanLeaf {ρ σ : Type} (page : Page) (key : Bytes) (hit : Nat → Option ρ) (step : Nat → Bytes → σ → σ) :
    List Nat → σ → Option (ρ ⊕ σ)
  | [], acc => some (.inr acc)
  | i :: is, acc => do
    let k ← readKey page i
    if k = key then .inl <$> hit i else scanLeaf page key hit step is (step i k acc)

/-- The loop of `find_value` over an internal node: the child at the first separator above the key. -/
def scanInternal (page : Page) (key : Bytes) : List Nat → Option (Option UInt64)
  | [] => some none
  | i :: is => do
    let k ← readKey page i
    if key < k then some <$> readChildId page i else scanInternal page key is

/-- `find_value` (`:179-197`) -/
def findValue (node : BTreeNode) (page : Page) (key : Bytes) : Option Found :=
  let n := node.numKeys.toNat
  if node.isLeaf then do
    match ← scanLeaf page key (readValue page) (fun _ _ acc => acc) (List.range n) () with
    | .inl value => pure (.answer (some value))
    | .inr () => pure (.answer none)
  else do
    match ← scanInternal page key (List.range n) with
    | some childId => pure (.descend childId)
    | none => .descend <$> readChildId page n

/-- One round of the shift in `insert_into_leaf` (`:252-255`) -/
def shiftSlot (page : Page) (i : Nat) : Option Page := do
  let k ← readKey page i
  let v ← readValue page i
  let page ← writeKey page (i + 1) k
  writeValue page (i + 1) v

/-- `for i in (pos..n).rev()` -/
def downFrom (n pos : Nat) : List Nat := (List.range' pos (n - pos)).reverse

/-- `insert_into_leaf` (`:236-269`): the page it puts, and whether `split_leaf` follows. -/
def insertIntoLeaf (node : BTreeNode) (page : Page) (key value : Bytes) : Option (Page × Bool) := do
  let n := node.numKeys.toNat
  match ← scanLeaf page key (writeValue page · value) (fun i k pos => if key > k then i + 1 else pos)
      (List.range n) 0 with
  | .inl page => pure (page, false)
  | .inr pos => do
    let page ← (downFrom n pos).foldlM shiftSlot page
    let page ← writeKey page pos key
    let page ← writeValue page pos value
    let newNode := { node with numKeys := node.numKeys + 1 }
    let page ← newNode.saveToPage page
    pure (page, decide (newNode.numKeys.toNat ≥ ORDER))

/-- What both splits end with: a new root, or a separator for the parent. -/
inductive Linked where
  | newRoot (page : Page)
  | parent (parentId : UInt64) (middle : Bytes)

/-- The end of both splits (`:316-341`, `:434-459`) -/
def linkHalves (node : BTreeNode) (middle : Bytes) (rightId newRootId : UInt64) : Option Linked :=
  if node.parentId = 0 then do
    let root := Page.new newRootId
    let root ← writeKey root 0 middle
    let root ← writeChildId root 0 node.pageId
    let root ← writeChildId root 1 rightId
    let root ← saveToPage ⟨newRootId, false, 1, 0, 0⟩ root
    pure (.newRoot root)
  else pure (.parent node.parentId middle)

/-- One round of the copy in `split_leaf` (`:293-297`), the state being the right page and its `num_keys`. -/
def copySlot (page : Page) (right : Page × UInt32) (i : Nat) : Option (Page × UInt32) := do
  let k ← readKey page i
  let v ← readValue page i
  let rightPage ← writeKey right.1 right.2.toNat k
  let rightPage ← writeValue rightPage right.2.toNat v
  pure (rightPage, right.2 + 1)

/-- `split_leaf`: the right page, the left page and how they are linked. -/
def splitLeaf (node : BTreeNode) (page : Page) (rightId newRootId : UInt64) : Option (Page × Page × Linked) := do
  let n := node.numKeys.toNat
  let mid := n / 2
  let (rightPage, rightKeys) ← (List.range' mid (n - mid)).foldlM (copySlot page) (Page.new rightId, 0)
  let rightPage ← saveToPage ⟨rightId, true, rightKeys, node.parentId, node.nextLeaf⟩ rightPage
  let leftPage ← saveToPage { node with numKeys := UInt32.ofNat mid, nextLeaf := rightId } page
  let middle ← readKey page mid
  let linked ← linkHalves node middle rightId newRootId
  pure (rightPage, leftPage, linked)

/-- One round of the shift in `insert_into_internal` (`:367-370`) -/
def shiftChild (page : Page) (i : Nat) : Option Page := do
  let k ← readKey page i
  let child ← readChildId page (i + 1)
  let page ← writeKey page (i + 1) k
  writeChildId page (i + 2) child

/-- `insert_into_internal`: the page it puts, and whether `split_internal` follows. -/
def insertIntoInternal (node : BTreeNode) (page : Page) (key : Bytes) (leftChild rightChild : UInt64) :
    Option (Page × Bool) := do
  let n := node.numKeys.toNat
  let pos ← (List.range n).foldlM (fun pos i => do
    let k ← readKey page i
    pure (if key > k then i + 1 else pos)) 0
  let page ← (downFrom n pos).foldlM shiftChild page
  let page ← writeKey page pos key
  let page ← writeChildId page pos leftChild
  let page ← writeChildId page (pos + 1) rightChild
  let newNode := { node with numKeys := node.numKeys + 1 }
  let page ← newNode.saveToPage page
  pure (page, decide (newNode.numKeys.toNat ≥ ORDER))

/-- One round of the copy in `split_internal` (`:409-413`) -/
def copyChild (page : Page) (right : Page × UInt32) (i : Nat) : Option (Page × UInt32) := do
  let k ← readKey page i
  let child ← readChildId page i
  let rightPage ← writeKey right.1 right.2.toNat k
  let rightPage ← writeChildId rightPage right.2.toNat child
  pure (rightPage, right.2 + 1)

def splitInternal (node : BTreeNode) (page : Page) (rightId newRootId : UInt64) :
    Option (Page × Page × Linked) := do
  let n := node.numKeys.toNat
  let mid := n / 2
  let (rightPage, rightKeys) ← (List.range' (mid + 1) (n - (mid + 1))).foldlM (copyChild page)
    (Page.new rightId, 0)
  let lastChild ← readChildId page n
  let rightPage ← writeChildId rightPage rightKeys.toNat lastChild
  let rightPage ← saveToPage ⟨rightId, false, rightKeys, node.parentId, 0⟩ rightPage
  let leftPage ← saveToPage { node with numKeys := UInt32.ofNat mid } page
  let middle ← readKey page mid
  let linked ← linkHalves node middle rightId newRootId
  pure (rightPage, leftPage, linked)

/-! ## Scanning a leaf -/

section Scan
variable {ρ σ : Type} {page : Page} {key : Bytes} {hit : Nat → Option ρ} {step : Nat → Bytes → σ → σ}

theorem scanLeaf_cons_of_le {i : Nat} (hi : i ≤ LAST_SLOT + 1) (is : List Nat) (acc : σ) :
    scanLeaf page key hit step (i :: is) acc =
      if keyAt page i = key then .inl <$> hit i
      else scanLeaf page key hit step is (step i (keyAt page i) acc) := by
  rw [scanLeaf, readKey_of_le hi]
  rfl

theorem scanLeaf_cons_of_lt {i : Nat} (hi : LAST_SLOT + 1 < i) (is : List Nat) (acc : σ) :
    scanLeaf page key hit step (i :: is) acc = none := by
  rw [scanLeaf, readKey_of_lt hi]
  rfl

/-- The scan comes to the key: it is in a slot whose value is inside the page. -/
theorem scanLeaf_hit_iff (hhit : ∀ i, (hit i).isSome ↔ i ≤ LAST_SLOT) : ∀ (len s : Nat) (acc : σ),
    (∃ r, scanLeaf page key hit step (List.range' s len) acc = some (.inl r)) ↔
      ∃ j, s ≤ j ∧ j < s + len ∧ j ≤ LAST_SLOT ∧ keyAt page j = key
  | 0, s, acc => by
    simp only [List.range'_zero, scanLeaf]
    exact iff_of_false (by simp) (by rintro ⟨j, h₁, h₂, -⟩; omega)
  | len + 1, s, acc => by
    rw [List.range'_succ]
    rcases Nat.lt_or_ge (LAST_SLOT + 1) s with hs | hs
    · rw [scanLeaf_cons_of_lt hs]
      exact iff_of_false (by simp) (by rintro ⟨j, h₁, -, h₂, -⟩; omega)
    · rw [scanLeaf_cons_of_le hs]
      by_cases hk : keyAt page s = key
      · rw [if_pos hk]
        constructor
        · rintro ⟨r, hr⟩
          have hsome : (hit s).isSome := by
            cases hh : hit s with
            | none => simp [hh] at hr
            | some r => rfl
          exact ⟨s, Nat.le_refl s, by omega, (hhit s).1 hsome, hk⟩
        · rintro ⟨j, hj, -, hle, -⟩
          obtain ⟨r, hr⟩ := Option.isSome_iff_exists.1 ((hhit s).2 (Nat.le_trans hj hle))
          exact ⟨r, by rw [hr]; rfl⟩
      · rw [if_neg hk, scanLeaf_hit_iff hhit len (s + 1)]
        constructor
        · rintro ⟨j, h₁, h₂, h₃⟩
          exact ⟨j, by omega, by omega, h₃⟩
        · rintro ⟨j, h₁, h₂, h₃, hj⟩
          have hne : j ≠ s := by
            rintro rfl
            exact hk hj
          exact ⟨j, by omega, by omega, h₃, hj⟩

/-- The scan comes to its end: the key is nowhere and every slot can be read. -/
theorem scanLeaf_end_iff : ∀ (len s : Nat) (acc : σ), s ≤ LAST_SLOT + 2 →
    ((∃ acc', scanLeaf page key hit step (List.range' s len) acc = some (.inr acc')) ↔
      s + len ≤ LAST_SLOT + 2 ∧ ∀ j, s ≤ j → j < s + len → keyAt page j ≠ key)
  | 0, s, acc, hs => by
    simp only [List.range'_zero, scanLeaf]
    exact iff_of_true ⟨acc, rfl⟩ ⟨hs, fun j h₁ h₂ => by omega⟩
  | len + 1, s, acc, hs => by
    rw [List.range'_succ]
    rcases Nat.lt_or_ge (LAST_SLOT + 1) s with hs' | hs'
    · rw [scanLeaf_cons_of_lt hs']
      exact iff_of_false (by simp) (by rintro ⟨h, -⟩; omega)
    · rw [scanLeaf_cons_of_le hs']
      by_cases hk : keyAt page s = key
      · rw [if_pos hk]
        refine iff_of_false ?_ fun h => h.2 s (Nat.le_refl s) (by omega) hk
        rintro ⟨acc', h⟩
        cases hh : hit s <;> simp [hh] at h
      · rw [if_neg hk, scanLeaf_end_iff len (s + 1) _ (by omega)]
        constructor
        · rintro ⟨h₁, h₂⟩
          refine ⟨by omega, ?_⟩
          intro j hj hlt
          rcases Nat.eq_or_lt_of_le hj with rfl | hj
          · exact hk
          · exact h₂ j hj (by omega)
        · rintro ⟨h₁, h₂⟩
          exact ⟨by omega, fun j hj hlt => h₂ j (by omega) (by omega)⟩

/-- What every step keeps holds at the end of the scan. -/
theorem scanLeaf_inv {P : σ → Prop} : ∀ {is : List Nat} {acc acc' : σ},
    (∀ i ∈ is, ∀ k acc, P acc → P (step i k acc)) → P acc →
      scanLeaf page key hit step is acc = some (.inr acc') → P acc'
  | [], acc, acc', _, h, heq => by
    cases heq
    exact h
  | i :: is, acc, acc', hstep, h, heq => by
    rcases Nat.lt_or_ge (LAST_SLOT + 1) i with hi | hi
    · rw [scanLeaf_cons_of_lt hi] at heq
      cases heq
    · rw [scanLeaf_cons_of_le hi] at heq
      split at heq
      · cases hh : hit i <;> simp [hh] at heq
      · exact scanLeaf_inv (fun i hi => hstep i (List.mem_cons_of_mem _ hi))
          (hstep i List.mem_cons_self _ _ h) heq

/-- One of the first `n` slots whose value is inside the page has the key. -/
def HasKey (n : Nat) (page : Page) (key : Bytes) : Prop := ∃ i, i < n ∧ i ≤ LAST_SLOT ∧ keyAt page i = key

variable (page key step)

theorem scanLeaf_hit (hhit : ∀ i, (hit i).isSome ↔ i ≤ LAST_SLOT) (n : Nat) (acc : σ) :
    (∃ r, scanLeaf page key hit step (List.range n) acc = some (.inl r)) ↔ HasKey n page key := by
  rw [List.range_eq_range', scanLeaf_hit_iff hhit]
  simp [HasKey]

theorem scanLeaf_end (hit : Nat → Option ρ) (n : Nat) (acc : σ) :
    (∃ acc', scanLeaf page key hit step (List.range n) acc = some (.inr acc')) ↔
      n ≤ LAST_SLOT + 2 ∧ ∀ i < n, keyAt page i ≠ key := by
  rw [List.range_eq_range', scanLeaf_end_iff n 0 acc (Nat.zero_le _)]
  simp

theorem isSome_scanLeaf (hhit : ∀ i, (hit i).isSome ↔ i ≤ LAST_SLOT) (n : Nat) (acc : σ) :
    (scanLeaf page key hit step (List.range n) acc).isSome ↔
      HasKey n page key ∨ n ≤ LAST_SLOT + 2 ∧ ∀ i < n, keyAt page i ≠ key := by
  rw [← scanLeaf_hit page key step hhit n acc, ← scanLeaf_end page key step hit n acc]
  rcases scanLeaf page key hit step (List.range n) acc with _ | r | acc' <;> simp

end Scan

/-! ## When each function stays in its pages -/

variable {node : BTreeNode} {page : Page}

theorem isSome_saveToPage (node : BTreeNode) (page : Page) : (node.saveToPage page).isSome := by
  obtain ⟨page', h, -⟩ := node.saveToPage_spec page
  rw [h]
  rfl

theorem scanInternal_ne_child (page : Page) (key : Bytes) (childId : UInt64) :
    ∀ is, scanInternal page key is ≠ some (some childId)
  | [] => by simp [scanInternal]
  | i :: is => by
    have ih := scanInternal_ne_child page key childId is
    rw [scanInternal]
    cases readKey page i with
    | none => simp
    | some k => by_cases hk : key < k <;> simp [hk, ih]

theorem isSome_findValue (key : Bytes) : (findValue node page key).isSome ↔
    node.isLeaf = true ∧ (HasKey node.numKeys.toNat page key ∨
      node.numKeys.toNat ≤ LAST_SLOT + 2 ∧ ∀ i < node.numKeys.toNat, keyAt page i ≠ key) := by
  cases hl : node.isLeaf with
  | true =>
    have hscan := isSome_scanLeaf page key (fun _ _ (acc : Unit) => acc) (fun i => @isSome_readValue page i)
      node.numKeys.toNat ()
    rw [← hscan, findValue, hl, if_pos rfl]
    rcases scanLeaf page key (readValue page) _ _ _ with _ | _ | _ <;> simp
  | false =>
    rw [findValue, hl, if_neg (by simp)]
    refine iff_of_false ?_ (by simp)
    have hchild := scanInternal_ne_child page key
    rcases hs : scanInternal page key (List.range node.numKeys.toNat) with _ | _ | childId
    · simp
    · simp
    · exact absurd hs (hchild childId _)

theorem isSome_shiftSlot (page : Page) (i : Nat) : (shiftSlot page i).isSome ↔ i + 1 ≤ LAST_SLOT := by
  unfold shiftSlot
  rw [isSome_bind (readKey page i) (P := i ≤ LAST_SLOT ∧ i + 1 ≤ LAST_SLOT + 1 ∧ i + 1 ≤ LAST_SLOT)]
  · rw [isSome_readKey]
    omega
  · intro k
    rw [isSome_bind (readValue page i) (P := i + 1 ≤ LAST_SLOT + 1 ∧ i + 1 ≤ LAST_SLOT), isSome_readValue]
    intro v
    rw [isSome_bind _ fun page => isSome_writeValue, isSome_writeKey]

theorem mem_downFrom {n pos i : Nat} : i ∈ downFrom n pos ↔ pos ≤ i ∧ i < n := by
  rw [downFrom, List.mem_reverse, List.mem_range'_1]
  omega

/-- The part of `insert_into_leaf` behind the scan. -/
theorem isSome_insertAt {n pos : Nat} (hpos : pos ≤ n) (newNode : BTreeNode) (key value : Bytes) :
    (do let page ← (downFrom n pos).foldlM shiftSlot page
        let page ← writeKey page pos key
        let page ← writeValue page pos value
        let page ← newNode.saveToPage page
        pure (page, decide (newNode.numKeys.toNat ≥ ORDER)) : Option (Page × Bool)).isSome ↔
      n ≤ LAST_SLOT := by
  rw [isSome_bind _ (P := pos ≤ LAST_SLOT), isSome_foldlM isSome_shiftSlot]
  · constructor
    · rintro ⟨hshift, hlast⟩
      rcases Nat.eq_or_lt_of_le hpos with rfl | hlt
      · exact hlast
      · have := hshift (n - 1) (mem_downFrom.2 ⟨by omega, by omega⟩)
        omega
    · intro hn
      refine ⟨fun i hi => ?_, by omega⟩
      have := mem_downFrom.1 hi
      omega
  · intro page
    rw [isSome_bind (writeKey page pos key) (P := pos ≤ LAST_SLOT), isSome_writeKey]
    · omega
    · intro page
      rw [isSome_bind (writeValue page pos value) (P := True), isSome_writeValue, and_true]
      intro page
      rw [isSome_bind (newNode.saveToPage page) (P := True)]
      · simp [isSome_saveToPage]
      · simp

theorem isSome_insertIntoLeaf (key value : Bytes) : (insertIntoLeaf node page key value).isSome ↔
    node.numKeys.toNat ≤ LAST_SLOT ∨ HasKey node.numKeys.toNat page key := by
  have hhit := scanLeaf_hit page key (fun i k pos => if key > k then i + 1 else pos)
    (fun i => @isSome_writeValue page i value) node.numKeys.toNat 0
  have hend := scanLeaf_end page key (fun i k pos => if key > k then i + 1 else pos) (writeValue page · value)
    node.numKeys.toNat 0
  unfold insertIntoLeaf
  dsimp only
  rcases hs : scanLeaf page key (writeValue page · value) (fun i k pos => if key > k then i + 1 else pos)
    (List.range node.numKeys.toNat) 0 with _ | page' | pos
  · -- the scan failed: the key is in no whole slot, and there are too many
    rw [hs] at hhit hend
    have hno : ¬ HasKey node.numKeys.toNat page key := by rw [← hhit]; simp
    refine iff_of_false (by simp) ?_
    rintro (hn | hk)
    · have hmany : ¬ (node.numKeys.toNat ≤ LAST_SLOT + 2 ∧ ∀ i < node.numKeys.toNat, keyAt page i ≠ key) := by
        rw [← hend]; simp
      exact hmany ⟨by omega, fun i hi he => hno ⟨i, hi, by omega, he⟩⟩
    · exact hno hk
  · rw [hs] at hhit
    exact iff_of_true (by simp) (.inr (hhit.1 ⟨page', rfl⟩))
  · have hno : ¬ HasKey node.numKeys.toNat page key := by rw [← hhit, hs]; simp
    have hpos : pos ≤ node.numKeys.toNat := by
      refine scanLeaf_inv (P := (· ≤ node.numKeys.toNat)) ?_ (Nat.zero_le _) hs
      intro i hi k acc hacc
      have := List.mem_range.1 hi
      split <;> omega
    rw [or_iff_left hno]
    exact isSome_insertAt hpos { node with numKeys := node.numKeys + 1 } key value

/-- A new root cannot be written: its children are outside of the page. -/
theorem isSome_linkHalves (node : BTreeNode) (middle : Bytes) (rightId newRootId : UInt64) :
    (linkHalves node middle rightId newRootId).isSome ↔ node.parentId ≠ 0 := by
  unfold linkHalves
  split
  · rename_i hp
    refine iff_of_false ?_ (not_not.2 hp)
    rw [bind_eq_none (writeKey (Page.new newRootId) 0 middle) fun page => by simp]
    simp
  · rename_i hp
    exact iff_of_true rfl hp

theorem copySlot_eq_none {page : Page} {i : Nat} (hi : LAST_SLOT < i) (right : Page × UInt32) :
    copySlot page right i = none := by
  have hv : readValue page i = none := by
    rw [← Option.not_isSome_iff_eq_none, isSome_readValue]
    omega
  exact bind_eq_none _ fun k => by rw [hv]; rfl

theorem isSome_copySlots (page : Page) : ∀ (len s : Nat) (right : Page × UInt32),
    s + len ≤ LAST_SLOT + 1 → right.2.toNat + len ≤ LAST_SLOT + 1 →
      ((List.range' s len).foldlM (copySlot page) right).isSome
  | 0, _, _, _, _ => rfl
  | len + 1, s, right, hs, hr => by
    obtain ⟨k, hk⟩ := Option.isSome_iff_exists.1 ((@isSome_readKey page s).2 (by omega))
    obtain ⟨v, hv⟩ := Option.isSome_iff_exists.1 ((@isSome_readValue page s).2 (by omega))
    obtain ⟨p₁, h₁⟩ := Option.isSome_iff_exists.1 ((@isSome_writeKey right.1 right.2.toNat k).2 (by omega))
    obtain ⟨p₂, h₂⟩ := Option.isSome_iff_exists.1 ((@isSome_writeValue p₁ right.2.toNat v).2 (by omega))
    have hcopy : copySlot page right s = some (p₂, right.2 + 1) := by
      simp [copySlot, hk, hv, h₁, h₂]
    have hcount : (right.2 + 1).toNat = right.2.toNat + 1 := by
      rw [UInt32.toNat_add, UInt32.toNat_one]
      unfold LAST_SLOT at hr
      omega
    rw [List.range'_succ, List.foldlM_cons, hcopy]
    exact isSome_copySlots page len (s + 1) (p₂, right.2 + 1) (by omega) (by rw [hcount]; omega)

theorem isSome_splitLeaf (rightId newRootId : UInt64) : (splitLeaf node page rightId newRootId).isSome ↔
    node.numKeys.toNat ≤ LAST_SLOT + 1 ∧ node.parentId ≠ 0 := by
  unfold splitLeaf
  dsimp only
  by_cases hn : node.numKeys.toNat ≤ LAST_SLOT + 1
  · obtain ⟨⟨rightPage, rightKeys⟩, hcopy⟩ := Option.isSome_iff_exists.1 (isSome_copySlots page
      (node.numKeys.toNat - node.numKeys.toNat / 2) (node.numKeys.toNat / 2) (Page.new rightId, 0)
      (by omega) (by simp; omega))
    obtain ⟨rightPage', hright⟩ := Option.isSome_iff_exists.1
      (isSome_saveToPage ⟨rightId, true, rightKeys, node.parentId, node.nextLeaf⟩ rightPage)
    obtain ⟨leftPage, hleft⟩ := Option.isSome_iff_exists.1 (isSome_saveToPage
      { node with numKeys := UInt32.ofNat (node.numKeys.toNat / 2), nextLeaf := rightId } page)
    obtain ⟨middle, hmiddle⟩ := Option.isSome_iff_exists.1
      ((@isSome_readKey page (node.numKeys.toNat / 2)).2 (by omega))
    simp only [hcopy, hright, hleft, hmiddle, Option.bind_eq_bind, Option.bind_some]
    rw [← Option.bind_eq_bind, isSome_bind _ (P := True) (by simp), isSome_linkHalves]
    simp [hn]
  · refine iff_of_false ?_ fun h => hn h.1
    rw [foldlM_eq_none (a := node.numKeys.toNat - 1) (copySlot_eq_none (by omega)) _
      (List.mem_range'_1.2 ⟨by omega, by omega⟩)]
    simp

theorem insertIntoInternal_eq_none (node : BTreeNode) (page : Page) (key : Bytes) (leftChild rightChild : UInt64) :
    insertIntoInternal node page key leftChild rightChild = none := by
  refine bind_eq_none _ fun pos => bind_eq_none _ fun page => bind_eq_none _ fun page => ?_
  rw [writeChildId_eq_none]
  rfl

theorem splitInternal_eq_none (node : BTreeNode) (page : Page) (rightId newRootId : UInt64) :
    splitInternal node page rightId newRootId = none := by
  apply bind_eq_none _
  intro right
  simp

/-! ## All of them -/

/-- The functions that go through `key_offset`, `value_offset` and `child_offset`, with the arguments they
    take besides the page. -/
inductive Call where
  | findValue (key : Bytes)
  | insertIntoLeaf (key value : Bytes)
  | splitLeaf (rightId newRootId : UInt64)
  | insertIntoInternal (key : Bytes) (leftChild rightChild : UInt64)
  | splitInternal (rightId newRootId : UInt64)

/-- Every access of the call is inside its page. -/
def InRange (node : BTreeNode) (page : Page) : Call → Prop
  | .findValue key => (findValue node page key).isSome
  | .insertIntoLeaf key value => (insertIntoLeaf node page key value).isSome
  | .splitLeaf rightId newRootId => (splitLeaf node page rightId newRootId).isSome
  | .insertIntoInternal key leftChild rightChild =>
    (insertIntoInternal node page key leftChild rightChild).isSome
  | .splitInternal rightId newRootId => (splitInternal node page rightId newRootId).isSome

/-- A leaf, and few enough keys for the slots the call comes to. -/
def Fits (node : BTreeNode) (page : Page) : Call → Prop
  | .findValue key => node.isLeaf = true ∧ (HasKey node.numKeys.toNat page key ∨
      node.numKeys.toNat ≤ LAST_SLOT + 2 ∧ ∀ i < node.numKeys.toNat, keyAt page i ≠ key)
  | .insertIntoLeaf key _ => node.numKeys.toNat ≤ LAST_SLOT ∨ HasKey node.numKeys.toNat page key
  | .splitLeaf _ _ => node.numKeys.toNat ≤ LAST_SLOT + 1 ∧ node.parentId ≠ 0
  | .insertIntoInternal _ _ _ => False
  | .splitInternal _ _ => False

/-- **Which calls stay inside their pages.** -/
theorem inRange_iff (node : BTreeNode) (page : Page) (call : Call) :
    InRange node page call ↔ Fits node page call := by
  cases call with
  | findValue key => exact isSome_findValue key
  | insertIntoLeaf key value => exact isSome_insertIntoLeaf key value
  | splitLeaf rightId newRootId => exact isSome_splitLeaf rightId newRootId
  | insertIntoInternal key leftChild rightChild => simp [InRange, Fits, insertIntoInternal_eq_none]
  | splitInternal rightId newRootId => simp [InRange, Fits, splitInternal_eq_none]

/-- The page of a root with one separator, as a split would save it: reading it is a panic, for every key. -/
theorem internal_page_panics : ∃ page, saveToPage ⟨3, false, 1, 0, 0⟩ (Page.new 3) = some page ∧
    fromPage page = some ⟨3, false, 1, 0, 0⟩ ∧ ∀ key, ¬ InRange ⟨3, false, 1, 0, 0⟩ page (.findValue key) := by
  obtain ⟨page, hsave, hsaved⟩ := saveToPage_spec ⟨3, false, 1, 0, 0⟩ (Page.new 3)
  refine ⟨page, hsave, hsaved.fromPage_eq, ?_⟩
  intro key h
  exact absurd ((isSome_findValue key).1 h).1 (by decide)

end OnPage

end RedisOps.BTree
