import RedisOps.BTree.Leaf
import RedisOps.BTree.Accessors

/-!
# The leaf of a page (`btree.rs:174-187, 229-270`)

`insertLeaf` and `findLeaf` are `insert_into_leaf` and `find_value` on the bytes of a page. As long as the page
has room they are `Leaf.insert` and `Leaf.find` on its slots (`insertLeaf_spec`, `findLeaf_spec`), and
what is put comes back exactly when it does by the slots (`leaf_survives_iff`).
-/

namespace RedisOps.BTree

open Lib

namespace OnPage

open BTreeNode

/-- The key and the value in a slot. -/
def slotAt (page : Page) (i : Nat) : Bytes × Bytes :=
  (keyAt page i, slice page.data (valueOffset i) VALUE_SIZE)

theorem slotAt_fst (page : Page) (i : Nat) : (slotAt page i).1 = keyAt page i := rfl

/-- The `num_keys` of a page. -/
def keyCount (page : Page) : Nat := ofLe (slice page.data 1 4)

def leafOf (page : Page) : Leaf where
  keys := (List.range (keyCount page)).map fun i => (slotAt page i).1
  values := (List.range (keyCount page)).map fun i => (slotAt page i).2

/-- The header of the page of a leaf; its flag is not taken from the bytes, which do not keep it
    (`header_codec_iff`). -/
def leafHeader (page : Page) : Option BTreeNode := (fromPage page).map fun node => { node with isLeaf := true }

/-- `insert_into_leaf` on the page of a leaf: the page it puts, and whether `split_leaf` follows. -/
def insertLeaf (page : Page) (key value : Bytes) : Option (Page × Bool) := do
  let node ← leafHeader page
  insertIntoLeaf node page key value

/-- `find_value` on the page of a leaf. -/
def findLeaf (page : Page) (key : Bytes) : Option Found := do
  let node ← leafHeader page
  findValue node page key

theorem leafHeader_spec (page : Page) : ∃ node, leafHeader page = some node ∧ node.isLeaf = true ∧
    node.numKeys.toNat = keyCount page := by
  have hread : ∀ {offset len : Nat}, offset + len ≤ 32 →
      page.readSlice offset len = some (slice page.data offset len) := fun hle =>
    page.readSlice_of_le (by unfold PAGE_SIZE; omega)
  have hlt : keyCount page < 2 ^ 32 := by
    have hlen : (slice page.data 1 4).length = 4 := length_slice (by rw [page.size]; decide)
    have hlt := ofLe_lt (slice page.data 1 4)
    rw [hlen] at hlt
    exact hlt
  have hof : (UInt32.ofNat (ofLe (slice page.data 1 4))).toNat = keyCount page := by
    rw [UInt32.toNat_ofNat']
    exact Nat.mod_eq_of_lt hlt
  refine ⟨⟨page.id, true, UInt32.ofNat (ofLe (slice page.data 1 4)), UInt64.ofNat (ofLe (slice page.data 5 8)),
    UInt64.ofNat (ofLe (slice page.data 13 8))⟩, ?_, rfl, hof⟩
  simp only [leafHeader, fromPage, Page.readU32, Page.readU64, hread (show 0 + 4 ≤ 32 by omega),
    hread (show 1 + 4 ≤ 32 by omega), hread (show 5 + 8 ≤ 32 by omega), hread (show 13 + 8 ≤ 32 by omega),
    Option.map_some, Option.bind_eq_bind, Option.bind_some, Option.pure_def]

section Write
variable {page page' : Page} {i : Nat}

/-- One slot is written, and nothing else of the slots and of `num_keys`. -/
structure Wrote (page page' : Page) (i : Nat) (slot : Bytes × Bytes) : Prop where
  count : keyCount page' = keyCount page
  slot : ∀ j, slotAt page' j = if j = i then slot else slotAt page j

/-- A write to a cell of a slot. -/
theorem wrote_of {c : Cell} {bs : Bytes} (h : Cell.write page (c, bs) = some page')
    (hcell : keyOffset i ≤ c.offset ∧ c.offset + c.size ≤ keyOffset (i + 1)) : Wrote page page' i (slotAt page' i) := by
  refine ⟨congrArg ofLe (Cell.slice_write h (.inl ?_)), ?_⟩
  · have hle := c.header_le
    unfold HEADER_SIZE at hle
    omega
  · intro j
    by_cases hj : j = i
    · rw [if_pos hj, hj]
    · rw [if_neg hj]
      refine Prod.ext (Cell.slice_write h ?_) (Cell.slice_write h ?_)
      · simp only [keyOffset, HEADER_SIZE, KEY_SIZE, VALUE_SIZE] at hcell ⊢
        omega
      · simp only [keyOffset, valueOffset, HEADER_SIZE, KEY_SIZE, VALUE_SIZE] at hcell ⊢
        omega

theorem wrote_key {key : Bytes} (h : writeKey page i key = some page') :
    Wrote page page' i (buffer KEY_SIZE key, (slotAt page i).2) := by
  have hslot : slotAt page' i = (buffer KEY_SIZE key, (slotAt page i).2) := by
    have hself := Cell.slice_write_self (c := .key i) h
    have hother := Cell.slice_write (c := .key i) h (Cell.apart (d := .value i) (by simp))
    exact Prod.ext hself hother
  rw [← hslot]
  apply wrote_of (c := .key i) h
  simp only [Cell.offset, Cell.size, keyOffset, HEADER_SIZE, KEY_SIZE, VALUE_SIZE]
  omega

theorem wrote_value {value : Bytes} (h : writeValue page i value = some page') :
    Wrote page page' i ((slotAt page i).1, buffer VALUE_SIZE value) := by
  have hslot : slotAt page' i = ((slotAt page i).1, buffer VALUE_SIZE value) := by
    have hself := Cell.slice_write_self (c := .value i) h
    have hother := Cell.slice_write (c := .value i) h (Cell.apart (d := .key i) (by simp))
    exact Prod.ext hother hself
  rw [← hslot]
  apply wrote_of (c := .value i) h
  simp only [Cell.offset, Cell.size, keyOffset, valueOffset, HEADER_SIZE, KEY_SIZE, VALUE_SIZE]
  omega

/-- `write_key` and `write_value` at one slot. -/
theorem writeSlot_spec (page : Page) (hi : i ≤ LAST_SLOT) (key value : Bytes) :
    ∃ page₁ page₂, writeKey page i key = some page₁ ∧ writeValue page₁ i value = some page₂ ∧
      Wrote page page₂ i (buffer KEY_SIZE key, buffer VALUE_SIZE value) := by
  obtain ⟨page₁, h₁⟩ := Option.isSome_iff_exists.1 ((@isSome_writeKey page i key).2 (by omega))
  obtain ⟨page₂, h₂⟩ := Option.isSome_iff_exists.1 ((@isSome_writeValue page₁ i value).2 hi)
  have hkey := wrote_key h₁
  have hvalue := wrote_value h₂
  refine ⟨page₁, page₂, h₁, h₂, hvalue.count.trans hkey.count, ?_⟩
  intro j
  rw [hvalue.slot j, hkey.slot i, if_pos rfl, hkey.slot j]
  by_cases hj : j = i
  · rw [if_pos hj, if_pos hj]
  · rw [if_neg hj, if_neg hj, if_neg hj]

theorem length_slotAt (hi : i ≤ LAST_SLOT) : (slotAt page i).1.length = KEY_SIZE ∧
    (slotAt page i).2.length = VALUE_SIZE := by
  unfold LAST_SLOT at hi
  constructor
  · apply length_slice
    rw [page.size]
    simp only [keyOffset, HEADER_SIZE, KEY_SIZE, VALUE_SIZE, PAGE_SIZE]
    omega
  · apply length_slice
    rw [page.size]
    simp only [valueOffset, HEADER_SIZE, KEY_SIZE, VALUE_SIZE, PAGE_SIZE]
    omega

theorem readValue_of_le (hi : i ≤ LAST_SLOT) : readValue page i = some (slotAt page i).2 := by
  have hsome : (readValue page i).isSome := isSome_readValue.2 hi
  exact page.readSlice_of_le (Page.isSome_readSlice.1 hsome)

theorem shiftSlot_spec (page : Page) (hi : i + 1 ≤ LAST_SLOT) :
    ∃ page', shiftSlot page i = some page' ∧ Wrote page page' (i + 1) (slotAt page i) := by
  obtain ⟨hk, hv⟩ := @length_slotAt page i (by omega)
  obtain ⟨page₁, page₂, h₁, h₂, hwrote⟩ := writeSlot_spec page hi (slotAt page i).1 (slotAt page i).2
  rw [buffer_eq_self_iff.2 hk, buffer_eq_self_iff.2 hv] at hwrote
  refine ⟨page₂, ?_, hwrote⟩
  rw [shiftSlot, readKey_of_le (by omega), readValue_of_le (by omega)]
  simp only [Option.bind_eq_bind, Option.bind_some]
  rw [← slotAt_fst, h₁, Option.bind_some, h₂]

theorem downFrom_self (n : Nat) : downFrom n n = [] := by simp [downFrom]

theorem downFrom_succ {n pos : Nat} (h : pos ≤ n) : downFrom (n + 1) pos = n :: downFrom n pos := by
  have hlen : n + 1 - pos = (n - pos) + 1 := by omega
  rw [downFrom, hlen, List.range'_concat, List.reverse_append, downFrom]
  simp
  omega

/-- The shift moves the slots from `pos` up to `n` by one. -/
theorem shift_spec {pos : Nat} : ∀ {n : Nat} (page : Page), pos ≤ n → n ≤ LAST_SLOT →
    ∃ page', (downFrom n pos).foldlM shiftSlot page = some page' ∧
      ∀ j, slotAt page' j = if pos < j ∧ j ≤ n then slotAt page (j - 1) else slotAt page j
  | 0, page, hpos, _ => by
    obtain rfl : pos = 0 := by omega
    refine ⟨page, by rw [downFrom_self]; rfl, ?_⟩
    intro j
    rw [if_neg (by omega)]
  | n + 1, page, hpos, hn => by
    rcases Nat.eq_or_lt_of_le hpos with rfl | hlt
    · refine ⟨page, by rw [downFrom_self]; rfl, ?_⟩
      intro j
      rw [if_neg (by omega)]
    · -- the last slot goes first
      obtain ⟨page₁, h₁, hwrote⟩ := shiftSlot_spec page hn
      obtain ⟨page', h', hslot⟩ := shift_spec page₁ (Nat.le_of_lt_succ hlt) (by omega)
      refine ⟨page', ?_, fun j => ?_⟩
      · rw [downFrom_succ (by omega), List.foldlM_cons, h₁]
        exact h'
      · rw [hslot, hwrote.slot, hwrote.slot]
        grind

end Write

/-! ## The scans -/

section Scans
variable {page : Page} {key : Bytes}

theorem scanLeaf_find : ∀ (len s : Nat), s + len ≤ LAST_SLOT + 1 →
    scanLeaf page key (readValue page) (fun _ _ (acc : Unit) => acc) (List.range' s len) () =
      some ((slotGet key ((List.range' s len).map fun i => (slotAt page i).1)
        ((List.range' s len).map fun i => (slotAt page i).2)).elim (.inr ()) .inl)
  | 0, s, _ => rfl
  | len + 1, s, h => by
    have ih := scanLeaf_find len (s + 1) (by omega)
    rw [List.range'_succ, scanLeaf_cons_of_le (by omega), List.map_cons, List.map_cons, slotGet,
      slotAt_fst]
    by_cases hk : keyAt page s = key
    · rw [if_pos hk, if_pos hk, readValue_of_le (by omega)]
      rfl
    · rw [if_neg hk, if_neg hk, ih]

theorem scanLeaf_insert {ρ : Type} (hit : Nat → Option ρ) : ∀ (len s pos : Nat), s + len ≤ LAST_SLOT + 1 →
    scanLeaf page key hit (fun i k pos => if key > k then i + 1 else pos) (List.range' s len) pos =
      (((List.range' s len).map fun i => (slotAt page i).1).findIdx? fun k => decide (k = key)).elim
        (some (.inr (insertPosFrom key s pos ((List.range' s len).map fun i => (slotAt page i).1))))
        fun i => .inl <$> hit (s + i)
  | 0, s, pos, _ => rfl
  | len + 1, s, pos, h => by
    have ih := scanLeaf_insert hit len (s + 1) (if key > keyAt page s then s + 1 else pos) (by omega)
    rw [List.range'_succ, scanLeaf_cons_of_le (by omega), List.map_cons, List.findIdx?_cons, insertPosFrom,
      slotAt_fst]
    by_cases hk : keyAt page s = key
    · rw [if_pos hk, decide_eq_true hk]
      rfl
    · -- the two sides carry the same position, by two ways to decide the order
      have hpos : (if key > keyAt page s then s + 1 else pos) =
          @ite Nat (keyAt page s < key) (LinearOrder.toDecidableLT (keyAt page s) key) (s + 1) pos := by
        by_cases hlt : keyAt page s < key
        · rw [if_pos hlt, if_pos hlt]
        · rw [if_neg hlt, if_neg hlt]
      rw [if_neg hk, decide_eq_false hk, ih, hpos]
      cases ((List.range' (s + 1) len).map fun i => (slotAt page i).1).findIdx? fun k => decide (k = key) with
      | none => rfl
      | some i =>
        have hi : s + 1 + i = s + (i + 1) := by omega
        simp [hi]

/-- The scan comes back from a slot. -/
theorem scanLeaf_inl {ρ σ : Type} {hit : Nat → Option ρ} {step : Nat → Bytes → σ → σ} {r : ρ} :
    ∀ {is : List Nat} {acc : σ}, scanLeaf page key hit step is acc = some (.inl r) → ∃ i, hit i = some r
  | [], acc, h => by simp [scanLeaf] at h
  | i :: is, acc, h => by
    rcases Nat.lt_or_ge (LAST_SLOT + 1) i with hi | hi
    · rw [scanLeaf_cons_of_lt hi] at h
      cases h
    · rw [scanLeaf_cons_of_le hi] at h
      split at h
      · cases hh : hit i with
        | none => simp [hh] at h
        | some r' => exact ⟨i, by simpa [hh] using h⟩
      · exact scanLeaf_inl h

end Scans

/-! ## The page refines its leaf -/

section Refine
variable {page : Page}

theorem leafOf_eq (page : Page) : leafOf page =
    ⟨(List.range' 0 (keyCount page)).map fun i => (slotAt page i).1,
      (List.range' 0 (keyCount page)).map fun i => (slotAt page i).2⟩ := by
  rw [← List.range_eq_range']
  rfl

theorem length_keys_leafOf (page : Page) : (leafOf page).keys.length = keyCount page := by simp [leafOf]

theorem whole_leafOf (h : keyCount page ≤ LAST_SLOT + 1) : (leafOf page).Whole := by
  refine ⟨by simp [leafOf], ?_⟩
  intro k hk
  simp only [leafOf, List.mem_map, List.mem_range] at hk
  obtain ⟨i, hi, rfl⟩ := hk
  exact (length_slotAt (by omega)).1

theorem findLeaf_spec (h : keyCount page ≤ LAST_SLOT + 1) (key : Bytes) :
    findLeaf page key = some (.answer ((leafOf page).find key)) := by
  obtain ⟨node, hnode, hleaf, hcount⟩ := leafHeader_spec page
  have hscan := @scanLeaf_find page key (keyCount page) 0 (by omega)
  rw [findLeaf, hnode, Option.bind_eq_bind, Option.bind_some, findValue, if_pos hleaf, hcount,
    List.range_eq_range', hscan, leafOf_eq, Leaf.find]
  cases slotGet key _ _ <;> rfl

theorem leafOf_set {page' : Page} {i : Nat} {value : Bytes}
    (h : Wrote page page' i ((slotAt page i).1, value)) :
    leafOf page' = ⟨(leafOf page).keys, (leafOf page).values.set i value⟩ := by
  have hkeys : (List.range (keyCount page)).map (fun j => (slotAt page' j).1) = (leafOf page).keys := by
    apply List.map_congr_left
    intro j _
    rw [h.slot j]
    split
    · rename_i hj
      rw [hj]
    · rfl
  have hvalues : (List.range (keyCount page)).map (fun j => (slotAt page' j).2) =
      (leafOf page).values.set i value := by
    apply map_range_set
    intro j
    rw [h.slot j]
    split <;> rfl
  rw [leafOf, h.count, hkeys, hvalues]

theorem insertLeaf_of_mem (h : keyCount page ≤ LAST_SLOT) {key : Bytes} (hmem : key ∈ (leafOf page).keys)
    (value : Bytes) : ∃ page',
      insertLeaf page key value = some (page', false) ∧ leafOf page' = (leafOf page).insert key value := by
  obtain ⟨node, hnode, -, hcount⟩ := leafHeader_spec page
  obtain ⟨i, hi⟩ := Leaf.exists_slotOf hmem
  have hlt : i < keyCount page := by
    have := (List.findIdx?_eq_some_iff_findIdx_eq.1 hi).1
    rwa [length_keys_leafOf] at this
  obtain ⟨page', hpage⟩ := Option.isSome_iff_exists.1 ((@isSome_writeValue page i value).2 (by omega))
  have hscan := @scanLeaf_insert page key Page (writeValue page · value) (keyCount page) 0 0 (by omega)
  have hslot := hi
  rw [Leaf.slotOf, leafOf_eq] at hslot
  refine ⟨page', ?_, ?_⟩
  · rw [insertLeaf, hnode, Option.bind_eq_bind, Option.bind_some, insertIntoLeaf, hcount,
      List.range_eq_range', hscan, hslot]
    simp [hpage]
  · rw [Leaf.insert_of_mem hi]
    exact leafOf_set (wrote_value hpage)

theorem leafOf_insertIdx {page' : Page} {p : Nat} {slot : Bytes × Bytes} (hp : p ≤ keyCount page)
    (hcount : keyCount page' = keyCount page + 1)
    (h : ∀ j, slotAt page' j = if j = p then slot else
      if p < j ∧ j ≤ keyCount page then slotAt page (j - 1) else slotAt page j) :
    leafOf page' = ⟨(leafOf page).keys.insertIdx p slot.1, (leafOf page).values.insertIdx p slot.2⟩ := by
  have hkeys := @map_range_insertIdx _ (fun j => (slotAt page j).1) (fun j => (slotAt page' j).1) slot.1 _ _ hp
    fun j => by rw [h j]; split_ifs <;> rfl
  have hvalues := @map_range_insertIdx _ (fun j => (slotAt page j).2) (fun j => (slotAt page' j).2) slot.2 _ _ hp
    fun j => by rw [h j]; split_ifs <;> rfl
  rw [leafOf, hcount, hkeys, hvalues]
  rfl

/-- `save_to_page` keeps the slots. -/
theorem slotAt_saved {node : BTreeNode} {page' : Page} (h : node.Saved page page') (j : Nat) :
    slotAt page' j = slotAt page j := by
  have hslice : ∀ off len, HEADER_SIZE ≤ off → slice page'.data off len = slice page.data off len := by
    intro off len hoff
    apply List.ext_getElem?
    intro i
    simp only [slice, List.getElem?_take, List.getElem?_drop]
    rw [h.rest (off + i) (by omega)]
  exact Prod.ext (hslice _ _ (by unfold keyOffset; omega)) (hslice _ _ (by unfold valueOffset; omega))

theorem keyCount_saved {node : BTreeNode} {page' : Page} (h : node.Saved page page') :
    keyCount page' = node.numKeys.toNat := by
  rw [keyCount, h.numKeys]
  exact ofLe_leBytes_of_lt node.numKeys.toNat_lt

theorem insertLeaf_of_not_mem (h : keyCount page ≤ LAST_SLOT) {key : Bytes} (hmem : key ∉ (leafOf page).keys)
    (value : Bytes) : ∃ page',
      insertLeaf page key value = some (page', false) ∧ leafOf page' = (leafOf page).insert key value := by
  obtain ⟨node, hnode, -, hcount⟩ := leafHeader_spec page
  have hnone := Leaf.slotOf_eq_none.2 hmem
  have hscan := @scanLeaf_insert page key Page (writeValue page · value) (keyCount page) 0 0 (by omega)
  have hp : insertPos key (leafOf page).keys ≤ keyCount page :=
    length_keys_leafOf page ▸ insertPos_le key (leafOf page).keys
  generalize hpos : insertPos key (leafOf page).keys = p at hp
  have hscan' : scanLeaf page key (writeValue page · value) (fun i k pos => if key > k then i + 1 else pos)
      (List.range (keyCount page)) 0 = some (.inr p) := by
    rw [Leaf.slotOf, leafOf_eq] at hnone
    rw [leafOf_eq, insertPos] at hpos
    rw [List.range_eq_range', hscan, hnone, hpos]
    rfl
  obtain ⟨page₁, h₁, hslot₁⟩ := shift_spec page hp h
  obtain ⟨page₂, page₃, h₂, h₃, hwrote⟩ := writeSlot_spec page₁ (Nat.le_trans hp h) key value
  obtain ⟨page₄, h₄, hsaved⟩ := saveToPage_spec { node with numKeys := node.numKeys + 1 } page₃
  have hnext : (node.numKeys + 1).toNat = keyCount page + 1 := by
    rw [UInt32.toNat_add, UInt32.toNat_one, hcount]
    unfold LAST_SLOT at h
    omega
  have hsplit : ¬ (node.numKeys + 1).toNat ≥ ORDER := by
    rw [hnext]
    unfold ORDER
    unfold LAST_SLOT at h
    omega
  refine ⟨page₄, ?_, ?_⟩
  · rw [insertLeaf, hnode, Option.bind_eq_bind, Option.bind_some, insertIntoLeaf, hcount, hscan']
    simp only [Option.bind_eq_bind, Option.bind_some, h₁, h₂, h₃, h₄, decide_eq_false hsplit]
    rfl
  · rw [Leaf.insert_of_not_mem hmem, hpos]
    refine @leafOf_insertIdx page page₄ p (buffer KEY_SIZE key, buffer VALUE_SIZE value) hp
      ((keyCount_saved hsaved).trans hnext) fun j => ?_
    rw [slotAt_saved hsaved, hwrote.slot, hslot₁]

/-- **A page refines its leaf**: what `insert_into_leaf` puts has the slots of `Leaf.insert`. -/
theorem insertLeaf_spec (h : keyCount page ≤ LAST_SLOT) (key value : Bytes) : ∃ page',
    insertLeaf page key value = some (page', false) ∧ leafOf page' = (leafOf page).insert key value := by
  by_cases hmem : key ∈ (leafOf page).keys
  · exact insertLeaf_of_mem h hmem value
  · exact insertLeaf_of_not_mem h hmem value

end Refine

/-! ## What survives -/

section Survives
variable {page page' : Page} {key value : Bytes} {split : Bool}

/-- Two insertions fit: the page has one slot free behind the key. -/
def HasRoom (page : Page) (key : Bytes) : Prop :=
  keyCount page < LAST_SLOT ∨ keyCount page = LAST_SLOT ∧ key ∈ (leafOf page).keys

theorem length_insert_le_iff (h : keyCount page ≤ LAST_SLOT) :
    ((leafOf page).insert key value).keys.length ≤ LAST_SLOT ↔ HasRoom page key := by
  by_cases hmem : key ∈ (leafOf page).keys
  · obtain ⟨i, hi⟩ := Leaf.exists_slotOf hmem
    rw [Leaf.insert_of_mem hi, length_keys_leafOf, HasRoom]
    exact ⟨fun _ => (Nat.lt_or_eq_of_le h).imp_right fun he => ⟨he, hmem⟩, fun _ => h⟩
  · have hp := insertPos_le key (leafOf page).keys
    rw [Leaf.insert_of_not_mem hmem, HasRoom, or_iff_left fun hc => hmem hc.2, List.length_insertIdx, if_pos hp,
      length_keys_leafOf]
    rfl

/-- What is found behind an insertion. -/
theorem findLeaf_insertLeaf (h : keyCount page ≤ LAST_SLOT)
    (hins : insertLeaf page key value = some (page', false)) : leafOf page' = (leafOf page).insert key value ∧
      ∀ k, findLeaf page' k = some (.answer (((leafOf page).insert key value).find k)) := by
  obtain ⟨p, hp, hleaf⟩ := insertLeaf_spec h key value
  obtain rfl : p = page' := by simpa using congrArg (Option.map Prod.fst) (hp.symm.trans hins)
  have hcount : keyCount p ≤ LAST_SLOT + 1 := by
    have hlen := Leaf.length_keys_insert_le (leafOf page) key value
    rw [← hleaf, length_keys_leafOf, length_keys_leafOf] at hlen
    omega
  refine ⟨hleaf, ?_⟩
  intro k
  rw [findLeaf_spec hcount, hleaf]

/-- In a page without room a key that is found is overwritten, and nothing else can be done. -/
theorem keyCount_of_full (hfull : LAST_SLOT < keyCount page)
    (h : insertLeaf page key value = some (page', split)) : keyCount page' = keyCount page := by
  obtain ⟨node, hnode, -, hcount⟩ := leafHeader_spec page
  rw [insertLeaf, hnode, Option.bind_eq_bind, Option.bind_some] at h
  have hkey : HasKey node.numKeys.toNat page key :=
    ((isSome_insertIntoLeaf key value).1 (by rw [h]; rfl)).resolve_left (by omega)
  obtain ⟨r, hr⟩ := (scanLeaf_hit page key (fun i k pos => if key > k then i + 1 else pos)
    (fun i => @isSome_writeValue page i value) node.numKeys.toNat 0).2 hkey
  obtain ⟨i, hi⟩ := scanLeaf_inl hr
  rw [insertIntoLeaf, hr] at h
  obtain rfl : r = page' := by simpa using congrArg (Option.map Prod.fst) h
  exact (wrote_value hi).count

/-- A key longer than a slot is new to every leaf, so it needs a slot. -/
theorem keyCount_le_of_long (hlong : KEY_SIZE < key.length)
    (h : insertLeaf page key value = some (page', split)) : keyCount page ≤ LAST_SLOT := by
  obtain ⟨node, hnode, -, hcount⟩ := leafHeader_spec page
  rw [insertLeaf, hnode, Option.bind_eq_bind, Option.bind_some] at h
  rcases (isSome_insertIntoLeaf key value).1 (by rw [h]; rfl) with hle | ⟨i, -, hi, hk⟩
  · omega
  · have hlen : (slotAt page i).1.length = KEY_SIZE := (length_slotAt hi).1
    rw [slotAt_fst, hk] at hlen
    omega

/-- **What survives in a leaf.** -/
theorem leaf_survives_iff (page : Page) (key value : Bytes) :
    (∃ page', insertLeaf page key value = some (page', false) ∧
      findLeaf page' key = some (.answer (some value)) ∧
      ∀ key' value', key' ≠ key → ∃ page'', insertLeaf page' key' value' = some (page'', false) ∧
        findLeaf page'' key = some (.answer (some value))) ↔
    (key.length = KEY_SIZE ∧ value.length = VALUE_SIZE ∧
      (key.getLast? ≠ some 0 ∨ (leafOf page).OutOfOrder key)) ∧ HasRoom page key := by
  constructor
  · rintro ⟨page', hins, hfind, hother⟩
    -- a longer key finds a slot, so there is one
    obtain ⟨_, hlong, -⟩ := hother (key ++ List.replicate (KEY_SIZE + 1) 0) [] (by simp [KEY_SIZE])
    have hle' : keyCount page' ≤ LAST_SLOT := keyCount_le_of_long (by simp; omega) hlong
    have hle : keyCount page ≤ LAST_SLOT := by
      by_contra hfull
      have hcount := keyCount_of_full (Nat.lt_of_not_le hfull) hins
      omega
    obtain ⟨hleaf, hget⟩ := findLeaf_insertLeaf hle hins
    refine ⟨(Leaf.survives_iff (whole_leafOf (by omega)) key value).1 ⟨?_, ?_⟩, ?_⟩
    · simpa [hget] using hfind
    · intro key' value' hne
      obtain ⟨page'', hins', hfind'⟩ := hother key' value' hne
      obtain ⟨-, hget'⟩ := findLeaf_insertLeaf hle' hins'
      simpa [hget', hleaf] using hfind'
    · rw [← @length_insert_le_iff page key value hle, ← hleaf, length_keys_leafOf]
      exact hle'
  · rintro ⟨hcond, hroom⟩
    have hle : keyCount page ≤ LAST_SLOT := by
      rcases hroom with hlt | ⟨he, -⟩ <;> omega
    obtain ⟨hfind, hother⟩ := (Leaf.survives_iff (whole_leafOf (by omega)) key value).2 hcond
    obtain ⟨page', hins, -⟩ := insertLeaf_spec hle key value
    obtain ⟨hleaf, hget⟩ := findLeaf_insertLeaf hle hins
    have hle' : keyCount page' ≤ LAST_SLOT := by
      rw [← length_keys_leafOf, hleaf]
      exact (length_insert_le_iff hle).2 hroom
    refine ⟨page', hins, by rw [hget, hfind], ?_⟩
    intro key' value' hne
    obtain ⟨page'', hins', -⟩ := insertLeaf_spec hle' key' value'
    obtain ⟨-, hget'⟩ := findLeaf_insertLeaf hle' hins'
    exact ⟨page'', hins', by rw [hget', hleaf, hother key' value' hne]⟩

/-- `"ts:meta:cpu"` with `"[]"`, in the empty first leaf of a tree: a key of 11 bytes is not found. -/
theorem short_key_lost : ∃ page page', saveToPage ⟨1, true, 0, 0, 0⟩ (Page.new 1) = some page ∧
    fromPage page = some ⟨1, true, 0, 0, 0⟩ ∧
    insertLeaf page [116, 115, 58, 109, 101, 116, 97, 58, 99, 112, 117] [91, 93] = some (page', false) ∧
    findLeaf page' [116, 115, 58, 109, 101, 116, 97, 58, 99, 112, 117] = some (.answer none) := by
  obtain ⟨page, hsave, hsaved⟩ := saveToPage_spec ⟨1, true, 0, 0, 0⟩ (Page.new 1)
  have hcount : keyCount page = 0 := keyCount_saved hsaved
  obtain ⟨page', hins, -⟩ := @insertLeaf_spec page (by omega)
    [116, 115, 58, 109, 101, 116, 97, 58, 99, 112, 117] [91, 93]
  obtain ⟨-, hget⟩ := findLeaf_insertLeaf (by omega) hins
  refine ⟨page, page', hsave, hsaved.fromPage_eq, hins, ?_⟩
  rw [hget, Leaf.find_insert_self (whole_leafOf (by omega)), if_neg (by decide)]

end Survives

end OnPage

end RedisOps.BTree
