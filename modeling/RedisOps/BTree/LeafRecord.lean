import RedisOps.BTree.LeafBytes

/-!
# The slots of a leaf, moved one by one (`redisdb/src/btree/btree.rs:226-274, 484-523`)

A leaf record has `ORDER` slots, the first `num_keys` of them in use. `insert_into_leaf` moves the slots behind the new
key up, the last one first; `delete_from_leaf` moves those behind the old one down, the first one first. Both loops
read and write the same array.

| here | there |
| --- | --- |
| `scanInsert`, `shiftUp`, `insertIntoLeaf` | the two loops of `insert_into_leaf`, and what it puts before a split |
| `findKey`, `shiftDown`, `deleteFromLeaf` | the two loops of `delete_from_leaf`, its answer and what it puts |

Either one is the operation on the list of the slots in use (`insertIntoLeaf_spec`, `deleteFromLeaf_spec`), and so on the
map the leaf stands for (`leaf_is_map`).
-/

namespace RedisOps.BTree

open Lib

structure Slot where
  key : Bytes
  value : Bytes
  keySize : key.length = KEY_SIZE
  valueSize : value.length = VALUE_SIZE

structure LeafRecord where
  numKeys : Nat
  slots : List Slot
  size : slots.length = ORDER

namespace LeafRecord

open BTreeNode OnPage

/-! ## The functions -/

def setSlot (l : LeafRecord) (i : Nat) (slot : Slot) : LeafRecord :=
  { l with slots := l.slots.set i slot, size := by rw [List.length_set, l.size] }

/-- `none` is an access behind the last slot. -/
def readKey (l : LeafRecord) (i : Nat) : Option Bytes := l.slots[i]?.map Slot.key

def readValue (l : LeafRecord) (i : Nat) : Option Bytes := l.slots[i]?.map Slot.value

def writeKey (l : LeafRecord) (i : Nat) (key : Bytes) : Option LeafRecord :=
  l.slots[i]?.map fun slot => l.setSlot i { slot with key := buffer KEY_SIZE key, keySize := length_buffer KEY_SIZE key }

def writeValue (l : LeafRecord) (i : Nat) (value : Bytes) : Option LeafRecord :=
  l.slots[i]?.map fun slot =>
    l.setSlot i { slot with value := buffer VALUE_SIZE value, valueSize := length_buffer VALUE_SIZE value }

/-- The scan of `insert_into_leaf`: it overwrites the value of the key, or comes to the position for it. -/
def scanInsert (l : LeafRecord) (key value : Bytes) : List Nat → Nat → Option (LeafRecord ⊕ Nat)
  | [], pos => some (.inr pos)
  | i :: is, pos => do
    let k ← l.readKey i
    if k = key then .inl <$> l.writeValue i value
    else scanInsert l key value is (if key > k then i + 1 else pos)

def shiftUp (l : LeafRecord) (i : Nat) : Option LeafRecord := do
  let k ← l.readKey i
  let v ← l.readValue i
  let l ← l.writeKey (i + 1) k
  l.writeValue (i + 1) v

def insertIntoLeaf (l : LeafRecord) (key value : Bytes) : Option LeafRecord := do
  match ← l.scanInsert key value (List.range l.numKeys) 0 with
  | .inl l => pure l
  | .inr pos => do
    let page ← (downFrom l.numKeys pos).foldlM shiftUp l
    let page ← page.writeKey pos key
    let page ← page.writeValue pos value
    pure { page with numKeys := l.numKeys + 1 }

def findKey (l : LeafRecord) (key : Bytes) : List Nat → Option (Option Nat)
  | [] => some none
  | i :: is => do
    let k ← l.readKey i
    if k = key then some (some i) else findKey l key is

def shiftDown (l : LeafRecord) (i : Nat) : Option LeafRecord := do
  let k ← l.readKey (i + 1)
  let v ← l.readValue (i + 1)
  let l ← l.writeKey i k
  l.writeValue i v

def deleteFromLeaf (l : LeafRecord) (key : Bytes) : Option (Bool × LeafRecord) := do
  match ← l.findKey key (List.range l.numKeys) with
  | none => pure (false, l)
  | some pos => do
    let page ← (List.range' pos (l.numKeys - 1 - pos)).foldlM shiftDown l
    pure (true, { page with numKeys := l.numKeys - 1 })

/-! ## The slots in use -/

def used (l : LeafRecord) : List Slot := l.slots.take l.numKeys

/-- The record as a leaf by its slots. -/
def toLeaf (l : LeafRecord) : Leaf := ⟨l.used.map Slot.key, l.used.map Slot.value⟩

section Write
variable {l : LeafRecord} {i j : Nat} {slot : Slot}

theorem getElem?_setSlot (l : LeafRecord) (i : Nat) (slot : Slot) (j : Nat) :
    (l.setSlot i slot).slots[j]? = if j = i ∧ i < ORDER then some slot else l.slots[j]? := by
  have hsize := l.size
  rw [setSlot, List.getElem?_set]
  grind

/-- Both fields of a slot, one after the other. -/
theorem write_both (hi : i < ORDER) (key value : Bytes) : ∃ l' : LeafRecord,
    ((l.writeKey i key).bind fun l => l.writeValue i value) = some l' ∧ l'.numKeys = l.numKeys ∧
      ∀ j, l'.slots[j]? = if j = i then some ⟨buffer KEY_SIZE key, buffer VALUE_SIZE value,
        length_buffer KEY_SIZE key, length_buffer VALUE_SIZE value⟩ else l.slots[j]? := by
  have hlt : i < l.slots.length := by rw [l.size]; exact hi
  have hslot : l.slots[i]? = some l.slots[i] := List.getElem?_eq_getElem hlt
  rw [writeKey, hslot]
  simp only [Option.map_some, Option.bind_some, writeValue, getElem?_setSlot, hi, and_true, if_true]
  refine ⟨_, rfl, rfl, ?_⟩
  intro j
  rw [getElem?_setSlot, getElem?_setSlot]
  by_cases hj : j = i
  · simp [hj, hi]
  · simp [hj]

/-- A slot is written as it is in another one. -/
theorem write_slot (hi : i < ORDER) (slot : Slot) : ∃ l' : LeafRecord,
    ((l.writeKey i slot.key).bind fun l => l.writeValue i slot.value) = some l' ∧ l'.numKeys = l.numKeys ∧
      ∀ j, l'.slots[j]? = if j = i then some slot else l.slots[j]? := by
  obtain ⟨l', hwrite, hnum, hslots⟩ := @write_both l i hi slot.key slot.value
  refine ⟨l', hwrite, hnum, fun j => ?_⟩
  rw [hslots j]
  simp only [buffer_eq_self_iff.2 slot.keySize, buffer_eq_self_iff.2 slot.valueSize]

theorem shiftUp_spec (hi : i + 1 < ORDER) : ∃ l', l.shiftUp i = some l' ∧ l'.numKeys = l.numKeys ∧
    ∀ j, l'.slots[j]? = if j = i + 1 then l.slots[i]? else l.slots[j]? := by
  have hlt : i < l.slots.length := by rw [l.size]; omega
  have hslot : l.slots[i]? = some l.slots[i] := List.getElem?_eq_getElem hlt
  obtain ⟨l', hwrite, hnum, hslots⟩ := @write_slot l (i + 1) hi l.slots[i]
  refine ⟨l', ?_, hnum, fun j => by rw [hslots j, hslot]⟩
  rw [shiftUp, readKey, readValue, hslot]
  exact hwrite

theorem shiftDown_spec (hi : i + 1 < ORDER) : ∃ l', l.shiftDown i = some l' ∧ l'.numKeys = l.numKeys ∧
    ∀ j, l'.slots[j]? = if j = i then l.slots[i + 1]? else l.slots[j]? := by
  have hlt : i + 1 < l.slots.length := by rw [l.size]; exact hi
  have hslot : l.slots[i + 1]? = some l.slots[i + 1] := List.getElem?_eq_getElem hlt
  obtain ⟨l', hwrite, hnum, hslots⟩ := @write_slot l i (by omega) l.slots[i + 1]
  refine ⟨l', ?_, hnum, fun j => by rw [hslots j, hslot]⟩
  rw [shiftDown, readKey, readValue, hslot]
  exact hwrite

end Write

/-! ## The loops -/

/-- From the last slot down to `pos`: every slot is read before it is written. -/
theorem shiftUp_loop {pos : Nat} : ∀ {n : Nat} (l : LeafRecord), pos ≤ n → n < ORDER →
    ∃ l', (downFrom n pos).foldlM shiftUp l = some l' ∧ l'.numKeys = l.numKeys ∧
      ∀ j, l'.slots[j]? = if pos < j ∧ j ≤ n then l.slots[j - 1]? else l.slots[j]?
  | 0, l, hpos, _ => by
    obtain rfl : pos = 0 := by omega
    refine ⟨l, by rw [downFrom_self]; rfl, rfl, fun j => ?_⟩
    rw [if_neg (by omega)]
  | n + 1, l, hpos, hn => by
    rcases Nat.eq_or_lt_of_le hpos with rfl | hlt
    · refine ⟨l, by rw [downFrom_self]; rfl, rfl, fun j => ?_⟩
      rw [if_neg (by omega)]
    · obtain ⟨l₁, h₁, hnum₁, hslots₁⟩ := @shiftUp_spec l n hn
      obtain ⟨l', h', hnum, hslots⟩ := shiftUp_loop l₁ (Nat.le_of_lt_succ hlt) (by omega)
      refine ⟨l', ?_, hnum.trans hnum₁, fun j => ?_⟩
      · rw [downFrom_succ (by omega), List.foldlM_cons, h₁]
        exact h'
      · rw [hslots, hslots₁, hslots₁]
        grind

/-- From `pos` on upwards. -/
theorem shiftDown_loop : ∀ (m pos : Nat) (l : LeafRecord), pos + m < ORDER →
    ∃ l', (List.range' pos m).foldlM shiftDown l = some l' ∧ l'.numKeys = l.numKeys ∧
      ∀ j, l'.slots[j]? = if pos ≤ j ∧ j < pos + m then l.slots[j + 1]? else l.slots[j]?
  | 0, pos, l, _ => by
    refine ⟨l, rfl, rfl, fun j => ?_⟩
    rw [if_neg (by omega)]
  | m + 1, pos, l, hm => by
    obtain ⟨l₁, h₁, hnum₁, hslots₁⟩ := @shiftDown_spec l pos (by omega)
    obtain ⟨l', h', hnum, hslots⟩ := shiftDown_loop m (pos + 1) l₁ (by omega)
    refine ⟨l', ?_, hnum.trans hnum₁, fun j => ?_⟩
    · rw [List.range'_succ, List.foldlM_cons, h₁]
      exact h'
    · rw [hslots, hslots₁, hslots₁]
      grind

section Scan
variable {l : LeafRecord} {key value : Bytes}

/-- The keys of `len` slots from the `s`-th on. -/
def keysFrom (l : LeafRecord) (s len : Nat) : List Bytes := ((l.slots.drop s).take len).map Slot.key

theorem keysFrom_succ {s len : Nat} (hs : s < ORDER) :
    ∃ slot, l.slots[s]? = some slot ∧ l.keysFrom s (len + 1) = slot.key :: l.keysFrom (s + 1) len := by
  have hlt : s < l.slots.length := by rw [l.size]; exact hs
  refine ⟨l.slots[s], List.getElem?_eq_getElem hlt, ?_⟩
  rw [keysFrom, List.drop_eq_getElem_cons hlt, List.take_succ_cons, List.map_cons]
  rfl

theorem scanInsert_spec : ∀ (len s pos : Nat), s + len ≤ ORDER →
    l.scanInsert key value (List.range' s len) pos =
      ((l.keysFrom s len).findIdx? fun k => decide (k = key)).elim
        (some (.inr (insertPosFrom key s pos (l.keysFrom s len)))) fun i => .inl <$> l.writeValue (s + i) value
  | 0, s, pos, _ => by simp [scanInsert, keysFrom, insertPosFrom]
  | len + 1, s, pos, h => by
    obtain ⟨slot, hslot, hkeys⟩ := @keysFrom_succ l s len (by omega)
    have ih := scanInsert_spec len (s + 1) (if key > slot.key then s + 1 else pos) (by omega)
    rw [List.range'_succ, scanInsert, readKey, hslot, hkeys, List.findIdx?_cons, insertPosFrom]
    simp only [Option.map_some, Option.bind_eq_bind, Option.bind_some]
    by_cases hk : slot.key = key
    · rw [if_pos hk, decide_eq_true hk]
      rfl
    · -- the two sides carry the same position, by two ways to decide the order
      have hpos : (if key > slot.key then s + 1 else pos) =
          @ite Nat (slot.key < key) (LinearOrder.toDecidableLT slot.key key) (s + 1) pos := by
        by_cases hlt : slot.key < key
        · rw [if_pos hlt, if_pos hlt]
        · rw [if_neg hlt, if_neg hlt]
      rw [if_neg hk, decide_eq_false hk, ih, hpos]
      cases (l.keysFrom (s + 1) len).findIdx? fun k => decide (k = key) with
      | none => rfl
      | some i =>
        have hi : s + 1 + i = s + (i + 1) := by omega
        simp [hi]

theorem findKey_spec : ∀ (len s : Nat), s + len ≤ ORDER → l.findKey key (List.range' s len) =
    some (((l.keysFrom s len).findIdx? fun k => decide (k = key)).map (s + ·))
  | 0, s, _ => by simp [findKey, keysFrom]
  | len + 1, s, h => by
    obtain ⟨slot, hslot, hkeys⟩ := @keysFrom_succ l s len (by omega)
    have ih := findKey_spec len (s + 1) (by omega)
    rw [List.range'_succ, findKey, readKey, hslot, hkeys, List.findIdx?_cons]
    simp only [Option.map_some, Option.bind_eq_bind, Option.bind_some]
    by_cases hk : slot.key = key
    · rw [if_pos hk, decide_eq_true hk]
      rfl
    · rw [if_neg hk, decide_eq_false hk, ih]
      cases (l.keysFrom (s + 1) len).findIdx? fun k => decide (k = key) with
      | none => rfl
      | some i =>
        have hi : s + 1 + i = s + (i + 1) := by omega
        simp [hi]

end Scan

end LeafRecord

/-! ## The leaf by its slots -/

/-- The leaf without the slot of the key. -/
def Leaf.erase (l : Leaf) (key : Bytes) : Leaf :=
  match l.slotOf key with
  | some i => ⟨l.keys.eraseIdx i, l.values.eraseIdx i⟩
  | none => l

namespace LeafRecord

open BTreeNode OnPage

variable {l : LeafRecord}

theorem length_used (h : l.numKeys ≤ ORDER) : l.used.length = l.numKeys := by
  rw [used, List.length_take, l.size]
  omega

theorem keysFrom_zero (l : LeafRecord) : l.keysFrom 0 l.numKeys = l.toLeaf.keys := by
  rw [keysFrom, List.drop_zero]
  rfl

theorem whole_toLeaf (l : LeafRecord) : l.toLeaf.Whole := by
  refine ⟨by simp [toLeaf], fun k hk => ?_⟩
  obtain ⟨slot, -, rfl⟩ := List.mem_map.1 hk
  exact slot.keySize

theorem slotOf_lt (h : l.numKeys ≤ ORDER) {key : Bytes} {i : Nat} (hi : l.toLeaf.slotOf key = some i) :
    i < l.numKeys := by
  have hlt := (List.findIdx?_eq_some_iff_getElem.1 hi).1
  rwa [toLeaf, List.length_map, length_used h] at hlt

/-- The value of the key is overwritten in its slot. -/
theorem insertIntoLeaf_of_mem (h : l.numKeys < ORDER) {key : Bytes} {i : Nat} (hi : l.toLeaf.slotOf key = some i)
    (value : Bytes) : ∃ l', l.insertIntoLeaf key value = some l' ∧ l'.numKeys = l.numKeys ∧
      l'.toLeaf = { l.toLeaf with values := l.toLeaf.values.set i (buffer VALUE_SIZE value) } := by
  have hlt : i < l.slots.length := by
    have := slotOf_lt h.le hi
    rw [l.size]
    omega
  have hslot : l.slots[i]? = some l.slots[i] := List.getElem?_eq_getElem hlt
  have hscan := @scanInsert_spec l key value l.numKeys 0 0 (by omega)
  rw [keysFrom_zero, show (l.toLeaf.keys.findIdx? fun k => decide (k = key)) = some i from hi, Option.elim_some,
    Nat.zero_add, writeValue, hslot, Option.map_some, ← List.range_eq_range'] at hscan
  refine ⟨l.setSlot i ⟨l.slots[i].key, buffer VALUE_SIZE value, l.slots[i].keySize, length_buffer VALUE_SIZE value⟩,
    by rw [insertIntoLeaf, hscan]; rfl, rfl, ?_⟩
  have hkeys : (l.used.map Slot.key).set i l.slots[i].key = l.used.map Slot.key := by
    apply List.ext_getElem?
    intro j
    rw [List.getElem?_set]
    split
    · rename_i hij
      subst hij
      have hn := slotOf_lt h.le hi
      rw [if_pos (by rw [List.length_map, length_used h.le]; exact hn), List.getElem?_map, used, List.getElem?_take,
        if_pos hn, hslot]
      rfl
    · rfl
  have hused : (l.setSlot i ⟨l.slots[i].key, buffer VALUE_SIZE value, l.slots[i].keySize,
      length_buffer VALUE_SIZE value⟩).used = l.used.set i ⟨l.slots[i].key, buffer VALUE_SIZE value, l.slots[i].keySize,
        length_buffer VALUE_SIZE value⟩ := by
    rw [used, setSlot, List.take_set]
    rfl
  rw [toLeaf, hused, List.map_set, List.map_set, hkeys]
  rfl

/-- The list that has the new slot at `pos`, from what the loop and the two writes leave. -/
theorem used_insert {l' : LeafRecord} {pos : Nat} {slot : Slot} (h : l.numKeys < ORDER) (hpos : pos ≤ l.numKeys)
    (hnum : l'.numKeys = l.numKeys + 1) (hslots : ∀ j, l'.slots[j]? = if j = pos then some slot
      else if pos < j ∧ j ≤ l.numKeys then l.slots[j - 1]? else l.slots[j]?) :
    l'.used = l.used.insertIdx pos slot := by
  apply List.ext_getElem?
  intro j
  have hlen := length_used h.le
  rw [List.getElem?_insertIdx, used, List.getElem?_take, hslots, hnum, hlen, used, List.getElem?_take,
    List.getElem?_take]
  grind

theorem used_erase {l' : LeafRecord} {pos : Nat} (hpos : pos < l.numKeys)
    (hnum : l'.numKeys = l.numKeys - 1) (hslots : ∀ j, l'.slots[j]? =
      if pos ≤ j ∧ j < pos + (l.numKeys - 1 - pos) then l.slots[j + 1]? else l.slots[j]?) :
    l'.used = l.used.eraseIdx pos := by
  apply List.ext_getElem?
  intro j
  rw [List.getElem?_eraseIdx, used, List.getElem?_take, hslots, hnum, used, List.getElem?_take, List.getElem?_take]
  grind

/-- **Insert**, as an operation on the list of the slots. -/
theorem insertIntoLeaf_spec (h : l.numKeys < ORDER) (key value : Bytes) : ∃ l', l.insertIntoLeaf key value = some l' ∧
    l'.toLeaf = l.toLeaf.insert key value ∧
      l'.numKeys = if key ∈ l.toLeaf.keys then l.numKeys else l.numKeys + 1 := by
  by_cases hmem : key ∈ l.toLeaf.keys
  · obtain ⟨i, hi⟩ := Leaf.exists_slotOf hmem
    obtain ⟨l', hrun, hnum, hleaf⟩ := insertIntoLeaf_of_mem h hi value
    exact ⟨l', hrun, by rw [hleaf, Leaf.insert_of_mem hi], by rw [if_pos hmem, hnum]⟩
  · have hle : insertPos key l.toLeaf.keys ≤ l.numKeys := by
      have := insertPos_le key l.toLeaf.keys
      rwa [toLeaf, List.length_map, length_used h.le] at this
    have hscan := @scanInsert_spec l key value l.numKeys 0 0 (by omega)
    rw [keysFrom_zero, show (l.toLeaf.keys.findIdx? fun k => decide (k = key)) = none from Leaf.slotOf_eq_none.2 hmem,
      Option.elim_none, ← List.range_eq_range'] at hscan
    obtain ⟨l₁, hloop, hnum₁, hslots₁⟩ := shiftUp_loop l hle h
    obtain ⟨l₂, hwrite, -, hslots₂⟩ := @write_both l₁ (insertPos key l.toLeaf.keys) (by omega) key value
    have hrun : l.insertIntoLeaf key value = some { l₂ with numKeys := l.numKeys + 1 } := by
      obtain ⟨mid, hkey, hvalue⟩ := Option.bind_eq_some_iff.1 hwrite
      have hpos : insertPosFrom key 0 0 l.toLeaf.keys = insertPos key l.toLeaf.keys := rfl
      simp only [insertIntoLeaf, hscan, hpos, Option.bind_eq_bind, Option.bind_some, hloop, hkey, hvalue]
      rfl
    have hused : ({ l₂ with numKeys := l.numKeys + 1 } : LeafRecord).used =
        l.used.insertIdx (insertPos key l.toLeaf.keys) _ :=
      used_insert h hle rfl fun j => by rw [hslots₂ j, hslots₁ j]
    refine ⟨_, hrun, ?_, by rw [if_neg hmem]⟩
    rw [Leaf.insert_of_not_mem hmem, toLeaf, hused, List.map_insertIdx, List.map_insertIdx]
    rfl

/-- **Delete**, as an operation on the list of the slots. -/
theorem deleteFromLeaf_spec (h : l.numKeys < ORDER) (key : Bytes) : ∃ l',
    l.deleteFromLeaf key = some (decide (key ∈ l.toLeaf.keys), l') ∧ l'.toLeaf = l.toLeaf.erase key ∧
      l'.numKeys = if key ∈ l.toLeaf.keys then l.numKeys - 1 else l.numKeys := by
  have hfind := @findKey_spec l key l.numKeys 0 (by omega)
  rw [keysFrom_zero, ← List.range_eq_range'] at hfind
  by_cases hmem : key ∈ l.toLeaf.keys
  · obtain ⟨pos, hpos⟩ := Leaf.exists_slotOf hmem
    have hlt := slotOf_lt h.le hpos
    rw [show (l.toLeaf.keys.findIdx? fun k => decide (k = key)) = some pos from hpos, Option.map_some,
      Nat.zero_add] at hfind
    obtain ⟨l₁, hloop, hnum₁, hslots₁⟩ := shiftDown_loop (l.numKeys - 1 - pos) pos l (by omega)
    have hrun : l.deleteFromLeaf key = some (true, { l₁ with numKeys := l.numKeys - 1 }) := by
      simp only [deleteFromLeaf, hfind, Option.bind_eq_bind, Option.bind_some, hloop]
      rfl
    have hused : ({ l₁ with numKeys := l.numKeys - 1 } : LeafRecord).used = l.used.eraseIdx pos :=
      used_erase hlt rfl hslots₁
    refine ⟨_, by rw [hrun, decide_eq_true hmem], ?_, by rw [if_pos hmem]⟩
    rw [Leaf.erase, hpos, toLeaf, hused, ← List.eraseIdx_map, ← List.eraseIdx_map]
    rfl
  · rw [show (l.toLeaf.keys.findIdx? fun k => decide (k = key)) = none from Leaf.slotOf_eq_none.2 hmem] at hfind
    refine ⟨l, ?_, ?_, by rw [if_neg hmem]⟩
    · rw [deleteFromLeaf, hfind, decide_eq_false hmem]
      rfl
    · rw [Leaf.erase, Leaf.slotOf_eq_none.2 hmem]

end LeafRecord

/-! ## The map a leaf stands for -/

namespace Leaf

open BTreeNode

variable {l : Leaf} {key value : Bytes}

theorem sorted_insert (hsorted : l.keys.Pairwise (· < ·)) (hkey : key.length = KEY_SIZE) :
    (l.insert key value).keys.Pairwise (· < ·) := by
  by_cases hmem : key ∈ l.keys
  · obtain ⟨i, hi⟩ := exists_slotOf hmem
    rw [insert_of_mem hi]
    exact hsorted
  · rw [insert_of_not_mem hmem, buffer_eq_self_iff.2 hkey]
    exact sorted_insertPos hsorted hmem

theorem find_insert (h : l.Whole) (hkey : key.length = KEY_SIZE) (hvalue : value.length = VALUE_SIZE) (k : Bytes) :
    (l.insert key value).find k = if k = key then some value else l.find k := by
  by_cases hk : k = key
  · rw [hk, find_insert_self h, if_pos hkey, if_pos rfl, buffer_eq_self_iff.2 hvalue]
  · rw [find_insert_of_ne h (Ne.symm hk), buffer_eq_self_iff.2 hkey, if_neg fun hc => hk hc.1.symm, if_neg hk]

theorem sorted_erase (hsorted : l.keys.Pairwise (· < ·)) (key : Bytes) : (l.erase key).keys.Pairwise (· < ·) := by
  unfold erase
  split
  · exact hsorted.sublist (List.eraseIdx_sublist _ _)
  · exact hsorted

theorem find_erase (h : l.Whole) (hsorted : l.keys.Pairwise (· < ·)) (key k : Bytes) :
    (l.erase key).find k = if k = key then none else l.find k := by
  cases hi : l.slotOf key with
  | some i =>
    rw [erase, hi]
    exact slotGet_eraseIdx k (hsorted.imp ne_of_lt) h.length hi
  | none =>
    rw [erase, hi]
    by_cases hk : k = key
    · rw [if_pos hk, hk]
      exact slotGet_of_not_mem (slotOf_eq_none.1 hi)
    · rw [if_neg hk]

end Leaf

/-- **Insert and delete in a leaf** are the operations of a map: with fewer than `ORDER` slots in use and their keys in
    order, either loop ends with the keys in order and the map changed at the one key. -/
theorem leaf_is_map (l : LeafRecord) (hsorted : l.toLeaf.keys.Pairwise (· < ·)) (hroom : l.numKeys < ORDER)
    (key value : Bytes) (hkey : key.length = KEY_SIZE) (hvalue : value.length = VALUE_SIZE) :
    (∃ l', l.insertIntoLeaf key value = some l' ∧ l'.toLeaf.keys.Pairwise (· < ·) ∧
      (∀ k, l'.toLeaf.find k = if k = key then some value else l.toLeaf.find k) ∧
      l'.numKeys = if key ∈ l.toLeaf.keys then l.numKeys else l.numKeys + 1) ∧
    ∃ l', l.deleteFromLeaf key = some (decide (key ∈ l.toLeaf.keys), l') ∧ l'.toLeaf.keys.Pairwise (· < ·) ∧
      (∀ k, l'.toLeaf.find k = if k = key then none else l.toLeaf.find k) ∧
      l'.numKeys = if key ∈ l.toLeaf.keys then l.numKeys - 1 else l.numKeys := by
  have hwhole := l.whole_toLeaf
  constructor
  · obtain ⟨l', hrun, hleaf, hnum⟩ := LeafRecord.insertIntoLeaf_spec hroom key value
    refine ⟨l', hrun, ?_, fun k => ?_, hnum⟩
    · rw [hleaf]
      exact Leaf.sorted_insert hsorted hkey
    · rw [hleaf]
      exact Leaf.find_insert hwhole hkey hvalue k
  · obtain ⟨l', hrun, hleaf, hnum⟩ := LeafRecord.deleteFromLeaf_spec hroom key
    refine ⟨l', hrun, ?_, fun k => ?_, hnum⟩
    · rw [hleaf]
      exact Leaf.sorted_erase hsorted key
    · rw [hleaf]
      exact Leaf.find_erase hwhole hsorted key k

def slotOfByte (b : UInt8) : Slot :=
  ⟨List.replicate KEY_SIZE b, List.replicate VALUE_SIZE b, List.length_replicate, List.length_replicate⟩

/-- A leaf with the keys of two bytes in use. -/
def twoSlots (b c : UInt8) : LeafRecord :=
  ⟨2, slotOfByte b :: slotOfByte c :: List.replicate 62 (slotOfByte 0), rfl⟩

/-- A key between the two of the leaf. -/
theorem leaf_is_map_between : ∃ l', (twoSlots 1 3).insertIntoLeaf (slotOfByte 2).key (slotOfByte 2).value = some l' ∧
    l'.toLeaf.keys.Pairwise (· < ·) ∧ l'.numKeys = 3 := by
  obtain ⟨l', hrun, hsorted, -, hnum⟩ := (leaf_is_map (twoSlots 1 3) (by decide) (by decide) (slotOfByte 2).key
    (slotOfByte 2).value (slotOfByte 2).keySize (slotOfByte 2).valueSize).1
  rw [if_neg (by decide)] at hnum
  exact ⟨l', hrun, hsorted, hnum⟩

end RedisOps.BTree
