import RedisOps.BTree.Bounds
import RedisOps.Lib.Slots

/-!
# A leaf by its slots (`btree.rs:53-74, 174-187, 236-259`)

`put` takes byte strings of any length and a slot has `KEY_SIZE` and `VALUE_SIZE` bytes: `write_key` and
`write_value` cut off what is too long and fill up what is too short with zeros (`buffer`). `find_value` and
`insert_into_leaf` compare the key they are given, as it is, with the 32 bytes of a slot.

So a key of another length than `KEY_SIZE` is never found again, a value of another length than
`VALUE_SIZE` comes back changed, and a key that ends in a zero is also what a shorter one is stored as
(`Leaf.survives_iff`).
-/

namespace RedisOps.BTree

open Lib

namespace BTreeNode

/-! ## The buffer of a slot -/

theorem buffer_eq_self_iff {size : Nat} {bs : Bytes} : buffer size bs = bs ↔ bs.length = size := by
  constructor
  · intro h
    rw [← h, length_buffer]
  · rintro rfl
    simp [buffer]

theorem buffer_of_le {size : Nat} {bs : Bytes} (h : bs.length ≤ size) :
    buffer size bs = bs ++ List.replicate (size - bs.length) 0 := by
  rw [buffer, List.take_of_length_le h]

/-- A longer string is above what it is stored as, its first bytes. -/
theorem buffer_lt_self {size : Nat} {bs : Bytes} (h : size < bs.length) : buffer size bs < bs := by
  have hbuf : buffer size bs = bs.take size := by
    simp [buffer, Nat.sub_eq_zero_of_le h.le]
  obtain ⟨b, rest, hrest⟩ : ∃ b rest, bs.drop size = b :: rest :=
    List.exists_cons_of_length_pos (by simpa using h)
  have hlt : bs.take size ++ [] < bs.take size ++ b :: rest := List.append_left_lt (List.nil_lt_cons b rest)
  rwa [List.append_nil, ← hrest, List.take_append_drop, ← hbuf] at hlt

/-- A shorter string is below what it is stored as. -/
theorem self_lt_buffer {size : Nat} {bs : Bytes} (h : bs.length < size) : bs < buffer size bs := by
  obtain ⟨m, hm⟩ : ∃ m, size - bs.length = m + 1 := ⟨size - bs.length - 1, by omega⟩
  have hlt : bs ++ [] < bs ++ List.replicate (m + 1) 0 := by
    rw [List.replicate_succ]
    exact List.append_left_lt (List.nil_lt_cons 0 _)
  rwa [List.append_nil, ← hm, ← buffer_of_le h.le] at hlt

/-- Nothing a slot can hold is between a shorter string and what it is stored as. -/
theorem lt_self_of_lt_buffer {size : Nat} {bs k : Bytes} (h : bs.length ≤ size) (hk : k.length = size)
    (hlt : k < buffer size bs) : k < bs := by
  rw [buffer_of_le h] at hlt
  exact lt_of_lt_append_zeros (by omega) hlt

/-- What a shorter string is stored as ends in a zero. -/
theorem getLast?_buffer {size : Nat} {bs : Bytes} (h : bs.length < size) :
    (buffer size bs).getLast? = some 0 := by
  obtain ⟨m, hm⟩ : ∃ m, size - bs.length = m + 1 := ⟨size - bs.length - 1, by omega⟩
  rw [buffer_of_le h.le, hm, List.replicate_succ', ← List.append_assoc, List.getLast?_concat]

theorem buffer_dropLast {bs : Bytes} (h : bs.getLast? = some 0) : buffer bs.length bs.dropLast = bs := by
  have hne : bs ≠ [] := by
    rintro rfl
    simp at h
  have hlen : bs.length - (bs.length - 1) = 1 := by
    have := List.length_pos_of_ne_nil hne
    omega
  have hlast : bs.getLast hne = 0 := by
    rw [List.getLast?_eq_some_getLast hne] at h
    exact Option.some.inj h
  rw [buffer_of_le (by simp), List.length_dropLast, hlen]
  have hcat := List.dropLast_append_getLast hne
  rwa [hlast] at hcat

end BTreeNode

/-! ## A leaf by its slots -/

structure Leaf where
  keys : List Bytes
  values : List Bytes
  deriving DecidableEq

namespace Leaf

open BTreeNode

def find (l : Leaf) (key : Bytes) : Option Bytes := slotGet key l.keys l.values

/-- The slot the scan of `insert_into_leaf` stops at. -/
def slotOf (l : Leaf) (key : Bytes) : Option Nat := l.keys.findIdx? fun k => decide (k = key)

def insert (l : Leaf) (key value : Bytes) : Leaf :=
  match l.slotOf key with
  | some i => { l with values := l.values.set i (buffer VALUE_SIZE value) }
  | none =>
    { keys := l.keys.insertIdx (insertPos key l.keys) (buffer KEY_SIZE key)
      values := l.values.insertIdx (insertPos key l.keys) (buffer VALUE_SIZE value) }

/-- Every slot has a key of `KEY_SIZE` bytes and a value. -/
structure Whole (l : Leaf) : Prop where
  length : l.values.length = l.keys.length
  key : ∀ k ∈ l.keys, k.length = KEY_SIZE

theorem slotOf_eq_none {l : Leaf} {key : Bytes} : l.slotOf key = none ↔ key ∉ l.keys := by
  rw [slotOf, List.findIdx?_eq_none_iff]
  constructor
  · intro h hmem
    simpa using h key hmem
  · rintro h k hk
    rw [decide_eq_false_iff_not]
    rintro rfl
    exact h hk

section Insert
variable {l : Leaf} {key value : Bytes}

theorem insert_of_mem {i : Nat} (hi : l.slotOf key = some i) :
    l.insert key value = { l with values := l.values.set i (buffer VALUE_SIZE value) } := by
  rw [insert, hi]

theorem insert_of_not_mem (h : key ∉ l.keys) : l.insert key value =
    { keys := l.keys.insertIdx (insertPos key l.keys) (buffer KEY_SIZE key)
      values := l.values.insertIdx (insertPos key l.keys) (buffer VALUE_SIZE value) } := by
  rw [insert, slotOf_eq_none.2 h]

theorem exists_slotOf (h : key ∈ l.keys) : ∃ i, l.slotOf key = some i := by
  rw [← Option.ne_none_iff_exists']
  exact fun hnone => slotOf_eq_none.1 hnone h

theorem Whole.insert (h : l.Whole) (key value : Bytes) : (l.insert key value).Whole := by
  by_cases hmem : key ∈ l.keys
  · obtain ⟨i, hi⟩ := exists_slotOf hmem
    rw [insert_of_mem hi]
    exact ⟨by simpa using h.length, h.key⟩
  · have hp := insertPos_le key l.keys
    rw [insert_of_not_mem hmem]
    constructor
    · simp only [List.length_insertIdx, h.length]
    · intro k hk
      rcases List.eq_or_mem_of_mem_insertIdx hk with rfl | hk
      · exact length_buffer KEY_SIZE key
      · exact h.key k hk

theorem length_keys_insert_le (l : Leaf) (key value : Bytes) :
    (l.insert key value).keys.length ≤ l.keys.length + 1 := by
  by_cases hmem : key ∈ l.keys
  · obtain ⟨i, hi⟩ := exists_slotOf hmem
    rw [insert_of_mem hi]
    exact Nat.le_succ _
  · rw [insert_of_not_mem hmem, List.length_insertIdx]
    split <;> omega

/-- A key of another length than `KEY_SIZE` is not found again. -/
theorem find_insert_self (h : l.Whole) (key value : Bytes) : (l.insert key value).find key =
    if key.length = KEY_SIZE then some (buffer VALUE_SIZE value) else none := by
  by_cases hmem : key ∈ l.keys
  · obtain ⟨i, hi⟩ := exists_slotOf hmem
    rw [insert_of_mem hi, find, slotGet_set _ _ h.length hi, if_pos rfl, if_pos (h.key key hmem)]
  · have hno : ∀ n, key ∉ l.keys.take n := fun n hm => hmem (List.mem_of_mem_take hm)
    rw [insert_of_not_mem hmem, find, slotGet_insertIdx_eq _ _ h.length (insertPos_le _ _),
      slotGet_of_not_mem hmem]
    simp only [buffer_eq_self_iff, hno, not_false_eq_true, and_true]

/-- Another key hides a slot when it is stored as the same bytes, and not behind it. -/
theorem find_insert_of_ne (h : l.Whole) {key' : Bytes} (hne : key' ≠ key) (value' : Bytes) :
    (l.insert key' value').find key =
      if buffer KEY_SIZE key' = key ∧ key ∉ l.keys.take (insertPos key' l.keys) then
        some (buffer VALUE_SIZE value')
      else l.find key := by
  by_cases hmem : key' ∈ l.keys
  · obtain ⟨i, hi⟩ := exists_slotOf hmem
    have hbuf : buffer KEY_SIZE key' = key' := buffer_eq_self_iff.2 (h.key key' hmem)
    rw [insert_of_mem hi, find, slotGet_set _ _ h.length hi, if_neg hne.symm, hbuf, if_neg fun hc => hne hc.1]
    rfl
  · rw [insert_of_not_mem hmem, find, slotGet_insertIdx_eq _ _ h.length (insertPos_le _ _)]
    by_cases hc : buffer KEY_SIZE key' = key ∧ key ∉ l.keys.take (insertPos key' l.keys)
    · rw [if_pos hc, if_pos hc]
    · rw [if_neg hc, if_neg hc]
      rfl

end Insert

/-! ## Which keys are hidden -/

/-- A slot below the key is behind one with the key; `insert_into_leaf` never leaves a leaf so. -/
def OutOfOrder (l : Leaf) (key : Bytes) : Prop :=
  ∃ (i j : Nat) (k : Bytes), j < i ∧ l.keys[j]? = some key ∧ l.keys[i]? = some k ∧ k < key

section Hide
variable {l : Leaf} {key value : Bytes}

/-- A shorter key lands in front of the slot it is stored like, but in a leaf out of order. -/
theorem hidden_of_last_zero (hlen : key.length = KEY_SIZE) (hlast : key.getLast? = some 0)
    (horder : ¬ l.OutOfOrder key) : key.dropLast ≠ key ∧ buffer KEY_SIZE key.dropLast = key ∧
      key ∉ l.keys.take (insertPos key.dropLast l.keys) := by
  have hshort : key.dropLast.length < KEY_SIZE := by
    rw [List.length_dropLast, hlen]
    decide
  have hbuf : buffer KEY_SIZE key.dropLast = key := hlen ▸ buffer_dropLast hlast
  refine ⟨fun he => ?_, hbuf, ?_⟩
  · rw [he, hlen] at hshort
    exact absurd hshort (Nat.lt_irrefl _)
  · rw [not_mem_take_iff]
    intro j hj
    rw [insertPos_le_iff]
    intro i k hi hk
    have hkey : k < key := lt_trans hk (by simpa only [hbuf] using self_lt_buffer hshort)
    rcases Nat.lt_trichotomy i j with hlt | rfl | hgt
    · exact hlt
    · obtain rfl : k = key := Option.some.inj (hi.symm.trans hj)
      exact absurd hkey (lt_irrefl _)
    · exact absurd ⟨i, j, k, hgt, hj, hi, hkey⟩ horder

/-- Only a shorter key can land in front of a slot it is stored like. -/
theorem last_zero_of_hidden {key' : Bytes} (h : l.Whole) (hmem : key ∈ l.keys) (hne : key' ≠ key)
    (hbuf : buffer KEY_SIZE key' = key) (hfront : key ∉ l.keys.take (insertPos key' l.keys)) :
    key.getLast? = some 0 ∧ ¬ l.OutOfOrder key := by
  rw [not_mem_take_iff] at hfront
  have hlen : key'.length ≠ KEY_SIZE := fun he => hne ((buffer_eq_self_iff.2 he).symm.trans hbuf)
  rcases Nat.lt_or_gt_of_ne hlen with hshort | hlong
  · refine ⟨hbuf ▸ getLast?_buffer hshort, ?_⟩
    rintro ⟨i, j, k, hji, hj, hi, hk⟩
    have hk' : k < key' :=
      lt_self_of_lt_buffer hshort.le (h.key k (List.mem_of_getElem? hi)) (by rw [hbuf]; exact hk)
    have := insertPos_le_iff.1 (hfront j hj) i k hi hk'
    omega
  · -- a longer key goes behind every slot it is above
    obtain ⟨j, hj⟩ := List.mem_iff_getElem?.1 hmem
    have hlt : key < key' := by simpa only [hbuf] using buffer_lt_self hlong
    have := insertPos_le_iff.1 (hfront j hj) j key hj hlt
    omega

theorem mem_keys_insert (hlen : key.length = KEY_SIZE) : key ∈ (l.insert key value).keys := by
  by_cases hmem : key ∈ l.keys
  · obtain ⟨i, hi⟩ := exists_slotOf hmem
    rwa [insert_of_mem hi]
  · rw [insert_of_not_mem hmem, buffer_eq_self_iff.2 hlen]
    exact (List.mem_insertIdx (insertPos_le key l.keys)).2 (.inl rfl)

/-- A key is put in behind every slot below it. -/
theorem outOfOrder_insert (hlen : key.length = KEY_SIZE) :
    (l.insert key value).OutOfOrder key ↔ l.OutOfOrder key := by
  by_cases hmem : key ∈ l.keys
  · obtain ⟨i, hi⟩ := exists_slotOf hmem
    rw [insert_of_mem hi]
    rfl
  · refine iff_of_false ?_ ?_
    · rw [insert_of_not_mem hmem, buffer_eq_self_iff.2 hlen]
      rintro ⟨i, j, k, hji, hj, hi, hk⟩
      have hp := insertPos_le key l.keys
      have hbelow : ∀ m, l.keys[m]? = some k → m < insertPos key l.keys := fun m hm =>
        insertPos_le_iff.1 (Nat.le_refl _) m k hm hk
      have hslot : ∀ m, l.keys[m]? ≠ some key := fun m hm => hmem (List.mem_of_getElem? hm)
      simp only [List.getElem?_insertIdx] at hi hj
      grind
    · rintro ⟨i, j, k, -, hj, -⟩
      exact hmem (List.mem_of_getElem? hj)

/-- **What survives in a leaf**, by its slots. -/
theorem survives_iff (h : l.Whole) (key value : Bytes) :
    ((l.insert key value).find key = some value ∧
      ∀ key' value', key' ≠ key → ((l.insert key value).insert key' value').find key = some value) ↔
    key.length = KEY_SIZE ∧ value.length = VALUE_SIZE ∧ (key.getLast? ≠ some 0 ∨ l.OutOfOrder key) := by
  have hwhole := h.insert key value
  have hself := find_insert_self h key value
  constructor
  · rintro ⟨hfind, hother⟩
    have hlen : key.length = KEY_SIZE := by
      by_contra hlen
      rw [if_neg hlen, hfind] at hself
      cases hself
    have hvalue : buffer VALUE_SIZE value = value := by
      rw [if_pos hlen, hfind, Option.some.injEq] at hself
      exact hself.symm
    refine ⟨hlen, buffer_eq_self_iff.1 hvalue, ?_⟩
    by_contra hcond
    rw [not_or, not_not, ← @outOfOrder_insert l key value hlen] at hcond
    obtain ⟨hne, hbuf, hfront⟩ := hidden_of_last_zero hlen hcond.1 hcond.2
    -- the shorter key is then found in place of `key`, with whatever value it has
    have hhide : ∀ value', value = buffer VALUE_SIZE value' := by
      intro value'
      have hget := find_insert_of_ne hwhole hne value'
      rw [if_pos ⟨hbuf, hfront⟩, hother _ value' hne, Option.some.injEq] at hget
      exact hget
    exact absurd ((hhide [0]).symm.trans (hhide [1])) (by decide)
  · rintro ⟨hlen, hvalue, hcond⟩
    have hfind : (l.insert key value).find key = some value := by
      rw [hself, if_pos hlen, buffer_eq_self_iff.2 hvalue]
    refine ⟨hfind, ?_⟩
    intro key' value' hne
    rw [find_insert_of_ne hwhole hne, if_neg, hfind]
    rintro ⟨hbuf, hfront⟩
    obtain ⟨hlast, horder⟩ := last_zero_of_hidden hwhole (mem_keys_insert hlen) hne hbuf hfront
    rw [outOfOrder_insert hlen] at horder
    exact hcond.elim (fun hl => hl hlast) horder

end Hide

end Leaf

end RedisOps.BTree
