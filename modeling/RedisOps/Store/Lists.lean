import RedisOps.Store.Op
import RedisOps.Lib.Int64

/-!
# The list under a key

`listAt` is the list a key holds, empty when there is no entry. The list operations are those of that list as long
as the key holds no other type (`ListOrNone`) and the list's length is an `i64`.
-/

namespace RedisOps.Store

open Lib

variable {F : Type} {s : Data F} {key : String}

def Value.asList : Value F → List String
  | .list l => l
  | _ => []

def listAt (s : Data F) (key : String) : List String := (s.lookup key).elim [] fun e => e.typ.asList

/-- There is no entry, or one that holds a list. -/
def ListOrNone (s : Data F) (key : String) : Prop := ∀ e, s.lookup key = some e → ∃ l, e.typ = .list l

theorem ListOrNone.cases (h : ListOrNone s key) :
    (s.lookup key = none ∧ listAt s key = []) ∨
      ∃ exp, s.lookup key = some ⟨.list (listAt s key), exp⟩ := by
  cases he : s.lookup key with
  | none => exact .inl ⟨rfl, by simp [listAt, he]⟩
  | some e =>
    obtain ⟨l, hl⟩ := h e he
    obtain ⟨typ, exp⟩ := e
    subst hl
    exact .inr ⟨exp, by simp [listAt, he, Value.asList]⟩

theorem listAt_of_lookup {l : List String} {exp : Option Nat} (h : s.lookup key = some ⟨.list l, exp⟩) :
    listAt s key = l ∧ ListOrNone s key := by
  refine ⟨by simp [listAt, h, Value.asList], ?_⟩
  intro e he
  rw [h, Option.some.injEq] at he
  exact ⟨l, by rw [← he]⟩

theorem listAt_of_none (h : s.lookup key = none) : listAt s key = [] ∧ ListOrNone s key :=
  ⟨by simp [listAt, h], by simp [ListOrNone, h]⟩

/-- Only the entry counts. -/
theorem listAt_congr {t : Data F} (h : t.lookup key = s.lookup key) (hs : ListOrNone s key) :
    listAt t key = listAt s key ∧ ListOrNone t key := by
  refine ⟨by rw [listAt, listAt, h], ?_⟩
  intro e he
  exact hs e (by rw [← h, he])

/-! ## Writing -/

theorem listAt_del (s : Data F) (key : String) :
    listAt (del s key).2 key = [] ∧ ListOrNone (del s key).2 key :=
  listAt_of_none (by simp [del])

theorem listAt_lpush (h : ListOrNone s key) (v : String) :
    listAt (lpush s key v) key = v :: listAt s key ∧ ListOrNone (lpush s key v) key := by
  obtain ⟨hn, hl⟩ | ⟨exp, he⟩ := h.cases
  · have hk : (lpush s key v).lookup key = some ⟨.list [v], none⟩ := by simp [lpush, hn, insertNew]
    rw [hl]
    exact listAt_of_lookup hk
  · have hk : (lpush s key v).lookup key = some ⟨.list (v :: listAt s key), exp⟩ := by simp [lpush, he, setTyp]
    exact listAt_of_lookup hk

theorem listAt_lpop (h : ListOrNone s key) : (lpop s key).1 = (listAt s key).head? ∧
    listAt (lpop s key).2 key = (listAt s key).tail ∧ ListOrNone (lpop s key).2 key := by
  obtain ⟨hn, hl⟩ | ⟨exp, he⟩ := h.cases
  · rw [hl]
    simpa [lpop, hn, hl] using h
  · cases hl : listAt s key with
    | nil =>
      rw [hl] at he
      simpa [lpop, he, hl] using h
    | cons v l =>
      rw [hl] at he
      have hk : (lpop s key).2.lookup key = some ⟨.list l, exp⟩ := by simp [lpop, he, setTyp]
      exact ⟨by simp [lpop, he], listAt_of_lookup hk⟩

theorem listAt_rpop (h : ListOrNone s key) : (rpop s key).1 = (listAt s key).getLast? ∧
    listAt (rpop s key).2 key = (listAt s key).dropLast ∧ ListOrNone (rpop s key).2 key := by
  obtain ⟨hn, hl⟩ | ⟨exp, he⟩ := h.cases
  · rw [hl]
    simpa [rpop, hn, hl] using h
  · cases hl : (listAt s key).getLast? with
    | none =>
      have hnil := List.getLast?_eq_none_iff.1 hl
      simpa [rpop, he, hl, hnil] using h
    | some v =>
      have hk : (rpop s key).2.lookup key = some ⟨.list (listAt s key).dropLast, exp⟩ := by simp [rpop, he, hl, setTyp]
      exact ⟨by simp [rpop, he, hl], listAt_of_lookup hk⟩

/-! ## Reading -/

theorem asUsize_of_nonneg {i : Int64} (h : 0 ≤ i.toInt) : asUsize i = i.toInt.toNat :=
  Int64.toNat_toUInt64_of_le (Int64.le_iff_toInt_le.2 h)

theorem asUsize_ofNat {n : Nat} (h : n < 2 ^ 63) : asUsize (Int64.ofNat n) = n := by
  have hn := Int64.toInt_ofNat_of_lt h
  rw [asUsize_of_nonneg (by omega), hn, Int.toNat_natCast]

theorem listRange_whole {l : List String} (h : l.length < 2 ^ 63) : listRange l 0 (-1) = some l := by
  have hlen : Int64.ofNat l.length + -1 + 1 = Int64.ofNat l.length := by
    rw [Int64.add_assoc]; simp
  have hmax : max (Int64.ofNat l.length) 0 = Int64.ofNat l.length := by
    apply Int64.toInt_inj.1
    rw [toInt_max, Int64.toInt_ofNat_of_lt h]
    exact max_eq_left (Int.natCast_nonneg _)
  have h0 : ¬(0 : Int64) < 0 := by decide
  have h1 : (-1 : Int64) < 0 := by decide
  have hzero : asUsize 0 = 0 := rfl
  simp only [listRange, h0, h1, if_false, if_true, hlen, hmax, asUsize_ofNat h, hzero]
  by_cases hl : l = []
  · simp [hl]
  · have hpos : 0 < l.length := List.length_pos_iff.2 hl
    simp [slice, Nat.not_le.2 hpos]

/-- `lrange key 0 -1` is the whole list. -/
theorem lrange_listAt (h : (listAt s key).length < 2 ^ 63) : lrange s key 0 (-1) = some (listAt s key) := by
  have hrange := listRange_whole h
  cases he : s.lookup key with
  | none => simp [lrange, he, listAt]
  | some e =>
    obtain ⟨typ, exp⟩ := e
    cases typ <;> simp_all [lrange, listAt, Value.asList]

theorem llen_listAt (h : ListOrNone s key) : llen s key = Int64.ofNat (listAt s key).length := by
  obtain ⟨hn, hl⟩ | ⟨exp, he⟩ := h.cases
  · rw [hl]
    simp only [llen, hn]
    rfl
  · simp [llen, he]

theorem lindex_listAt (h : ListOrNone s key) (idx : Int64) : lindex s key idx = listIndex (listAt s key) idx := by
  obtain ⟨hn, hl⟩ | ⟨exp, he⟩ := h.cases
  · rw [hl]
    simp [lindex, hn, listIndex]
  · simp [lindex, he]

/-- Positions count from the head, negative ones from the tail. -/
def indexFrom (l : List String) (i : Int) : Option String :=
  if 0 ≤ i then l[i.toNat]? else l.reverse[(-i - 1).toNat]?

theorem listIndex_eq {l : List String} (h : l.length < 2 ^ 63) (idx : Int64) :
    listIndex l idx = indexFrom l idx.toInt := by
  have hlow := Int64.le_toInt idx
  have hlen := Int64.toInt_ofNat_of_lt h
  have hzero : (0 : Int64).toInt = 0 := rfl
  simp only [listIndex, indexFrom, ge_iff_le]
  by_cases hneg : idx < 0
  · have hneg' : idx.toInt < 0 := by simpa [hzero] using Int64.lt_iff_toInt_lt.1 hneg
    have hsum : (Int64.ofNat l.length + idx).toInt = l.length + idx.toInt := by
      rw [toInt_add_of_bounds (by omega) (by omega), hlen]
    rw [if_pos hneg, if_neg (show ¬0 ≤ idx.toInt by omega)]
    by_cases hin : 0 ≤ (l.length : Int) + idx.toInt
    · have hle : 0 ≤ Int64.ofNat l.length + idx := by
        rw [Int64.le_iff_toInt_le, hsum, hzero]
        exact hin
      rw [if_pos hle, asUsize_of_nonneg (by omega), hsum, List.getElem?_reverse (by omega)]
      congr 1
      omega
    · have hlt : ¬0 ≤ Int64.ofNat l.length + idx := by
        rw [Int64.le_iff_toInt_le, hsum, hzero]
        exact hin
      rw [if_neg hlt, List.getElem?_eq_none (by simp; omega)]
  · have hpos : 0 ≤ idx := Int64.not_lt.1 hneg
    have hpos' : 0 ≤ idx.toInt := by simpa [hzero] using Int64.le_iff_toInt_le.1 hpos
    rw [if_neg hneg, if_pos hpos, if_pos hpos', asUsize_of_nonneg hpos']

end RedisOps.Store
