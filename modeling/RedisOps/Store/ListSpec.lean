import RedisOps.Store.Lists

/-!
# `lrange` and `lrem` against their readings

| here | what is meant |
| --- | --- |
| `rangeOf` | the elements from one position to another, both included, negative positions counted from the end |
| `remOf`   | the list without the first, the last or all occurrences of a value |

Both commands do their index arithmetic in `i64`, and each has one argument at which it wraps. `stop + 1` wraps at
`i64::MAX`: `lrange` then slices up to `2^63` and panics (`lrange_iff`). `-count` wraps at `i64::MIN`: the loop of
`lrem` then has a negative bound and removes nothing (`lrem_iff`).
-/

namespace RedisOps.Store

open Lib

variable {F : Type} {s : Data F} {key : String}

/-! ## Ranges -/

/-- A position as Redis reads it: a negative one counts from the end. -/
def norm (len : Nat) (i : Int) : Int := if i < 0 then len + i else i

/-- The elements at the positions from `start` to `stop`, in order. -/
def rangeOf (l : List String) (start stop : Int) : List String :=
  (l.zipIdx.filter fun x => norm l.length start ≤ x.2 ∧ x.2 ≤ norm l.length stop).map Prod.fst

theorem filter_zipIdx (lo hi : Int) : ∀ (l : List String) (k : Nat),
    ((l.zipIdx k).filter fun x => lo ≤ x.2 ∧ x.2 < hi).map Prod.fst =
      (l.drop (lo - k).toNat).take (hi - max lo k).toNat
  | [], k => by simp
  | v :: l, k => by
    have ih := filter_zipIdx lo hi l (k + 1)
    push_cast at ih
    rw [List.zipIdx_cons, List.filter_cons]
    by_cases hlo : lo ≤ k
    · have hd : (lo - k).toNat = 0 := by omega
      have hd' : (lo - (k + 1)).toNat = 0 := by omega
      rw [hd'] at ih
      by_cases hhi : (k : Int) < hi
      · obtain ⟨m, hm⟩ : ∃ m, (hi - max lo k).toNat = m + 1 := ⟨(hi - max lo k).toNat - 1, by omega⟩
        have hm' : (hi - max lo (k + 1)).toNat = m := by omega
        rw [if_pos (by simp [hlo, hhi]), List.map_cons, ih, hd, hm, hm']
        simp
      · have hm : (hi - max lo k).toNat = 0 := by omega
        have hm' : (hi - max lo (k + 1)).toNat = 0 := by omega
        rw [if_neg (by simp [hhi]), ih, hd, hm, hm']
        simp
    · obtain ⟨m, hm⟩ : ∃ m, (lo - k).toNat = m + 1 := ⟨(lo - k).toNat - 1, by omega⟩
      have hm' : (lo - (k + 1)).toNat = m := by omega
      have hmax : max lo (k : Int) = max lo (k + 1) := by omega
      rw [if_neg (by simp [hlo]), ih, hm, hm', hmax]
      simp

theorem rangeOf_eq (l : List String) (start stop : Int) : rangeOf l start stop =
    (l.drop (norm l.length start).toNat).take (norm l.length stop + 1 - max (norm l.length start) 0).toNat := by
  have h := filter_zipIdx (norm l.length start) (norm l.length stop + 1) l 0
  simp only [Int.lt_add_one_iff, Nat.cast_zero, sub_zero] at h
  exact h

/-- The first position of the slice. -/
theorem asUsize_start {l : List String} (h : l.length < 2 ^ 63) (start : Int64) :
    asUsize (if start < 0 then max (Int64.ofNat l.length + start) 0 else start) =
      (norm l.length start.toInt).toNat := by
  have hlow := Int64.le_toInt start
  have hzero : (0 : Int64).toInt = 0 := rfl
  have hlen := Int64.toInt_ofNat_of_lt h
  unfold norm
  by_cases hneg : start < 0
  · have hneg' : start.toInt < 0 := Int64.lt_iff_toInt_lt.1 hneg
    have hsum := toInt_add_of_bounds (a := Int64.ofNat l.length) (b := start) (by omega) (by omega)
    have hmax := toInt_max (Int64.ofNat l.length + start) 0
    rw [if_pos hneg, if_pos hneg', asUsize_of_nonneg (by omega)]
    omega
  · have hpos : 0 ≤ start.toInt := Int64.le_iff_toInt_le.1 (Int64.not_lt.1 hneg)
    rw [if_neg hneg, if_neg (by omega), asUsize_of_nonneg hpos]

/-- The end of the slice, unless `stop + 1` wraps. -/
theorem asUsize_stop {l : List String} (h : l.length < 2 ^ 63) {stop : Int64} (hmax : stop ≠ Int64.maxValue) :
    asUsize (if stop < 0 then max (Int64.ofNat l.length + stop + 1) 0 else min (stop + 1) (Int64.ofNat l.length)) =
      min (norm l.length stop.toInt + 1).toNat l.length := by
  have hlow := Int64.le_toInt stop
  have hhigh := Int64.toInt_lt stop
  have hzero : (0 : Int64).toInt = 0 := rfl
  have hone : (1 : Int64).toInt = 1 := rfl
  have hlen := Int64.toInt_ofNat_of_lt h
  unfold norm
  by_cases hneg : stop < 0
  · have hneg' : stop.toInt < 0 := Int64.lt_iff_toInt_lt.1 hneg
    have hsum := toInt_add_of_bounds (a := Int64.ofNat l.length) (b := stop) (by omega) (by omega)
    have hsucc := toInt_add_of_bounds (a := Int64.ofNat l.length + stop) (b := 1) (by omega) (by omega)
    have hmax := toInt_max (Int64.ofNat l.length + stop + 1) 0
    rw [if_pos hneg, if_pos hneg', asUsize_of_nonneg (by omega)]
    omega
  · have hpos : 0 ≤ stop.toInt := Int64.le_iff_toInt_le.1 (Int64.not_lt.1 hneg)
    have hlast : stop.toInt ≠ 2 ^ 63 - 1 := fun hl => hmax (Int64.toInt_inj.1 hl)
    have hsucc := toInt_add_of_bounds (a := stop) (b := 1) (by omega) (by omega)
    have hmin := toInt_min (stop + 1) (Int64.ofNat l.length)
    rw [if_neg hneg, if_neg (by omega), asUsize_of_nonneg (by omega)]
    omega

theorem listRange_eq {l : List String} (h : l.length < 2 ^ 63) (start : Int64) {stop : Int64}
    (hmax : stop ≠ Int64.maxValue) : listRange l start stop = some (rangeOf l start.toInt stop.toInt) := by
  simp only [listRange, asUsize_start h, asUsize_stop h hmax, rangeOf_eq]
  generalize norm l.length start.toInt = a
  generalize norm l.length stop.toInt = b
  split
  · -- nothing between the two, or the first is behind the list
    rw [Option.some.injEq, eq_comm, List.take_eq_nil_iff, List.drop_eq_nil_iff]
    omega
  · rw [if_neg (by omega), slice, Option.some.injEq, List.take_eq_take_iff, List.length_drop]
    omega

/-- `stop + 1` wraps, and the slice ends behind every list. -/
theorem listRange_maxValue {l : List String} (h : l.length < 2 ^ 63) (start : Int64) :
    listRange l start Int64.maxValue = none := by
  have hlow := Int64.le_toInt start
  have hhigh := Int64.toInt_lt start
  have hlen := Int64.toInt_ofNat_of_lt h
  have hneg : ¬(Int64.maxValue : Int64) < 0 := by decide
  have hwrap : Int64.maxValue + 1 = Int64.minValue := by decide
  have hmin : min Int64.minValue (Int64.ofNat l.length) = Int64.minValue := if_pos (Int64.minValue_le _)
  have hend : asUsize Int64.minValue = 2 ^ 63 := rfl
  simp only [listRange, asUsize_start h, hneg, if_false, hwrap, hmin, hend]
  have hstart : (norm l.length start.toInt).toNat < 2 ^ 63 := by
    unfold norm
    split <;> omega
  rw [if_neg (by omega), if_pos (by omega)]

/-- The same for a key that may have no entry. -/
theorem lrange_eq_rangeOf (h : ListOrNone s key) (hlen : (listAt s key).length < 2 ^ 63) (start : Int64) {stop : Int64}
    (hmax : stop ≠ Int64.maxValue) :
    lrange s key start stop = some (rangeOf (listAt s key) start.toInt stop.toInt) := by
  obtain ⟨hn, hl⟩ | ⟨exp, he⟩ := h.cases
  · rw [hl]
    simp [lrange, hn, rangeOf]
  · have hlist : lrange s key start stop = listRange (listAt s key) start stop := by simp only [lrange, he]
    rw [hlist, listRange_eq hlen start hmax]

/-- The last position for a limit. It wraps for the least one. -/
theorem toInt_sub_one {limit : Int64} (h : limit ≠ Int64.minValue) :
    (limit - 1).toInt = limit.toInt - 1 ∧ limit - 1 ≠ Int64.maxValue := by
  have hlow := Int64.le_toInt limit
  have hhigh := Int64.toInt_lt limit
  have hne : limit.toInt ≠ -2 ^ 63 := fun heq => h (Int64.toInt_inj.1 heq)
  have hone : (1 : Int64).toInt = 1 := rfl
  have hsub : (limit - 1).toInt = limit.toInt - 1 := by
    rw [Int64.toInt_sub, hone]
    exact Int.bmod_eq_of_le (by omega) (by omega)
  refine ⟨hsub, ?_⟩
  intro heq
  have hmax := congrArg Int64.toInt heq
  rw [hsub, Int64.toInt_maxValue] at hmax
  omega

/-- `lrange` from the head with a limit: 0 is no limit, a negative one leaves out elements at the end. -/
theorem lrange_head (h : ListOrNone s key) (hlen : (listAt s key).length < 2 ^ 63) {limit : Int64}
    (hlimit : limit ≠ Int64.minValue) :
    lrange s key 0 (limit - 1) =
      some ((listAt s key).take (norm (listAt s key).length (limit.toInt - 1) + 1).toNat) := by
  obtain ⟨hsub, hmax⟩ := toInt_sub_one hlimit
  have hzero : (0 : Int64).toInt = 0 := rfl
  have hnorm : norm (listAt s key).length 0 = 0 := rfl
  rw [lrange_eq_rangeOf h hlen 0 hmax, hsub, hzero, rangeOf_eq, hnorm, Int.toNat_zero, List.drop_zero, max_self, Int.sub_zero]

/-- **`lrange`.** The elements asked for, unless `stop` is `i64::MAX`. -/
theorem lrange_iff {l : List String} {exp : Option Nat} (h : s.lookup key = some ⟨.list l, exp⟩)
    (hlen : l.length < 2 ^ 63) (start stop : Int64) :
    lrange s key start stop = some (rangeOf l start.toInt stop.toInt) ↔ stop ≠ Int64.maxValue := by
  have hrange : lrange s key start stop = listRange l start stop := by simp only [lrange, h]
  rw [hrange]
  constructor
  · rintro heq rfl
    rw [listRange_maxValue hlen] at heq
    cases heq
  · exact listRange_eq hlen start

/-- The last two of three. -/
theorem lrange_iff_three :
    (insertNew (∅ : Data ℚ) "k" (.list ["a", "b", "c"])).lookup "k" = some ⟨.list ["a", "b", "c"], none⟩ ∧
      rangeOf ["a", "b", "c"] (-2) (-1) = ["b", "c"] ∧
      (lrange (insertNew (∅ : Data ℚ) "k" (.list ["a", "b", "c"])) "k" (-2) (-1) =
        some (rangeOf ["a", "b", "c"] (-2) (-1)) ↔ (-1 : Int64) ≠ Int64.maxValue) := by
  have h : (insertNew (∅ : Data ℚ) "k" (.list ["a", "b", "c"])).lookup "k" = some ⟨.list ["a", "b", "c"], none⟩ := rfl
  exact ⟨h, by decide, lrange_iff h (by decide) (-2) (-1)⟩

/-- `LRANGE k 0 9223372036854775807` on a list of one element. -/
theorem lrange_panics : rangeOf ["a"] 0 Int64.maxValue.toInt = ["a"] ∧
    lrange (insertNew (∅ : Data ℚ) "k" (.list ["a"])) "k" 0 Int64.maxValue = none := by
  decide

/-! ## Occurrences -/

/-- The list without the first `n` occurrences of a value. -/
def eraseFirst (val : String) (n : Nat) (l : List String) : List String := (List.erase · val)^[n] l

/-- The list without the first `count` occurrences, the last `-count`, or all of them. -/
def remOf (l : List String) (count : Int) (val : String) : List String :=
  if count = 0 then l.filter (· ≠ val)
  else if 0 < count then eraseFirst val count.toNat l
  else (eraseFirst val (-count).toNat l.reverse).reverse

theorem eraseFirst_zero (val : String) (l : List String) : eraseFirst val 0 l = l := rfl

theorem eraseFirst_nil (val : String) (n : Nat) : eraseFirst val n [] = [] := Function.iterate_fixed rfl n

theorem eraseFirst_cons_self (val : String) (n : Nat) (l : List String) :
    eraseFirst val (n + 1) (val :: l) = eraseFirst val n l := by
  simp [eraseFirst]

theorem eraseFirst_cons_ne {val v : String} (hv : v ≠ val) : ∀ (n : Nat) (l : List String),
    eraseFirst val n (v :: l) = v :: eraseFirst val n l
  | 0, l => rfl
  | n + 1, l => by
    have herase : (v :: l).erase val = v :: l.erase val := by simp [hv]
    have ih := eraseFirst_cons_ne hv n (l.erase val)
    simp only [eraseFirst, Function.iterate_succ_apply, herase] at ih ⊢
    exact ih

theorem length_eraseFirst_le (val : String) : ∀ (n : Nat) (l : List String),
    (eraseFirst val n l).length ≤ l.length
  | 0, l => le_refl _
  | n + 1, l => by
    have ih := length_eraseFirst_le val n (l.erase val)
    have herase := l.length_erase_le (a := val)
    simp only [eraseFirst, Function.iterate_succ_apply] at ih ⊢
    omega

theorem length_eraseFirst_lt {val : String} {l : List String} (h : val ∈ l) (n : Nat) :
    (eraseFirst val (n + 1) l).length < l.length := by
  have hle := length_eraseFirst_le val n (l.erase val)
  have herase := List.length_erase_of_mem h
  have hpos := List.length_pos_of_mem h
  simp only [eraseFirst, Function.iterate_succ_apply] at hle ⊢
  omega

/-- The counter of the closure ends at `count`, or at the number of occurrences. -/
theorem retainCount_eq (val : String) (count : Int64) : ∀ (l : List String) (removed : Int64), 0 ≤ removed.toInt →
    removed.toInt ≤ count.toInt →
    (retainCount val count l removed).1 = eraseFirst val (count.toInt - removed.toInt).toNat l ∧
      (retainCount val count l removed).2.toInt =
        removed.toInt + (l.length - (eraseFirst val (count.toInt - removed.toInt).toNat l).length)
  | [], removed, _, _ => by simp [retainCount, eraseFirst_nil]
  | v :: l, removed, h0, hle => by
    have hhigh := Int64.toInt_lt count
    have hskip := retainCount_eq val count l removed h0 hle
    rw [retainCount]
    by_cases hv : v = val
    · subst hv
      by_cases hlt : removed < count
      · have hlt' := Int64.lt_iff_toInt_lt.1 hlt
        have hone : (1 : Int64).toInt = 1 := rfl
        have hsucc := toInt_add_of_bounds (a := removed) (b := 1) (by omega) (by omega)
        obtain ⟨hl, hr⟩ := retainCount_eq v count l (removed + 1) (by omega) (by omega)
        obtain ⟨n, hn⟩ : ∃ n, (count.toInt - removed.toInt).toNat = n + 1 :=
          ⟨(count.toInt - removed.toInt).toNat - 1, by omega⟩
        have hn' : (count.toInt - (removed + 1).toInt).toNat = n := by omega
        rw [hn'] at hl hr
        rw [if_pos ⟨rfl, hlt⟩, hn, eraseFirst_cons_self, List.length_cons]
        refine ⟨hl, ?_⟩
        push_cast
        omega
      · have hge := Int64.le_iff_toInt_le.1 (Int64.not_lt.1 hlt)
        have hn : (count.toInt - removed.toInt).toNat = 0 := by omega
        obtain ⟨hl, hr⟩ := hskip
        rw [hn, eraseFirst_zero] at hl hr
        rw [if_neg (fun h => hlt h.2), hn, eraseFirst_zero]
        refine ⟨congrArg _ hl, ?_⟩
        dsimp only
        omega
    · obtain ⟨hl, hr⟩ := hskip
      rw [if_neg (fun h => hv h.1), eraseFirst_cons_ne hv]
      refine ⟨congrArg _ hl, ?_⟩
      simp only [List.length_cons]
      push_cast
      omega

/-- The loop from the back has dealt with the elements from `i` on. -/
theorem removeBack_eq (val : String) (absCount : Int64) : ∀ (i : Nat) (l : List String) (removed : Int64),
    i ≤ l.length → 0 ≤ removed.toInt → removed.toInt ≤ absCount.toInt →
    (removeBack val absCount i l removed).1 =
        (eraseFirst val (absCount.toInt - removed.toInt).toNat (l.take i).reverse).reverse ++ l.drop i ∧
      (removeBack val absCount i l removed).2.toInt =
        removed.toInt + (i - (eraseFirst val (absCount.toInt - removed.toInt).toNat (l.take i).reverse).length)
  | 0, l, removed, _, _, _ => by simp [removeBack, eraseFirst_nil]
  | i + 1, l, removed, hi, h0, hle => by
    have hhigh := Int64.toInt_lt absCount
    have hget : l[i]? = some (l.get ⟨i, hi⟩) := by simp
    have htake : (l.take (i + 1)).reverse = l.get ⟨i, hi⟩ :: (l.take i).reverse := by
      rw [List.take_add_one, hget]
      simp
    have hdrop : l.drop i = l.get ⟨i, hi⟩ :: l.drop (i + 1) := List.drop_eq_getElem_cons hi
    have hskip := removeBack_eq val absCount i l removed (by omega) h0 hle
    rw [removeBack, htake, hget]
    by_cases hlt : removed < absCount
    · rw [if_pos hlt]
      by_cases hv : l.get ⟨i, hi⟩ = val
      · have hlt' := Int64.lt_iff_toInt_lt.1 hlt
        have hone : (1 : Int64).toInt = 1 := rfl
        have hsucc := toInt_add_of_bounds (a := removed) (b := 1) (by omega) (by omega)
        have herase : l.eraseIdx i = l.take i ++ l.drop (i + 1) := List.eraseIdx_eq_take_drop_succ l i
        have hlen : (l.take i).length = i := by simp; omega
        obtain ⟨hl, hr⟩ := removeBack_eq val absCount i (l.eraseIdx i) (removed + 1)
          (by rw [List.length_eraseIdx_of_lt hi]; omega) (by omega) (by omega)
        rw [herase, List.take_left' hlen] at hl hr
        rw [List.drop_left' hlen] at hl
        obtain ⟨n, hn⟩ : ∃ n, (absCount.toInt - removed.toInt).toNat = n + 1 :=
          ⟨(absCount.toInt - removed.toInt).toNat - 1, by omega⟩
        have hn' : (absCount.toInt - (removed + 1).toInt).toNat = n := by omega
        rw [hn'] at hl hr
        rw [if_pos (congrArg _ hv), hv, hn, eraseFirst_cons_self, herase]
        refine ⟨hl, ?_⟩
        push_cast
        omega
      · obtain ⟨hl, hr⟩ := hskip
        rw [if_neg (fun h => hv (Option.some.inj h)), eraseFirst_cons_ne hv]
        refine ⟨by rw [hl, hdrop]; simp, ?_⟩
        rw [List.length_cons]
        push_cast
        omega
    · have hge := Int64.le_iff_toInt_le.1 (Int64.not_lt.1 hlt)
      have hn : (absCount.toInt - removed.toInt).toNat = 0 := by omega
      rw [if_neg hlt, hn, eraseFirst_zero, ← htake]
      refine ⟨by simp, ?_⟩
      rw [List.length_reverse, List.length_take]
      dsimp only
      omega

theorem length_remOf_le (l : List String) (count : Int) (val : String) : (remOf l count val).length ≤ l.length := by
  unfold remOf
  split
  · exact List.length_filter_le _ _
  · split
    · exact length_eraseFirst_le _ _ _
    · rw [List.length_reverse]
      exact (length_eraseFirst_le _ _ _).trans (by rw [List.length_reverse])

/-- Something is removed if it occurs at all. -/
theorem remOf_ne {l : List String} {count : Int} (hcount : count < 0) {val : String} (h : val ∈ l) :
    remOf l count val ≠ l := by
  obtain ⟨n, hn⟩ : ∃ n, (-count).toNat = n + 1 := ⟨(-count).toNat - 1, by omega⟩
  have hlt := length_eraseFirst_lt (List.mem_reverse.2 h) n
  intro heq
  have hlen := congrArg List.length heq
  rw [remOf, if_neg (by omega), if_neg (by omega), hn] at hlen
  simp only [List.length_reverse] at hlen hlt
  omega

/-- Nothing to remove. -/
theorem remOf_of_notMem {l : List String} (count : Int) {val : String} (h : val ∉ l) : remOf l count val = l := by
  have hfix : ∀ {l : List String} (n : Nat), val ∉ l → eraseFirst val n l = l := fun n h =>
    Function.iterate_fixed (List.erase_of_not_mem h) n
  unfold remOf
  split
  · apply List.filter_eq_self.2
    intro v hv
    simpa using fun heq : v = val => h (heq ▸ hv)
  · split
    · exact hfix _ h
    · rw [hfix _ (by simpa using h), List.reverse_reverse]

theorem listRem_eq {l : List String} (hlen : l.length < 2 ^ 63) {count : Int64} (hmin : count ≠ Int64.minValue)
    (val : String) : (listRem l count val).1 = remOf l count.toInt val ∧
      (listRem l count val).2.toInt = l.length - (remOf l count.toInt val).length := by
  have hzero : (0 : Int64).toInt = 0 := rfl
  have hle := length_remOf_le l count.toInt val
  unfold listRem remOf
  by_cases h0 : count = 0
  · subst h0
    have hfilter := List.length_filter_le (fun v => decide (v ≠ val)) l
    rw [if_pos rfl, if_pos hzero]
    refine ⟨rfl, ?_⟩
    rw [Int64.toInt_ofNat_of_lt (by omega)]
    push_cast [hfilter]
    rfl
  · have h0' : count.toInt ≠ 0 := fun h => h0 (Int64.toInt_inj.1 h)
    rw [if_neg h0, if_neg h0']
    by_cases hpos : count > 0
    · have hpos' : 0 < count.toInt := Int64.lt_iff_toInt_lt.1 hpos
      obtain ⟨hl, hr⟩ := retainCount_eq val count l 0 (by decide) (by omega)
      rw [hzero, sub_zero] at hl hr
      rw [if_pos hpos, if_pos hpos']
      exact ⟨hl, by omega⟩
    · have hneg' : count.toInt ≤ 0 := Int64.le_iff_toInt_le.1 (Int64.not_lt.1 hpos)
      have hlow := Int64.le_toInt count
      have hlast : count.toInt ≠ -2 ^ 63 := fun hl => hmin (Int64.toInt_inj.1 hl)
      have habs : (-count).toInt = -count.toInt := by
        rw [Int64.toInt_neg]
        exact Int.bmod_eq_of_le (by omega) (by omega)
      obtain ⟨hl, hr⟩ := removeBack_eq val (-count) l.length l 0 (le_refl _) (by decide) (by omega)
      rw [hzero, sub_zero, habs, List.take_length] at hl hr
      rw [List.drop_length, List.append_nil] at hl
      rw [if_neg hpos, if_neg (by omega), List.length_reverse]
      exact ⟨hl, by omega⟩

/-- `-i64::MIN` is negative: the loop stops at once. -/
theorem listRem_minValue (l : List String) (val : String) : listRem l Int64.minValue val = (l, 0) := by
  have h0 : Int64.minValue ≠ 0 := by decide
  have hpos : ¬Int64.minValue > 0 := by decide
  have hneg : -Int64.minValue = Int64.minValue := by decide
  have hlt : ¬(0 : Int64) < Int64.minValue := by decide
  rw [listRem, if_neg h0, if_neg hpos, hneg]
  cases l.length with
  | zero => rfl
  | succ i => rw [removeBack, if_neg hlt]

/-- **`lrem`.** What is asked for is removed and counted, unless `count` is `i64::MIN` and the value occurs. -/
theorem lrem_iff {l : List String} {exp : Option Nat} (h : s.lookup key = some ⟨.list l, exp⟩)
    (hlen : l.length < 2 ^ 63) (count : Int64) (val : String) :
    ((lrem s key count val).2.lookup key = some ⟨.list (remOf l count.toInt val), exp⟩ ∧
      (lrem s key count val).1.toInt = l.length - (remOf l count.toInt val).length) ↔
        count ≠ Int64.minValue ∨ val ∉ l := by
  have hrem : lrem s key count val = ((listRem l count val).2, setTyp s key ⟨.list l, exp⟩ (.list (listRem l count val).1)) := by
    simp only [lrem, h]
  have hlookup : (lrem s key count val).2.lookup key = some ⟨.list (listRem l count val).1, exp⟩ := by
    rw [hrem]
    exact AList.lookup_insert _
  rw [hlookup, hrem]
  simp only [Option.some.injEq, Entry.mk.injEq, Value.list.injEq, and_true]
  by_cases hmin : count = Int64.minValue
  · subst hmin
    rw [listRem_minValue]
    by_cases hval : val ∈ l
    · have hne : remOf l Int64.minValue.toInt val ≠ l := remOf_ne (by decide) hval
      exact iff_of_false (fun heq => hne heq.1.symm) (by simp [hval])
    · rw [remOf_of_notMem _ hval]
      exact iff_of_true ⟨rfl, by simp⟩ (.inr hval)
  · exact iff_of_true (listRem_eq hlen hmin val) (.inl hmin)

/-- The last of two. -/
theorem lrem_iff_last :
    (insertNew (∅ : Data ℚ) "k" (.list ["a", "b", "a"])).lookup "k" = some ⟨.list ["a", "b", "a"], none⟩ ∧
      remOf ["a", "b", "a"] (-1) "a" = ["a", "b"] ∧
      (((lrem (insertNew (∅ : Data ℚ) "k" (.list ["a", "b", "a"])) "k" (-1) "a").2.lookup "k" =
          some ⟨.list (remOf ["a", "b", "a"] (-1) "a"), none⟩ ∧
        (lrem (insertNew (∅ : Data ℚ) "k" (.list ["a", "b", "a"])) "k" (-1) "a").1.toInt =
          3 - (remOf ["a", "b", "a"] (-1) "a").length) ↔ (-1 : Int64) ≠ Int64.minValue ∨ "a" ∉ ["a", "b", "a"]) := by
  have h : (insertNew (∅ : Data ℚ) "k" (.list ["a", "b", "a"])).lookup "k" = some ⟨.list ["a", "b", "a"], none⟩ := rfl
  exact ⟨h, by decide, lrem_iff h (by decide) (-1) "a"⟩

/-- `LREM k -9223372036854775808 a` on a list of one `a` removes nothing. -/
theorem lrem_keeps : remOf ["a"] Int64.minValue.toInt "a" ≠ ["a"] ∧
    (lrem (insertNew (∅ : Data ℚ) "k" (.list ["a"])) "k" Int64.minValue "a").1 = 0 ∧
    (lrem (insertNew (∅ : Data ℚ) "k" (.list ["a"])) "k" Int64.minValue "a").2.lookup "k" =
      some ⟨.list ["a"], none⟩ :=
  ⟨remOf_ne (by decide) (by decide), rfl, rfl⟩

end RedisOps.Store
