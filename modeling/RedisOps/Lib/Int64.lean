import Mathlib.Algebra.Order.Ring.Int

/-!
# `i64` against the integers

`toInt` of the operations where they do not wrap, and of the cast to `u64`.
-/

namespace RedisOps.Lib

theorem toInt_max (a b : Int64) : (max a b).toInt = max a.toInt b.toInt := by
  change (if a ≤ b then b else a).toInt = _
  by_cases h : a ≤ b
  · rw [if_pos h, max_eq_right (Int64.le_iff_toInt_le.1 h)]
  · have hlt := Int64.lt_iff_toInt_lt.1 (Int64.not_le.1 h)
    rw [if_neg h, max_eq_left hlt.le]

theorem toInt_min (a b : Int64) : (min a b).toInt = min a.toInt b.toInt := by
  change (if a ≤ b then a else b).toInt = _
  by_cases h : a ≤ b
  · rw [if_pos h, min_eq_left (Int64.le_iff_toInt_le.1 h)]
  · have hlt := Int64.lt_iff_toInt_lt.1 (Int64.not_le.1 h)
    rw [if_neg h, min_eq_right hlt.le]

theorem toInt_add_of_bounds {a b : Int64} (hlo : -2 ^ 63 ≤ a.toInt + b.toInt) (hhi : a.toInt + b.toInt < 2 ^ 63) :
    (a + b).toInt = a.toInt + b.toInt := by
  rw [Int64.toInt_add]
  exact Int.bmod_eq_of_le (by omega) (by omega)

/-- A negative value comes out of the cast `2^64` higher. -/
theorem toNat_toUInt64 (a : Int64) : (a.toUInt64.toNat : Int) = if 0 ≤ a.toInt then a.toInt else 2 ^ 64 + a.toInt := by
  have hcond : a.toInt = if 2 * a.toUInt64.toNat < 2 ^ 64 then (a.toUInt64.toNat : Int) else
      (a.toUInt64.toNat : Int) - (2 ^ 64 : Nat) := BitVec.toInt_eq_toNat_cond a.toBitVec
  have hlt := a.toUInt64.toNat_lt
  split at hcond <;> split <;> omega

end RedisOps.Lib
