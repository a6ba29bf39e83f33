import RedisOps.Lib.Bytes

/-!
# Bits of byte strings and of words

* `bitAt b p` — bit `p` of a byte string, from the low end of its first byte on; `false` behind the end.
* `countTrue f n` — at how many of the first `n` positions `f` holds. Over a byte string that is the sum of its bytes'
  counts (`sum_countTrue`), as long as the positions reach its end (`countTrue_of_le`); changing one bit changes it by
  that bit (`countTrue_update`).
* `gather f n` — the word with the first `n ≤ 64` bits of `f` (`testBit_gather`).
-/

namespace RedisOps.Lib

/-! ## One bit of a word -/

theorem testBit_one_shiftLeft {k : Nat} (hk : k < 8) (j : Nat) :
    (1 <<< UInt8.ofNat k : UInt8).toNat.testBit j = decide (j = k) := by
  have hmask : (1 <<< UInt8.ofNat k : UInt8).toNat = 2 ^ k := by
    have hpow : 2 ^ k < 2 ^ 8 := Nat.pow_lt_pow_right (by decide) hk
    rw [UInt8.toNat_shiftLeft, UInt8.toNat_ofNat', Nat.mod_eq_of_lt (show k < 2 ^ 8 by omega), Nat.mod_eq_of_lt hk,
      UInt8.toNat_one, Nat.one_shiftLeft, Nat.mod_eq_of_lt hpow]
  rw [hmask, Nat.testBit_two_pow]
  simp [eq_comm]

theorem testBit_lor_mask (x : UInt8) {k : Nat} (hk : k < 8) (j : Nat) :
    (x ||| 1 <<< UInt8.ofNat k).toNat.testBit j = (x.toNat.testBit j || decide (j = k)) := by
  rw [UInt8.toNat_or, Nat.testBit_or, testBit_one_shiftLeft hk]

theorem testBit_land_mask (x : UInt8) {k : Nat} (hk : k < 8) {j : Nat} (hj : j < 8) :
    (x &&& ~~~(1 <<< UInt8.ofNat k)).toNat.testBit j = (x.toNat.testBit j && !decide (j = k)) := by
  have hnot : (~~~(1 <<< UInt8.ofNat k : UInt8)).toNat = 2 ^ 8 - ((1 <<< UInt8.ofNat k : UInt8).toNat + 1) := by
    have := (1 <<< UInt8.ofNat k : UInt8).toNat_lt
    have hsize : UInt8.size = 2 ^ 8 := rfl
    rw [UInt8.toNat_not]
    omega
  rw [UInt8.toNat_and, Nat.testBit_and, hnot, Nat.testBit_two_pow_sub_succ (UInt8.toNat_lt _), testBit_one_shiftLeft hk]
  simp [hj]

/-- `(x >> k) & 1 == 1` -/
theorem shiftRight_land_one (x : UInt8) {k : Nat} (hk : k < 8) :
    ((x >>> UInt8.ofNat k) &&& 1 = 1) ↔ x.toNat.testBit k = true := by
  rw [← UInt8.toNat_inj, UInt8.toNat_and, UInt8.toNat_shiftRight, UInt8.toNat_ofNat',
    Nat.mod_eq_of_lt (show k < 2 ^ 8 by omega), Nat.mod_eq_of_lt hk, UInt8.toNat_one, Nat.and_one_is_mod,
    Nat.testBit_eq_decide_div_mod_eq, Nat.shiftRight_eq_div_pow, decide_eq_true_eq]

/-! ## Bits of a byte string -/

def bitAt (b : Bytes) (p : Nat) : Bool := (b[p / 8]?.getD 0).toNat.testBit (p % 8)

theorem bitAt_of_le {b : Bytes} {p : Nat} (h : 8 * b.length ≤ p) : bitAt b p = false := by
  rw [bitAt, List.getElem?_eq_none (by omega)]
  simp

theorem bitAt_append_zeros (b : Bytes) (n p : Nat) : bitAt (b ++ List.replicate n 0) p = bitAt b p := by
  unfold bitAt
  by_cases hp : p / 8 < b.length
  · rw [List.getElem?_append_left hp]
  · rw [List.getElem?_append_right (by omega), List.getElem?_replicate, List.getElem?_eq_none (by omega : b.length ≤ p / 8)]
    split <;> rfl

theorem bitAt_modify {b : Bytes} {i : Nat} (hi : i < b.length) (f : UInt8 → UInt8) (p : Nat) :
    bitAt (b.modify i f) p = if p / 8 = i then (f b[i]).toNat.testBit (p % 8) else bitAt b p := by
  unfold bitAt
  rw [List.getElem?_modify]
  by_cases hp : p / 8 = i
  · subst hp
    simp [List.getElem?_eq_getElem hi]
  · simp [hp, Ne.symm hp]

/-! ## Counting -/

def countTrue (f : Nat → Bool) (n : Nat) : Nat := (List.range n).countP f

theorem countTrue_add (f : Nat → Bool) (m n : Nat) :
    countTrue f (m + n) = countTrue f m + countTrue (fun p => f (m + p)) n := by
  rw [countTrue, List.range_add, List.countP_append, List.countP_map]
  rfl

theorem countTrue_congr {f g : Nat → Bool} {n : Nat} (h : ∀ p < n, f p = g p) : countTrue f n = countTrue g n := by
  apply List.countP_congr
  intro p hp
  rw [h p (List.mem_range.1 hp)]

theorem countTrue_eq_zero {f : Nat → Bool} {n : Nat} (h : ∀ p < n, f p = false) : countTrue f n = 0 := by
  apply List.countP_eq_zero.2
  intro p hp
  simp [h p (List.mem_range.1 hp)]

theorem countTrue_le (f : Nat → Bool) (n : Nat) : countTrue f n ≤ n := by
  have hle := List.countP_le_length (p := f) (l := List.range n)
  rwa [List.length_range] at hle

/-- Positions at which nothing holds do not count. -/
theorem countTrue_of_le {f : Nat → Bool} {m n : Nat} (hmn : m ≤ n) (h : ∀ p, m ≤ p → f p = false) :
    countTrue f n = countTrue f m := by
  obtain ⟨k, rfl⟩ := Nat.exists_eq_add_of_le hmn
  rw [countTrue_add, countTrue_eq_zero fun p _ => h (m + p) (by omega), Nat.add_zero]

/-- One position changed. -/
theorem countTrue_update {f g : Nat → Bool} {p n : Nat} (hp : p < n) (h : ∀ q, q ≠ p → g q = f q) :
    countTrue g n + (f p).toNat = countTrue f n + (g p).toNat := by
  obtain ⟨k, rfl⟩ := Nat.exists_eq_add_of_lt hp
  have hone : ∀ f : Nat → Bool, countTrue f 1 = (f 0).toNat := by
    intro f
    cases hf : f 0 <;> simp [countTrue, hf]
  have hleft : countTrue g p = countTrue f p := countTrue_congr fun q hq => h q (by omega)
  have hright : countTrue (fun q => g (p + (1 + q))) k = countTrue (fun q => f (p + (1 + q))) k :=
    countTrue_congr fun q _ => h _ (by omega)
  have hsplit : ∀ f : Nat → Bool, countTrue f (p + k + 1) =
      countTrue f p + ((f p).toNat + countTrue (fun q => f (p + (1 + q))) k) := by
    intro f
    rw [show p + k + 1 = p + (1 + k) by omega, countTrue_add, countTrue_add _ 1, hone]
    rfl
  rw [hsplit, hsplit, hleft, hright]
  omega

theorem bitAt_cons_low (x : UInt8) (b : Bytes) {p : Nat} (hp : p < 8) : bitAt (x :: b) p = x.toNat.testBit p := by
  rw [bitAt, Nat.div_eq_of_lt hp, Nat.mod_eq_of_lt hp]
  rfl

theorem bitAt_cons_high (x : UInt8) (b : Bytes) (p : Nat) : bitAt (x :: b) (8 + p) = bitAt b p := by
  rw [bitAt, bitAt, Nat.add_div_left p (by decide), Nat.add_mod_left, List.getElem?_cons_succ]

/-- The bytes' counts add up to the number of set positions. -/
theorem sum_countTrue : ∀ b : Bytes,
    (b.map fun x => countTrue (fun i => x.toNat.testBit i) 8).sum = countTrue (bitAt b) (8 * b.length)
  | [] => rfl
  | x :: b => by
    have hlow : countTrue (bitAt (x :: b)) 8 = countTrue (fun i => x.toNat.testBit i) 8 :=
      countTrue_congr fun p hp => bitAt_cons_low x b hp
    have hhigh : countTrue (fun p => bitAt (x :: b) (8 + p)) (8 * b.length) = countTrue (bitAt b) (8 * b.length) :=
      countTrue_congr fun p _ => bitAt_cons_high x b p
    rw [List.map_cons, List.sum_cons, sum_countTrue b, List.length_cons, Nat.mul_succ, Nat.add_comm (8 * b.length) 8,
      countTrue_add, hlow, hhigh]

/-! ## Words out of bits -/

/-- The word with the first `n` bits of `f`: shift amounts are taken modulo `64`. -/
def gather (f : Nat → Bool) (n : Nat) : UInt64 :=
  (List.range n).foldl (fun r i => if f i then r ||| (1 <<< UInt64.ofNat i) else r) 0

theorem gather_succ (f : Nat → Bool) (n : Nat) :
    gather f (n + 1) = if f n then gather f n ||| (1 <<< UInt64.ofNat n) else gather f n := by
  rw [gather, List.range_succ, List.foldl_append]
  rfl

theorem gather_congr {f g : Nat → Bool} : ∀ {n : Nat}, (∀ i < n, f i = g i) → gather f n = gather g n
  | 0, _ => rfl
  | n + 1, h => by rw [gather_succ, gather_succ, h n (by omega), gather_congr fun i hi => h i (by omega)]

theorem testBit_word_mask {k : Nat} (hk : k < 64) (j : Nat) :
    (1 <<< UInt64.ofNat k : UInt64).toNat.testBit j = decide (j = k) := by
  have hmask : (1 <<< UInt64.ofNat k : UInt64).toNat = 2 ^ k := by
    have hpow : 2 ^ k < 2 ^ 64 := Nat.pow_lt_pow_right (by decide) hk
    rw [UInt64.toNat_shiftLeft, UInt64.toNat_ofNat', Nat.mod_eq_of_lt (show k < 2 ^ 64 by omega), Nat.mod_eq_of_lt hk,
      UInt64.toNat_one, Nat.one_shiftLeft, Nat.mod_eq_of_lt hpow]
  rw [hmask, Nat.testBit_two_pow]
  simp [eq_comm]

theorem testBit_gather (f : Nat → Bool) : ∀ {n : Nat}, n ≤ 64 → ∀ j,
    (gather f n).toNat.testBit j = (decide (j < n) && f j)
  | 0, _, j => by simp [gather]
  | n + 1, hn, j => by
    have ih := testBit_gather f (show n ≤ 64 by omega) j
    rw [gather_succ]
    cases hf : f n with
    | false =>
      rw [if_neg (by simp), ih]
      by_cases hj : j = n
      · subst hj
        simp [hf]
      · have hlt : j < n + 1 ↔ j < n := by omega
        simp [hlt]
    | true =>
      rw [if_pos rfl, UInt64.toNat_or, Nat.testBit_or, ih, testBit_word_mask (by omega)]
      by_cases hj : j = n
      · subst hj
        simp [hf]
      · have hlt : j < n + 1 ↔ j < n := by omega
        simp [hlt, hj]

/-- A word gathered from the bits of a number is its remainder. -/
theorem gather_eq_mod {f : Nat → Bool} {n v : Nat} (hn : n ≤ 64) (h : ∀ i < n, f i = v.testBit i) :
    (gather f n).toNat = v % 2 ^ n := by
  apply Nat.eq_of_testBit_eq
  intro j
  rw [testBit_gather f hn, Nat.testBit_mod_two_pow]
  by_cases hj : j < n
  · simp [hj, h j hj]
  · simp [hj]

/-- `(v >> i) & 1 == 1` -/
theorem word_shiftRight_land_one (v : UInt64) {i : Nat} (hi : i < 64) :
    ((v >>> UInt64.ofNat i) &&& 1 = 1) ↔ v.toNat.testBit i = true := by
  rw [← UInt64.toNat_inj, UInt64.toNat_and, UInt64.toNat_shiftRight, UInt64.toNat_ofNat',
    Nat.mod_eq_of_lt (show i < 2 ^ 64 by omega), Nat.mod_eq_of_lt hi, UInt64.toNat_one, Nat.and_one_is_mod,
    Nat.testBit_eq_decide_div_mod_eq, Nat.shiftRight_eq_div_pow, decide_eq_true_eq]

end RedisOps.Lib
