import RedisOps.Lib.Text

/-!
# Decimal numbers as text

* `parseU64_toString`, `parseI64_toString` — what `{}` formatting writes, `str::parse` reads.
* `TextBefore m n` — the order of two numbers written as text with the same terminator behind them, one that comes before
  every digit. `le_iff_textBefore` is the arithmetic: the order of the fractions `0.m` and `0.n`, and of two equal fractions
  (`0.1` and `0.10`) the shorter one first. Numbers of one length are in the order of their values (`textBefore_iff_le`).
-/

namespace RedisOps.Lib

/-! ## Round trip -/

theorem digitsVal_eq_ofDigitChars (cs : List Char) : digitsVal cs = Nat.ofDigitChars 10 cs 0 := by
  rw [Nat.ofDigitChars_eq_foldl]
  rfl

@[simp] theorem digitsVal_toDigits (n : Nat) : digitsVal (Nat.toDigits 10 n) = n := by
  rw [digitsVal_eq_ofDigitChars, Nat.ofDigitChars_ten_toDigits]

theorem toList_toString (n : Nat) : (toString n).toList = Nat.toDigits 10 n := by
  rw [Nat.toString_eq_repr, Nat.toList_repr]

theorem isDigit_of_mem_digits {n : Nat} {c : Char} (h : c ∈ Nat.toDigits 10 n) : c.isDigit = true :=
  Nat.isDigit_of_mem_toDigits (by decide) (by decide) h

/-- A separator does not occur in a number. -/
theorem not_mem_toString {sep : Char} (h : sep.isDigit = false) (n : Nat) : sep ∉ (toString n).toList := by
  rw [toList_toString]
  intro hmem
  rw [isDigit_of_mem_digits hmem] at h
  cases h

/-- Up to the first separator it is the number. -/
theorem toString_cut {sep : Char} (hsep : sep.isDigit = false) {m n : Nat} {xs ys : List Char}
    (h : (toString m).toList ++ sep :: xs = (toString n).toList ++ sep :: ys) : m = n ∧ xs = ys := by
  have hs := congrArg (splitOnceChars sep) h
  rw [splitOnceChars_append (not_mem_toString hsep m), splitOnceChars_append (not_mem_toString hsep n)] at hs
  simp only [Option.some.injEq, Prod.mk.injEq, toList_toString] at hs
  obtain ⟨hdigits, hrest⟩ := hs
  have hval := congrArg digitsVal hdigits
  rw [digitsVal_toDigits, digitsVal_toDigits] at hval
  exact ⟨hval, hrest⟩

theorem parseDigits_toDigits (n : Nat) : parseDigits (Nat.toDigits 10 n) = some n := by
  unfold parseDigits
  rw [if_pos ⟨Nat.toDigits_ne_nil, List.all_eq_true.2 fun c hc => isDigit_of_mem_digits hc⟩, digitsVal_toDigits]

theorem parseU64_toString (v : UInt64) : parseU64 (toString v.toNat) = some v := by
  unfold parseU64 parseUnsigned
  dsimp only
  rw [toList_toString]
  split
  · rename_i ds heq
    have hplus : '+' ∈ Nat.toDigits 10 v.toNat := by
      rw [heq]
      exact List.mem_cons_self
    exact absurd (isDigit_of_mem_digits hplus) (by decide)
  · rw [parseDigits_toDigits, Option.filter_some, if_pos (by simpa using v.toNat_lt)]
    simp

/-! ## Signed numbers -/

/-- `m` comes before `n` as text, or is `n`. -/
def TextBefore (m n : Nat) : Prop :=
  m * 10 ^ (Nat.toDigits 10 n).length < n * 10 ^ (Nat.toDigits 10 m).length ∨
  m * 10 ^ (Nat.toDigits 10 n).length = n * 10 ^ (Nat.toDigits 10 m).length ∧
    (Nat.toDigits 10 m).length ≤ (Nat.toDigits 10 n).length

instance (m n : Nat) : Decidable (TextBefore m n) := inferInstanceAs (Decidable (_ ∨ _))

def digitVal (c : Char) : Nat := c.toNat - '0'.toNat

theorem digitVal_lt {c : Char} (h : c.isDigit = true) : digitVal c < 10 ∧ c.toNat = digitVal c + '0'.toNat := by
  have h0 : ('0' : Char).toNat = 48 := rfl
  simp only [Char.isDigit, Bool.and_eq_true, decide_eq_true_eq, ge_iff_le, UInt32.le_iff_toNat_le] at h
  have hlow : 48 ≤ c.toNat := h.1
  have hhigh : c.toNat ≤ 57 := h.2
  unfold digitVal
  omega

theorem ofDigitChars_cons (c : Char) (cs : List Char) :
    Nat.ofDigitChars 10 (c :: cs) 0 = digitVal c * 10 ^ cs.length + Nat.ofDigitChars 10 cs 0 := by
  rw [Nat.ofDigitChars_cons, Nat.ofDigitChars_eq_ofDigitChars_zero]
  unfold digitVal
  ring

theorem ofDigitChars_lt {cs : List Char} (h : ∀ c ∈ cs, c.isDigit = true) :
    Nat.ofDigitChars 10 cs 0 < 10 ^ cs.length := by
  induction cs with
  | nil => simp
  | cons c cs ih =>
    have hc := (digitVal_lt (h c List.mem_cons_self)).1
    have hcs := ih fun d hd => h d (List.mem_cons_of_mem c hd)
    rw [ofDigitChars_cons, List.length_cons, pow_succ]
    nlinarith

theorem char_lt_iff {c d : Char} : c < d ↔ c.toNat < d.toNat := by
  rw [Char.lt_def, UInt32.lt_iff_toNat_lt]
  rfl

/-- Two numbers with one leading digit each over the unit `unit`. -/
theorem leading_lt_iff {a b u v unit : Nat} (hu : u < unit) (hv : v < unit) :
    a * unit + u < b * unit + v ↔ a < b ∨ a = b ∧ u < v := by
  rcases lt_trichotomy a b with h | rfl | h
  · have := Nat.mul_le_mul_right unit (Nat.succ_le_of_lt h)
    rw [Nat.succ_mul] at this
    omega
  · omega
  · have := Nat.mul_le_mul_right unit (Nat.succ_le_of_lt h)
    rw [Nat.succ_mul] at this
    omega

/-- Lists of digits with the terminator `t` behind them. The first digits decide unless they are equal; the rests are less
    than one unit of the digit before them. -/
theorem terminated_lt_iff {t : Char} (ht : t < '0') (rest : List Char) :
    ∀ {xs ys : List Char}, (∀ c ∈ xs, c.isDigit = true) → (∀ c ∈ ys, c.isDigit = true) →
      (xs ++ t :: rest < ys ++ t :: rest ↔
        Nat.ofDigitChars 10 xs 0 * 10 ^ ys.length < Nat.ofDigitChars 10 ys 0 * 10 ^ xs.length ∨
        Nat.ofDigitChars 10 xs 0 * 10 ^ ys.length = Nat.ofDigitChars 10 ys 0 * 10 ^ xs.length ∧ xs.length < ys.length)
  | [], [], _, _ => by simp
  | [], y :: ys, _, hy => by
    obtain ⟨-, hyval⟩ := digitVal_lt (hy y List.mem_cons_self)
    rw [char_lt_iff] at ht
    have hty : t < y := by
      rw [char_lt_iff]
      omega
    refine iff_of_true (List.cons_lt_cons_iff.2 (.inl hty)) ?_
    simp only [Nat.ofDigitChars_nil, List.length_nil, List.length_cons]
    omega
  | x :: xs, [], hx, _ => by
    obtain ⟨-, hxval⟩ := digitVal_lt (hx x List.mem_cons_self)
    rw [char_lt_iff] at ht
    refine iff_of_false ?_ ?_
    · intro hlt
      rcases List.cons_lt_cons_iff.1 hlt with hlt | ⟨heq, -⟩
      · rw [char_lt_iff] at hlt
        omega
      · rw [heq] at hxval
        omega
    · simp only [Nat.ofDigitChars_nil, List.length_nil, List.length_cons]
      omega
  | x :: xs, y :: ys, hx, hy => by
    have ih := terminated_lt_iff ht rest (fun c hc => hx c (List.mem_cons_of_mem x hc))
      (fun c hc => hy c (List.mem_cons_of_mem y hc))
    have hxs := ofDigitChars_lt fun c hc => hx c (List.mem_cons_of_mem x hc)
    have hys := ofDigitChars_lt fun c hc => hy c (List.mem_cons_of_mem y hc)
    obtain ⟨-, hxval⟩ := digitVal_lt (hx x List.mem_cons_self)
    obtain ⟨-, hyval⟩ := digitVal_lt (hy y List.mem_cons_self)
    have hheads : x < y ↔ digitVal x < digitVal y := by
      rw [char_lt_iff]
      omega
    have hsame : x = y ↔ digitVal x = digitVal y := by
      rw [← Char.toNat_inj]
      omega
    have hu := Nat.mul_lt_mul_of_pos_right hxs (Nat.pow_pos (n := ys.length) (show 0 < 10 by decide))
    have hv := Nat.mul_lt_mul_of_pos_right hys (Nat.pow_pos (n := xs.length) (show 0 < 10 by decide))
    rw [mul_comm (10 ^ ys.length)] at hv
    have hscale : ∀ c cs k, Nat.ofDigitChars 10 (c :: cs) 0 * 10 ^ (k + 1) =
        10 * (digitVal c * (10 ^ cs.length * 10 ^ k) + Nat.ofDigitChars 10 cs 0 * 10 ^ k) := by
      intro c cs k
      rw [ofDigitChars_cons]
      ring
    have hlt := leading_lt_iff (a := digitVal x) (b := digitVal y) hu hv
    have hgt := leading_lt_iff (a := digitVal y) (b := digitVal x) hv hu
    rw [List.cons_append, List.cons_append, List.cons_lt_cons_iff, ih, hheads, hsame, List.length_cons, List.length_cons,
      hscale, hscale, mul_comm (10 ^ ys.length) (10 ^ xs.length)]
    omega

/-- Two numbers as text, with the same terminator and the same rest behind them. -/
theorem le_iff_textBefore {t : Char} (ht : t < '0') (rest : List Char) (m n : Nat) :
    ¬(Nat.toDigits 10 n ++ t :: rest < Nat.toDigits 10 m ++ t :: rest) ↔ TextBefore m n := by
  rw [terminated_lt_iff ht rest (fun c hc => isDigit_of_mem_digits hc) (fun c hc => isDigit_of_mem_digits hc),
    Nat.ofDigitChars_ten_toDigits, Nat.ofDigitChars_ten_toDigits]
  unfold TextBefore
  omega

/-- Numbers with the same number of digits. -/
theorem textBefore_iff_le {m n : Nat} (h : (Nat.toDigits 10 m).length = (Nat.toDigits 10 n).length) :
    TextBefore m n ↔ m ≤ n := by
  unfold TextBefore
  rw [h, Nat.mul_lt_mul_right (Nat.pow_pos (by decide)), Nat.mul_left_inj (Nat.pow_pos (by decide)).ne']
  omega

end RedisOps.Lib
