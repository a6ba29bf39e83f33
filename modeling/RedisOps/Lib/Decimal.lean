import Mathlib.Data.List.TakeWhile
import RedisOps.Lib.Bytes

/-!
# Decimal numbers of the C++ standard library

* `toDecimal` — `std::to_string` of an unsigned integer: the digits, most significant first, no sign.
* `stoull` — `std::stoull` with base 10: white space, an optional sign, at least one digit, and whatever follows the
  digits is ignored. No digits (`invalid_argument`) and a value of `2^64` or more (`out_of_range`) are `none`; a minus
  sign negates modulo `2^64`.

`stoull_toDecimal` is the round trip; `stoull_toDecimal_append` is for a number in a text.
-/

namespace RedisOps.Lib

def charByte (c : Char) : UInt8 := UInt8.ofNat c.toNat

/-- The bytes of an ASCII text. -/
def ascii (s : String) : Bytes := s.toList.map charByte

def toDecimal (n : Nat) : Bytes := (Nat.toDigits 10 n).map charByte

/-- `isspace`. -/
def isSpaceByte (b : UInt8) : Bool := b == 32 || (9 ≤ b && b ≤ 13)

def isDigitByte (b : UInt8) : Bool := 48 ≤ b && b ≤ 57

def decimalVal (ds : Bytes) : Nat := ds.foldl (fun n b => 10 * n + (b.toNat - 48)) 0

/-- An optional sign, and what follows it. -/
def stripSign : Bytes → Bool × Bytes
  | 43 :: bs => (false, bs)
  | 45 :: bs => (true, bs)
  | bs => (false, bs)

def stoull (bs : Bytes) : Option UInt64 :=
  let (neg, rest) := stripSign (bs.dropWhile isSpaceByte)
  let ds := rest.takeWhile isDigitByte
  if ds = [] ∨ 2 ^ 64 ≤ decimalVal ds then none
  else some (if neg then -UInt64.ofNat (decimalVal ds) else UInt64.ofNat (decimalVal ds))

theorem toNat_charByte {c : Char} (h : c.isDigit = true) : (charByte c).toNat = c.toNat := by
  have hle : c.toNat ≤ 57 := by
    simp only [Char.isDigit, Bool.and_eq_true, decide_eq_true_eq] at h
    exact h.2
  rw [charByte, UInt8.toNat_ofNat']
  omega

theorem isDigitByte_iff {b : UInt8} : isDigitByte b = true ↔ 48 ≤ b.toNat ∧ b.toNat ≤ 57 := by
  simp [isDigitByte, UInt8.le_iff_toNat_le]

/-- A digit is none of the bytes outside their range. -/
theorem isDigitByte_ne {b c : UInt8} (h : isDigitByte b = true) (hc : isDigitByte c = false) : b ≠ c := by
  rintro rfl
  rw [h] at hc
  cases hc

theorem isSpaceByte_digit {b : UInt8} (h : isDigitByte b = true) : isSpaceByte b = false := by
  have h32 := isDigitByte_ne h (show isDigitByte 32 = false from rfl)
  obtain ⟨hlow, -⟩ := isDigitByte_iff.1 h
  have h13 : ¬b ≤ 13 := by
    rw [UInt8.le_iff_toNat_le]
    simp
    omega
  simp [isSpaceByte, h32, h13]

theorem stripSign_digit {b : UInt8} (h : isDigitByte b = true) (bs : Bytes) : stripSign (b :: bs) = (false, b :: bs) := by
  have hplus := isDigitByte_ne h (show isDigitByte 43 = false from rfl)
  have hminus := isDigitByte_ne h (show isDigitByte 45 = false from rfl)
  unfold stripSign
  split
  · rename_i heq
    exact absurd (List.cons.inj heq).1 hplus
  · rename_i heq
    exact absurd (List.cons.inj heq).1 hminus
  · rfl

theorem isDigitByte_charByte {c : Char} (h : c.isDigit = true) : isDigitByte (charByte c) = true := by
  rw [isDigitByte_iff, toNat_charByte h]
  simp only [Char.isDigit, Bool.and_eq_true, decide_eq_true_eq] at h
  exact h

theorem isDigitByte_of_mem_toDecimal {n : Nat} {b : UInt8} (h : b ∈ toDecimal n) : isDigitByte b = true := by
  obtain ⟨c, hc, rfl⟩ := List.mem_map.1 h
  exact isDigitByte_charByte (Nat.isDigit_of_mem_toDigits (by decide) (by decide) hc)

theorem toDecimal_ne_nil (n : Nat) : toDecimal n ≠ [] := by
  simp [toDecimal, Nat.toDigits_ne_nil]

theorem decimalVal_map {cs : List Char} (h : ∀ c ∈ cs, c.isDigit = true) :
    decimalVal (cs.map charByte) = Nat.ofDigitChars 10 cs 0 := by
  unfold decimalVal
  rw [List.foldl_map, Nat.ofDigitChars_eq_foldl]
  apply List.foldl_ext
  intro n c hc
  rw [toNat_charByte (h c hc)]
  rfl

@[simp] theorem decimalVal_toDecimal (n : Nat) : decimalVal (toDecimal n) = n := by
  rw [toDecimal, decimalVal_map fun c hc => Nat.isDigit_of_mem_toDigits (by decide) (by decide) hc,
    Nat.ofDigitChars_ten_toDigits]

theorem toDecimal_injective {m n : Nat} (h : toDecimal m = toDecimal n) : m = n := by
  rw [← decimalVal_toDecimal m, h, decimalVal_toDecimal]

theorem not_mem_toDecimal {q : UInt8} (hq : isDigitByte q = false) (n : Nat) : q ∉ toDecimal n := by
  intro hmem
  exact isDigitByte_ne (isDigitByte_of_mem_toDecimal hmem) hq rfl

/-! ## Numbers in a text -/

/-- Nothing at its start that a number could go on with. -/
def NoDigitFirst (bs : Bytes) : Prop := ∀ b ∈ bs.head?, isDigitByte b = false

theorem takeWhile_digits_append {ds rest : Bytes} (hds : ∀ b ∈ ds, isDigitByte b = true) (hrest : NoDigitFirst rest) :
    (ds ++ rest).takeWhile isDigitByte = ds := by
  rw [List.takeWhile_append_of_pos hds]
  cases rest with
  | nil => simp
  | cons b rest =>
    rw [List.takeWhile_cons_of_neg (by simp [hrest b rfl]), List.append_nil]

theorem dropWhile_blank_append {blank rest : Bytes} (hblank : ∀ b ∈ blank, isSpaceByte b = true) :
    (blank ++ rest).dropWhile isSpaceByte = rest.dropWhile isSpaceByte := by
  induction blank with
  | nil => rfl
  | cons b blank ih =>
    obtain ⟨hb, hblank⟩ := List.forall_mem_cons.1 hblank
    rw [List.cons_append, List.dropWhile_cons_of_pos hb, ih hblank]

theorem dropWhile_space_toDecimal (n : Nat) (rest : Bytes) :
    (toDecimal n ++ rest).dropWhile isSpaceByte = toDecimal n ++ rest := by
  obtain ⟨d, ds, hds⟩ := List.exists_cons_of_ne_nil (toDecimal_ne_nil n)
  have hd : isDigitByte d = true := isDigitByte_of_mem_toDecimal (n := n) (by simp [hds])
  rw [hds, List.cons_append, List.dropWhile_cons_of_neg (by simp [isSpaceByte_digit hd])]

theorem stripSign_toDecimal (n : Nat) (rest : Bytes) :
    stripSign (toDecimal n ++ rest) = (false, toDecimal n ++ rest) := by
  obtain ⟨d, ds, hds⟩ := List.exists_cons_of_ne_nil (toDecimal_ne_nil n)
  have hd : isDigitByte d = true := isDigitByte_of_mem_toDecimal (n := n) (by simp [hds])
  rw [hds, List.cons_append, stripSign_digit hd]

/-- A printed number is read, whatever follows it. -/
theorem stoull_toDecimal_append (v : UInt64) {blank rest : Bytes} (hblank : ∀ b ∈ blank, isSpaceByte b = true)
    (hrest : NoDigitFirst rest) : stoull (blank ++ (toDecimal v.toNat ++ rest)) = some v := by
  have hlt := v.toNat_lt
  have hdigits : (toDecimal v.toNat ++ rest).takeWhile isDigitByte = toDecimal v.toNat :=
    takeWhile_digits_append (fun b hb => isDigitByte_of_mem_toDecimal hb) hrest
  unfold stoull
  simp only [dropWhile_blank_append hblank, dropWhile_space_toDecimal, stripSign_toDecimal, hdigits, decimalVal_toDecimal]
  rw [if_neg (by simp [toDecimal_ne_nil, hlt])]
  simp

/-- A byte that no number goes on with ends it. -/
theorem stoull_append_stop {q : UInt8} (hspace : isSpaceByte q = false) (hdigit : isDigitByte q = false) (hplus : q ≠ 43)
    (hminus : q ≠ 45) (text rest : Bytes) : stoull (text ++ q :: rest) = stoull text := by
  have hdrop : (text ++ q :: rest).dropWhile isSpaceByte = text.dropWhile isSpaceByte ++ q :: rest := by
    induction text with
    | nil => rw [List.nil_append, List.dropWhile_cons_of_neg (by simp [hspace])]; rfl
    | cons b text ih =>
      by_cases hb : isSpaceByte b = true
      · rw [List.cons_append, List.dropWhile_cons_of_pos hb, List.dropWhile_cons_of_pos hb, ih]
      · rw [List.cons_append, List.dropWhile_cons_of_neg hb, List.dropWhile_cons_of_neg hb, List.cons_append]
  have hsign : ∀ bs : Bytes, stripSign (bs ++ q :: rest) = ((stripSign bs).1, (stripSign bs).2 ++ q :: rest) := by
    intro bs
    unfold stripSign
    cases bs with
    | nil => split <;> simp_all
    | cons b bs => split <;> simp_all
  have hdigits : ∀ bs : Bytes, (bs ++ q :: rest).takeWhile isDigitByte = bs.takeWhile isDigitByte := by
    intro bs
    induction bs with
    | nil => rw [List.nil_append, List.takeWhile_cons_of_neg (by simp [hdigit])]; rfl
    | cons b bs ih => rw [List.cons_append, List.takeWhile_cons, List.takeWhile_cons, ih]
  unfold stoull
  simp only [hdrop, hsign, hdigits]

theorem stoull_toDecimal (v : UInt64) : stoull (toDecimal v.toNat) = some v := by
  have hread : stoull ([] ++ (toDecimal v.toNat ++ [])) = some v :=
    stoull_toDecimal_append v (by simp) (by simp [NoDigitFirst])
  simpa using hread

end RedisOps.Lib
