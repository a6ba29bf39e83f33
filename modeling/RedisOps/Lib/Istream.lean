import RedisOps.Lib.Decimal

/-!
# Input streams of the C++ standard library

* `getlines` — the lines that `std::getline` gives one after another.
* `IStream` — what is left of a stream, and whether an extraction has failed (`failbit`). After a failure nothing is extracted
  and the variable keeps its value.
* `IStream.unsigned` — `>>` into an unsigned integer of `w` bits, base 10: white space, a sign, digits. Without digits the
  variable becomes 0, with too many the largest value, and both times the extraction fails.
-/

namespace RedisOps.Lib

/-- Nothing behind the last newline is no line. -/
def getlines (text : Bytes) : List Bytes :=
  let pieces := text.splitOn 10
  if pieces.getLast? = some [] then pieces.dropLast else pieces

structure IStream where
  rest : Bytes
  ok : Bool := true

namespace IStream

/-- `>>` into a `std::string`, which nothing reads. -/
def word (s : IStream) : IStream :=
  let rest := s.rest.dropWhile isSpaceByte
  if s.ok = false ∨ rest = [] then { s with ok := false }
  else { s with rest := rest.dropWhile fun b => !isSpaceByte b }

/-- The value that was `old`, and the stream behind it. -/
def unsigned (w old : Nat) (s : IStream) : Nat × IStream :=
  let rest := s.rest.dropWhile isSpaceByte
  if s.ok = false ∨ rest = [] then (old, { s with ok := false }) else
  let (neg, rest) := stripSign rest
  let ds := rest.takeWhile isDigitByte
  let val := decimalVal ds
  if ds = [] then (0, ⟨rest, false⟩)
  else if 2 ^ w ≤ val then (2 ^ w - 1, ⟨rest.drop ds.length, false⟩)
  else (if neg then (2 ^ w - val) % 2 ^ w else val, ⟨rest.drop ds.length, true⟩)

end IStream

/-! ## Numbers -/

/-- A printed number is read, whatever follows it. -/
theorem IStream.unsigned_toDecimal {w n : Nat} (hn : n < 2 ^ w) (old : Nat) {blank rest : Bytes}
    (hblank : ∀ b ∈ blank, isSpaceByte b = true) (hrest : NoDigitFirst rest) :
    IStream.unsigned w old ⟨blank ++ (toDecimal n ++ rest), true⟩ = (n, ⟨rest, true⟩) := by
  have hne : toDecimal n ++ rest ≠ [] := by simp [toDecimal_ne_nil]
  have hdigits : (toDecimal n ++ rest).takeWhile isDigitByte = toDecimal n :=
    takeWhile_digits_append (fun b hb => isDigitByte_of_mem_toDecimal hb) hrest
  unfold IStream.unsigned
  simp only [dropWhile_blank_append hblank, dropWhile_space_toDecimal, stripSign_toDecimal, hdigits, decimalVal_toDecimal,
    List.drop_left]
  rw [if_neg (by simp [hne]), if_neg (toDecimal_ne_nil n), if_neg (by omega)]
  rfl

end RedisOps.Lib
