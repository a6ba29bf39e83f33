import RedisOps.Lib.Bytes

/-!
# Text: the `str` methods of the Rust standard library

Strings are Lean strings (valid UTF-8, like Rust's `String`); the methods that look at characters are
defined on the list of characters.

* `utf8` / `fromUtf8` / `fromUtf8Lossy` — `as_bytes`, `String::from_utf8`, `String::from_utf8_lossy`;
* `splitOnce`, `splitn`, `stripPrefix`, `startsWith`, `endsWith`, `contains`, `join`;
* `parseI64`, `parseU32`, `parseU64` — `str::parse`: an optional sign, then decimal digits only;
* `toLowercase`.
-/

namespace RedisOps.Lib

/-! ## UTF-8 -/

def utf8 (s : String) : Bytes := s.toByteArray.data.toList

def fromUtf8 (bs : Bytes) : Option String := String.fromUTF8? ⟨bs.toArray⟩

theorem fromUtf8_utf8 (s : String) : fromUtf8 (utf8 s) = some s := by
  have hb : (⟨(utf8 s).toArray⟩ : ByteArray) = s.toByteArray := by simp [utf8]
  rw [fromUtf8, hb, String.fromUTF8?, dif_pos s.isValidUTF8]
  rfl

theorem utf8_of_fromUtf8 {bs : Bytes} {s : String} (h : fromUtf8 bs = some s) : utf8 s = bs := by
  rw [fromUtf8, String.fromUTF8?] at h
  split at h
  · cases h
    simp [utf8, String.fromUTF8]
  · cases h

theorem utf8_injective {s t : String} (h : utf8 s = utf8 t) : s = t := by
  have := congrArg fromUtf8 h
  simpa [fromUtf8_utf8] using this

/-- The width a leading byte announces (`core::str::utf8_char_width`). -/
def utf8CharWidth (b : UInt8) : Nat :=
  if b < 0x80 then 1 else if b < 0xC2 then 0 else if b < 0xE0 then 2 else if b < 0xF0 then 3
  else if b < 0xF5 then 4 else 0

/-- Which second bytes may follow a leading byte of width 3 or 4. -/
def secondByteOk (b c : UInt8) : Bool :=
  if b = 0xE0 then 0xA0 ≤ c && c ≤ 0xBF
  else if b = 0xED then 0x80 ≤ c && c ≤ 0x9F
  else if b = 0xF0 then 0x90 ≤ c && c ≤ 0xBF
  else if b = 0xF4 then 0x80 ≤ c && c ≤ 0x8F
  else 0x80 ≤ c && c ≤ 0xBF

def isCont (c : UInt8) : Bool := 0x80 ≤ c && c ≤ 0xBF

/-- One step of `Utf8Chunks`: the character that starts with `b`, or the replacement character for
    the longest prefix of an ill-formed sequence, and how many of the following bytes it takes. -/
def lossyStep (b : UInt8) (rest : Bytes) : Char × Nat :=
  let bad := Char.ofNat 0xFFFD
  match utf8CharWidth b, rest with
  | 1, _ => (Char.ofNat b.toNat, 0)
  | 2, c :: _ => if isCont c then (Char.ofNat ((b.toNat - 0xC0) * 64 + (c.toNat - 0x80)), 1) else (bad, 0)
  | 3, c :: d :: _ =>
    if secondByteOk b c then
      if isCont d then
        (Char.ofNat ((b.toNat - 0xE0) * 4096 + (c.toNat - 0x80) * 64 + (d.toNat - 0x80)), 2)
      else (bad, 1)
    else (bad, 0)
  | 3, [c] => if secondByteOk b c then (bad, 1) else (bad, 0)
  | 4, c :: d :: e :: _ =>
    if secondByteOk b c then
      if isCont d then
        if isCont e then
          (Char.ofNat ((b.toNat - 0xF0) * 262144 + (c.toNat - 0x80) * 4096 + (d.toNat - 0x80) * 64
            + (e.toNat - 0x80)), 3)
        else (bad, 2)
      else (bad, 1)
    else (bad, 0)
  | 4, [c, d] => if secondByteOk b c then (if isCont d then (bad, 2) else (bad, 1)) else (bad, 0)
  | 4, [c] => if secondByteOk b c then (bad, 1) else (bad, 0)
  | _, _ => (bad, 0)

/-- The characters of `bs`; `fuel` counts bytes left, and every step takes at least one. -/
def lossyChars : Nat → Bytes → List Char
  | 0, _ => []
  | _, [] => []
  | fuel + 1, b :: rest =>
    let (c, n) := lossyStep b rest
    c :: lossyChars fuel (rest.drop n)

def fromUtf8Lossy (bs : Bytes) : String := String.ofList (lossyChars bs.length bs)

/-! ## Splitting and matching -/

def splitOnceChars (c : Char) : List Char → Option (List Char × List Char)
  | [] => none
  | x :: xs => if x = c then some ([], xs) else (splitOnceChars c xs).map fun p => (x :: p.1, p.2)

/-- At most `n` pieces; the last one is whatever is left. -/
def splitnChars : Nat → Char → List Char → List (List Char)
  | 0, _, _ => []
  | 1, _, cs => [cs]
  | n + 2, c, cs =>
    match splitOnceChars c cs with
    | none => [cs]
    | some (a, b) => a :: splitnChars (n + 1) c b

def splitOnce (s : String) (c : Char) : Option (String × String) :=
  (splitOnceChars c s.toList).map fun p => (String.ofList p.1, String.ofList p.2)

def splitn (n : Nat) (c : Char) (s : String) : List String :=
  (splitnChars n c s.toList).map String.ofList

def startsWith (s pat : String) : Bool := pat.toList.isPrefixOf s.toList

def endsWith (s pat : String) : Bool := pat.toList.isSuffixOf s.toList

def stripPrefix (s pat : String) : Option String :=
  if startsWith s pat then some (String.ofList (s.toList.drop pat.toList.length)) else none

/-- `pat` occurs somewhere in `s`. -/
def contains (s pat : String) : Bool := s.toList.tails.any fun t => pat.toList.isPrefixOf t

def join (sep : String) (parts : List String) : String := sep.intercalate parts

theorem startsWith_append (pat s : String) : startsWith (pat ++ s) pat = true := by
  simp [startsWith]

/-- What is behind a text as long as the pattern does not count. -/
theorem startsWith_append_left {s pat : String} (h : pat.toList.length ≤ s.toList.length) (t : String) :
    startsWith (s ++ t) pat = startsWith s pat := by
  rw [Bool.eq_iff_iff, startsWith, startsWith, String.toList_append, List.isPrefixOf_iff_prefix, List.isPrefixOf_iff_prefix]
  exact ⟨fun hpre => List.prefix_of_prefix_length_le hpre (List.prefix_append _ _) h,
    fun hpre => hpre.trans (List.prefix_append _ _)⟩

theorem ne_of_startsWith {s t pat : String} (hs : startsWith s pat = true)
    (ht : startsWith t pat = false) : s ≠ t := by
  rintro rfl
  simp [hs] at ht

theorem splitOnceChars_eq_none {c : Char} : ∀ {cs : List Char}, splitOnceChars c cs = none ↔ c ∉ cs
  | [] => by simp [splitOnceChars]
  | x :: xs => by
    by_cases h : x = c
    · simp [splitOnceChars, h]
    · have ih := @splitOnceChars_eq_none c xs
      simp [splitOnceChars, h, ih, Ne.symm h]

theorem splitOnceChars_append {c : Char} : ∀ {a b : List Char}, c ∉ a →
    splitOnceChars c (a ++ c :: b) = some (a, b)
  | [], b, _ => by simp [splitOnceChars]
  | x :: xs, b, h => by
    have hx : x ≠ c := fun e => h (by simp [e])
    have ih := splitOnceChars_append (b := b) (fun hm : c ∈ xs => h (by simp [hm]))
    simp [splitOnceChars, hx, ih]

theorem splitOnceChars_some {c : Char} : ∀ {cs a b : List Char}, splitOnceChars c cs = some (a, b) →
    c ∉ a ∧ cs = a ++ c :: b
  | [], _, _, h => by simp [splitOnceChars] at h
  | x :: xs, a, b, h => by
    by_cases hx : x = c
    · simp only [splitOnceChars, hx, if_true, Option.some.injEq, Prod.mk.injEq] at h
      obtain ⟨rfl, rfl⟩ := h
      simp [hx]
    · simp only [splitOnceChars, hx, if_false, Option.map_eq_some_iff, Prod.mk.injEq] at h
      obtain ⟨p, hp, rfl, rfl⟩ := h
      obtain ⟨hn, he⟩ := splitOnceChars_some hp
      simp [he, hn, Ne.symm hx]

/-- A field in front of a separator is the first piece exactly when it has no separator of its own. -/
theorem splitnChars_append_eq_cons {n : Nat} {c : Char} {a b : List Char} {pieces : List (List Char)} :
    splitnChars (n + 2) c (a ++ c :: b) = a :: pieces ↔ c ∉ a ∧ splitnChars (n + 1) c b = pieces := by
  constructor
  · intro h
    cases hs : splitOnceChars c (a ++ c :: b) with
    | none => exact absurd (splitOnceChars_eq_none.1 hs) (by simp)
    | some p =>
      obtain ⟨hn, heq⟩ := splitOnceChars_some (a := p.1) (b := p.2) (by simpa using hs)
      simp only [splitnChars, hs, List.cons.injEq] at h
      obtain ⟨ha, hpieces⟩ := h
      rw [ha] at hn heq
      have hb : b = p.2 := (List.cons.inj (List.append_cancel_left heq)).2
      rw [hb]
      exact ⟨hn, hpieces⟩
  · rintro ⟨ha, rfl⟩
    simp [splitnChars, splitOnceChars_append ha]

/-- `splitn` stops early only when the separators run out. -/
theorem length_splitnChars : ∀ (n : Nat) (c : Char) (cs : List Char),
    (splitnChars (n + 1) c cs).length = min (n + 1) (cs.count c + 1)
  | 0, _, _ => by simp [splitnChars]
  | n + 1, c, cs => by
    cases h : splitOnceChars c cs with
    | none =>
      have hc : cs.count c = 0 := List.count_eq_zero.2 (splitOnceChars_eq_none.1 h)
      simp [splitnChars, h, hc]
    | some p =>
      obtain ⟨hn, rfl⟩ := splitOnceChars_some (a := p.1) (b := p.2) (by simpa using h)
      have hc : p.1.count c = 0 := List.count_eq_zero.2 hn
      have hs : splitnChars (n + 1 + 1) c (p.1 ++ c :: p.2) = p.1 :: splitnChars (n + 1) c p.2 := by
        simp [splitnChars, h]
      rw [hs, List.length_cons, length_splitnChars n c p.2]
      simp only [List.count_append, List.count_cons_self, hc]
      omega

theorem length_splitn (n : Nat) (c : Char) (s : String) :
    (splitn (n + 1) c s).length = min (n + 1) (s.toList.count c + 1) := by
  simp [splitn, length_splitnChars]

/-! ## Numbers -/

def digitsVal (cs : List Char) : Nat := cs.foldl (fun n c => 10 * n + (c.toNat - '0'.toNat)) 0

/-- Decimal digits only, at least one. -/
def parseDigits (cs : List Char) : Option Nat :=
  if cs ≠ [] ∧ cs.all Char.isDigit then some (digitsVal cs) else none

def parseUnsigned (bound : Nat) (s : String) : Option Nat :=
  let ds := match s.toList with
    | '+' :: ds => ds
    | ds => ds
  (parseDigits ds).filter (· < bound)

def parseU32 (s : String) : Option UInt32 := (parseUnsigned (2 ^ 32) s).map UInt32.ofNat
def parseU64 (s : String) : Option UInt64 := (parseUnsigned (2 ^ 64) s).map UInt64.ofNat

def parseI64 (s : String) : Option Int64 :=
  match s.toList with
  | '-' :: ds => ((parseDigits ds).filter (· ≤ 2 ^ 63)).map fun n => Int64.ofInt (-n)
  | '+' :: ds => ((parseDigits ds).filter (· < 2 ^ 63)).map Int64.ofNat
  | ds => ((parseDigits ds).filter (· < 2 ^ 63)).map Int64.ofNat

/-! ## Case -/

/-- `char::to_lowercase` as far as a comparison with an ASCII word can tell: besides `A`-`Z`, only the
    Kelvin sign lowercases to an ASCII string. -/
def lowercaseChar (c : Char) : Char := if c = Char.ofNat 0x212A then 'k' else c.toLower

def toLowercase (s : String) : String := String.ofList (s.toList.map lowercaseChar)

end RedisOps.Lib
