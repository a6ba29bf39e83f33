import RedisOps.Lib.Text

/-!
# Reading UTF-8 back

`from_utf8_lossy` reads the characters of a string back from their bytes (`lossyChars_encode`). Cut within a character, the
rest of that character is read as one replacement character for each byte (`lossyChars_cont`).
-/

namespace RedisOps.Lib

theorem utf8_eq_flatMap (s : String) : utf8 s = s.toList.flatMap String.utf8EncodeChar := by
  rw [utf8, ← String.utf8Encode_toList, List.utf8Encode]
  simp

/-! ## Bytes given as numbers -/

theorem utf8CharWidth_ofNat {n : Nat} (h : n < 256) : utf8CharWidth (UInt8.ofNat n) =
    if n < 128 then 1 else if n < 194 then 0 else if n < 224 then 2 else if n < 240 then 3 else if n < 245 then 4
    else 0 := by
  simp [utf8CharWidth, UInt8.lt_iff_toNat_lt, Nat.mod_eq_of_lt h]

theorem isCont_ofNat {n : Nat} (h : n < 256) : isCont (UInt8.ofNat n) = true ↔ 128 ≤ n ∧ n ≤ 191 := by
  simp [isCont, UInt8.le_iff_toNat_le, Nat.mod_eq_of_lt h]

/-- Of the continuation bytes only a few are refused behind some leading bytes. -/
theorem secondByteOk_ofNat {b c : Nat} (hb : b < 256) (hc : 128 ≤ c ∧ c ≤ 191) (hE0 : b = 224 → 160 ≤ c)
    (hED : b = 237 → c ≤ 159) (hF0 : b = 240 → 144 ≤ c) (hF4 : b = 244 → c ≤ 143) :
    secondByteOk (UInt8.ofNat b) (UInt8.ofNat c) = true := by
  have hmod : c % 256 = c := Nat.mod_eq_of_lt (by omega)
  simp only [secondByteOk, ← UInt8.toNat_inj, UInt8.le_iff_toNat_le]
  simp only [UInt8.toNat_ofNat', UInt8.toNat_ofNat, Nat.mod_eq_of_lt hb, hmod]
  grind

/-- The bytes of a character: the leading one announces how many follow. -/
theorem lossyStep_utf8EncodeChar (c : Char) (rest : Bytes) : ∃ b tail, String.utf8EncodeChar c = b :: tail ∧
    (∀ d ∈ tail, isCont d = true) ∧ lossyStep b (tail ++ rest) = (c, tail.length) := by
  have hvalid : c.val.toNat < 0xd800 ∨ 0xdfff < c.val.toNat ∧ c.val.toNat < 0x110000 := c.valid
  have hchar : Char.ofNat c.val.toNat = c := Char.ofNat_toNat c
  simp only [String.utf8EncodeChar]
  generalize c.val.toNat = v at hchar hvalid
  have hcont : ∀ n, isCont (UInt8.ofNat (n % 64 + 128)) = true := by
    intro n
    rw [isCont_ofNat (by omega)]
    omega
  have hlow : ∀ n, (UInt8.ofNat (n % 64 + 128)).toNat = n % 64 + 128 := by
    intro n
    rw [UInt8.toNat_ofNat', Nat.mod_eq_of_lt (by omega)]
  split
  · -- one byte
    refine ⟨_, [], rfl, by simp, ?_⟩
    have hwidth : utf8CharWidth (UInt8.ofNat v) = 1 := by
      rw [utf8CharWidth_ofNat (by omega), if_pos (by omega)]
    simp only [lossyStep, hwidth]
    rw [UInt8.toNat_ofNat', Nat.mod_eq_of_lt (by omega), hchar]
    rfl
  · split
    · -- two
      refine ⟨_, _, rfl, by simp only [List.forall_mem_cons, hcont, true_and]; simp, ?_⟩
      have hwidth : utf8CharWidth (UInt8.ofNat (v / 64 % 32 + 192)) = 2 := by
        rw [utf8CharWidth_ofNat (by omega), if_neg (by omega), if_neg (by omega), if_pos (by omega)]
      have hlead : (UInt8.ofNat (v / 64 % 32 + 192)).toNat = v / 64 % 32 + 192 := by
        rw [UInt8.toNat_ofNat', Nat.mod_eq_of_lt (by omega)]
      have hval : (v / 64 % 32 + 192 - 192) * 64 + (v % 64 + 128 - 128) = v := by omega
      simp only [lossyStep, hwidth, List.cons_append, hcont, if_true, hlead, hlow, hval, hchar]
      rfl
    · split
      · -- three
        refine ⟨_, _, rfl, by simp only [List.forall_mem_cons, hcont, true_and]; simp, ?_⟩
        have hwidth : utf8CharWidth (UInt8.ofNat (v / 4096 % 16 + 224)) = 3 := by
          rw [utf8CharWidth_ofNat (by omega), if_neg (by omega), if_neg (by omega), if_neg (by omega), if_pos (by omega)]
        have hlead : (UInt8.ofNat (v / 4096 % 16 + 224)).toNat = v / 4096 % 16 + 224 := by
          rw [UInt8.toNat_ofNat', Nat.mod_eq_of_lt (by omega)]
        have hok := @secondByteOk_ofNat (v / 4096 % 16 + 224) (v / 64 % 64 + 128) (by omega) (by omega) (by omega)
          (by omega) (by omega) (by omega)
        have hval : (v / 4096 % 16 + 224 - 224) * 4096 + (v / 64 % 64 + 128 - 128) * 64 + (v % 64 + 128 - 128) = v := by
          omega
        simp only [lossyStep, hwidth, List.cons_append, hcont, hok, if_true, hlead, hlow, hval, hchar]
        rfl
      · -- four
        refine ⟨_, _, rfl, by simp only [List.forall_mem_cons, hcont, true_and]; simp, ?_⟩
        have hwidth : utf8CharWidth (UInt8.ofNat (v / 262144 % 8 + 240)) = 4 := by
          rw [utf8CharWidth_ofNat (by omega), if_neg (by omega), if_neg (by omega), if_neg (by omega),
            if_neg (by omega), if_pos (by omega)]
        have hlead : (UInt8.ofNat (v / 262144 % 8 + 240)).toNat = v / 262144 % 8 + 240 := by
          rw [UInt8.toNat_ofNat', Nat.mod_eq_of_lt (by omega)]
        have hok := @secondByteOk_ofNat (v / 262144 % 8 + 240) (v / 4096 % 64 + 128) (by omega) (by omega) (by omega)
          (by omega) (by omega) (by omega)
        have hval : (v / 262144 % 8 + 240 - 240) * 262144 + (v / 4096 % 64 + 128 - 128) * 4096 +
            (v / 64 % 64 + 128 - 128) * 64 + (v % 64 + 128 - 128) = v := by omega
        simp only [lossyStep, hwidth, List.cons_append, hcont, hok, if_true, hlead, hlow, hval, hchar]
        rfl

/-! ## Whole strings -/

/-- `U+FFFD`. -/
def replacement : Char := Char.ofNat 0xFFFD

theorem lossyStep_cont {b : UInt8} (h : isCont b = true) (rest : Bytes) : lossyStep b rest = (replacement, 0) := by
  have hb : b = UInt8.ofNat b.toNat := by simp
  have hlt : b.toNat < 256 := b.toNat_lt
  rw [hb, isCont_ofNat hlt] at h
  have hwidth : utf8CharWidth b = 0 := by
    rw [hb, utf8CharWidth_ofNat hlt, if_neg (by omega), if_pos (by omega)]
  simp only [lossyStep, hwidth]
  rfl

/-- The bytes of a string are read back as its characters. -/
theorem lossyChars_encode : ∀ {cs : List Char} {fuel : Nat}, (cs.flatMap String.utf8EncodeChar).length ≤ fuel →
    lossyChars fuel (cs.flatMap String.utf8EncodeChar) = cs
  | [], fuel, _ => by cases fuel <;> rfl
  | c :: cs, fuel, h => by
    obtain ⟨b, tail, henc, -, hstep⟩ := lossyStep_utf8EncodeChar c (cs.flatMap String.utf8EncodeChar)
    rw [List.flatMap_cons, henc, List.cons_append] at h ⊢
    simp only [List.length_cons, List.length_append] at h
    obtain ⟨fuel, rfl⟩ : ∃ n, fuel = n + 1 := ⟨fuel - 1, by omega⟩
    simp only [lossyChars, hstep, List.drop_left]
    rw [lossyChars_encode (by omega)]

/-- Continuation bytes without their leading one. -/
theorem lossyChars_cont {cs : List Char} : ∀ {bs : Bytes} {fuel : Nat}, (∀ b ∈ bs, isCont b = true) →
    (bs ++ cs.flatMap String.utf8EncodeChar).length ≤ fuel →
    lossyChars fuel (bs ++ cs.flatMap String.utf8EncodeChar) = List.replicate bs.length replacement ++ cs
  | [], fuel, _, hfuel => by simpa using lossyChars_encode hfuel
  | b :: bs, fuel, hbs, hfuel => by
    obtain ⟨hb, hbs⟩ := List.forall_mem_cons.1 hbs
    simp only [List.cons_append, List.length_cons] at hfuel ⊢
    obtain ⟨fuel, rfl⟩ : ∃ n, fuel = n + 1 := ⟨fuel - 1, by omega⟩
    simp only [lossyChars, lossyStep_cont hb, List.drop_zero]
    rw [lossyChars_cont hbs (by omega), List.replicate_succ, List.cons_append]

/-- Reading a string without its first byte: what is left of the first character becomes replacement characters. -/
theorem fromUtf8Lossy_tail {s : String} {c : Char} {cs : List Char} (hs : s.toList = c :: cs) :
    (fromUtf8Lossy ((utf8 s).drop 1)).toList = List.replicate ((String.utf8EncodeChar c).length - 1) replacement ++ cs := by
  obtain ⟨b, tail, henc, hcont, -⟩ := lossyStep_utf8EncodeChar c []
  rw [fromUtf8Lossy, utf8_eq_flatMap, hs, List.flatMap_cons, henc, String.toList_ofList]
  simpa using lossyChars_cont hcont (Nat.le_refl _)

/-- No byte of a string is `0xff`. -/
theorem lt_of_mem_utf8 {s : String} {b : UInt8} (h : b ∈ utf8 s) : b < 255 := by
  rw [utf8_eq_flatMap] at h
  obtain ⟨c, -, hb⟩ := List.mem_flatMap.1 h
  have hsmall : ∀ n < 255, UInt8.ofNat n < 255 := by
    intro n hn
    rw [UInt8.lt_iff_toNat_lt, UInt8.toNat_ofNat', Nat.mod_eq_of_lt (by omega)]
    exact hn
  simp only [String.utf8EncodeChar] at hb
  split at hb
  · obtain rfl := List.mem_singleton.1 hb
    exact hsmall _ (by omega)
  · split at hb
    · simp only [List.mem_cons, List.not_mem_nil, or_false] at hb
      rcases hb with rfl | rfl <;> exact hsmall _ (by omega)
    · split at hb
      · simp only [List.mem_cons, List.not_mem_nil, or_false] at hb
        rcases hb with rfl | rfl | rfl <;> exact hsmall _ (by omega)
      · simp only [List.mem_cons, List.not_mem_nil, or_false] at hb
        rcases hb with rfl | rfl | rfl | rfl <;> exact hsmall _ (by omega)

end RedisOps.Lib
