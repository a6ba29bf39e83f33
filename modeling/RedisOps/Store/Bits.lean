import RedisOps.Store.Op
import RedisOps.Lib.Bits
import RedisOps.Lib.Utf8

/-!
# The bits under a key

`bytesAt` is the byte string a key holds, empty when there is no entry; `StrOrBytes` says that it is one, and alive.
Then `get_bit` is `bitAt` of it, and `set_bit` changes that one bit and nothing else, whichever of its three branches
it takes (`bitAt_setBit`).

`bit_laws` — get after set, and the count. Positions are `u32`, so they reach `2^29` bytes; `bitcount` also counts the
bits behind them.
-/

namespace RedisOps.Store

open Lib

variable {F : Type} {s : Data F} {key : String} {now : Nat}

/-! ## One byte string -/

theorem toNat_div_eight (bit : UInt32) : (bit / 8).toNat = bit.toNat / 8 := UInt32.toNat_div bit 8

theorem toUInt8_mod_eight (bit : UInt32) : (bit % 8).toUInt8 = UInt8.ofNat (bit.toNat % 8) := by
  apply UInt8.toNat_inj.1
  rw [UInt32.toNat_toUInt8, UInt32.toNat_mod, UInt8.toNat_ofNat']
  rfl

theorem readBit_eq (b : Bytes) (bit : UInt32) : readBit b bit = bitAt b bit.toNat := by
  have hk : bit.toNat % 8 < 8 := Nat.mod_lt _ (by decide)
  unfold readBit bitAt
  rw [toNat_div_eight, toUInt8_mod_eight]
  cases b[bit.toNat / 8]? with
  | none => simp
  | some x =>
    rw [Bool.eq_iff_iff, decide_eq_true_eq, shiftRight_land_one x hk]
    rfl

theorem bitAt_writeBit (b : Bytes) (bit : UInt32) (on : Bool) (p : Nat) :
    bitAt (writeBit b bit on) p = if p = bit.toNat then on else bitAt b p := by
  have hk : bit.toNat % 8 < 8 := Nat.mod_lt _ (by decide)
  have hp : p % 8 < 8 := Nat.mod_lt _ (by decide)
  -- the vector has been resized, which shows in no bit
  obtain ⟨n, hn⟩ : ∃ n, (if (bit / 8).toNat ≥ b.length then b ++ List.replicate ((bit / 8).toNat + 1 - b.length) 0 else b) =
      b ++ List.replicate n 0 := by
    split
    · exact ⟨_, rfl⟩
    · exact ⟨0, by simp⟩
  have hlen : bit.toNat / 8 < (b ++ List.replicate n 0).length := by
    rw [← hn, toNat_div_eight]
    split
    · rw [List.length_append, List.length_replicate]
      omega
    · omega
  unfold writeBit
  dsimp only
  rw [hn, toNat_div_eight, toUInt8_mod_eight, bitAt_modify hlen, ← bitAt_append_zeros b n p]
  by_cases hbyte : p / 8 = bit.toNat / 8
  · have hbit : p = bit.toNat ↔ p % 8 = bit.toNat % 8 := by omega
    have hold : bitAt (b ++ List.replicate n 0) p = (b ++ List.replicate n 0)[bit.toNat / 8].toNat.testBit (p % 8) := by
      rw [bitAt, hbyte, List.getElem?_eq_getElem hlen, Option.getD_some]
    rw [if_pos hbyte, hold]
    cases on with
    | true =>
      rw [if_pos rfl, testBit_lor_mask _ hk]
      by_cases h : p % 8 = bit.toNat % 8 <;> simp [hbit, h]
    | false =>
      rw [if_neg (by simp), testBit_land_mask _ hk hp]
      by_cases h : p % 8 = bit.toNat % 8 <;> simp [hbit, h]
  · rw [if_neg hbyte, if_neg (fun h => hbyte (by rw [h]))]

theorem length_writeBit (b : Bytes) (bit : UInt32) (on : Bool) :
    (writeBit b bit on).length = max b.length (bit.toNat / 8 + 1) := by
  unfold writeBit
  dsimp only
  rw [List.length_modify, toNat_div_eight]
  split
  · rw [List.length_append, List.length_replicate]
    omega
  · omega

/-! ## The value of a key -/

def Value.asBytes : Value F → Bytes
  | .str v => utf8 v
  | .bytes b => b
  | _ => []

def bytesAt (s : Data F) (key : String) : Bytes := (s.lookup key).elim [] fun e => e.typ.asBytes

/-- There is no entry, or an unexpired one that holds a string or bytes. -/
def StrOrBytes (now : Nat) (s : Data F) (key : String) : Prop :=
  ∀ e, s.lookup key = some e → e.expired now = false ∧ ((∃ v, e.typ = .str v) ∨ ∃ b, e.typ = .bytes b)

theorem strOrBytes_empty (now : Nat) (key : String) : StrOrBytes now (∅ : Data F) key := by
  intro e he
  cases he

theorem strOrBytes_setStr (now : Nat) (s : Data F) (key v : String) : StrOrBytes now (setStr s key v) key := by
  intro e he
  rw [setStr, insertNew, AList.lookup_insert] at he
  cases he
  exact ⟨rfl, .inl ⟨v, rfl⟩⟩

theorem expired_mono {e : Entry F} {t t' : Nat} (htt' : t ≤ t') (h : e.expired t' = false) : e.expired t = false := by
  unfold Entry.expired at *
  split at h
  · simp only [decide_eq_false_iff_not] at h ⊢
    omega
  · rfl

/-- What is alive at some time was alive before. -/
theorem StrOrBytes.mono {now' : Nat} (hnow : now ≤ now') (h : StrOrBytes now' s key) : StrOrBytes now s key :=
  fun e he => ⟨expired_mono hnow (h e he).1, (h e he).2⟩

theorem StrOrBytes.bitsOf (h : StrOrBytes now s key) :
    (bitsOf now s key = none ∧ bytesAt s key = []) ∨ bitsOf now s key = some (bytesAt s key) := by
  unfold Store.bitsOf bytesAt
  cases he : s.lookup key with
  | none => exact .inl ⟨rfl, rfl⟩
  | some e =>
    obtain ⟨halive, ⟨v, hv⟩ | ⟨b, hb⟩⟩ := h e he
    · exact .inr (by simp [halive, hv, Value.asBytes])
    · exact .inr (by simp [halive, hb, Value.asBytes])

theorem getBit_eq (h : StrOrBytes now s key) (bit : UInt32) : getBit now s key bit = bitAt (bytesAt s key) bit.toNat := by
  unfold getBit
  obtain ⟨hn, hb⟩ | hb := h.bitsOf
  · rw [hn, hb, bitAt_of_le (by simp)]
  · rw [hb]
    exact readBit_eq _ bit

theorem bitcount_eq (h : StrOrBytes now s key) :
    bitcount now s key = Int64.ofNat (countTrue (bitAt (bytesAt s key)) (8 * (bytesAt s key).length)) := by
  unfold bitcount
  obtain ⟨hn, hb⟩ | hb := h.bitsOf
  · rw [hn, hb]
    rfl
  · rw [hb, ← sum_countTrue]
    rfl

theorem bitfieldGet_eq (h : StrOrBytes now s key) (offset width : UInt32) : bitfieldGet now s key offset width =
    gather (fun i => bitAt (bytesAt s key) (offset + UInt32.ofNat i).toNat) width.toNat := by
  unfold bitfieldGet
  obtain ⟨hn, hb⟩ | hb := h.bitsOf
  · -- no bit is set
    have hzero : gather (fun i => bitAt [] (offset + UInt32.ofNat i).toNat) width.toNat = 0 := by
      generalize width.toNat = n
      induction n with
      | zero => rfl
      | succ n ih => rw [gather_succ, ih, bitAt_of_le (by simp), if_neg (by simp)]
    rw [hn, hb, hzero]
  · rw [hb]
    simp only [readBit_eq]
    rfl

theorem bytesAt_of_lookup {typ : Value F} {exp : Option Nat} (h : s.lookup key = some ⟨typ, exp⟩) :
    bytesAt s key = typ.asBytes := by
  unfold bytesAt
  rw [h]
  rfl

theorem bytesAt_of_none (h : s.lookup key = none) : bytesAt s key = [] := by
  unfold bytesAt
  rw [h]
  rfl

/-- The branches of `set_bit`: each writes one bit of a vector with the bits there are. -/
theorem lookup_setBit (h : StrOrBytes now s key) (bit : UInt32) (on : Bool) : ∃ (b : Bytes) (exp : Option Nat),
    (setBit s key bit on).lookup key = some ⟨.bytes (writeBit b bit on), exp⟩ ∧
      (∀ v : Value F, (⟨v, exp⟩ : Entry F).expired now = false) ∧ (∀ p, bitAt b p = bitAt (bytesAt s key) p) ∧
      max b.length (bit.toNat / 8 + 1) = max (bytesAt s key).length (bit.toNat / 8 + 1) := by
  cases he : s.lookup key with
  | none =>
    refine ⟨List.replicate ((bit / 8).toNat + 1) 0, none, ?_, fun _ => rfl, ?_, ?_⟩
    · simp only [setBit, he]
      exact AList.lookup_insert _
    · intro p
      rw [bytesAt_of_none he, ← List.nil_append (List.replicate _ _), bitAt_append_zeros]
    · rw [bytesAt_of_none he, List.length_replicate, toNat_div_eight]
      simp
  | some e =>
    obtain ⟨typ, exp⟩ := e
    obtain ⟨halive, ⟨v, hv⟩ | ⟨b, hb⟩⟩ := h _ he
    · have hv : typ = .str v := hv
      subst hv
      refine ⟨utf8 v, exp, ?_, fun _ => halive, fun p => by rw [bytesAt_of_lookup he]; rfl, by rw [bytesAt_of_lookup he]; rfl⟩
      simp only [setBit, he]
      exact AList.lookup_insert _
    · have hb : typ = .bytes b := hb
      subst hb
      refine ⟨b, exp, ?_, fun _ => halive, fun p => by rw [bytesAt_of_lookup he]; rfl, by rw [bytesAt_of_lookup he]; rfl⟩
      simp only [setBit, he]
      exact AList.lookup_insert _

/-- **Step.** `set_bit` keeps the key as it is but for one bit, growing the value up to it. -/
theorem setBit_spec (h : StrOrBytes now s key) (bit : UInt32) (on : Bool) :
    StrOrBytes now (setBit s key bit on) key ∧
      (bytesAt (setBit s key bit on) key).length = max (bytesAt s key).length (bit.toNat / 8 + 1) ∧
      ∀ p, bitAt (bytesAt (setBit s key bit on) key) p = if p = bit.toNat then on else bitAt (bytesAt s key) p := by
  obtain ⟨b, exp, hlookup, halive, hbits, hlen⟩ := lookup_setBit h bit on
  rw [bytesAt_of_lookup hlookup]
  refine ⟨?_, ?_, ?_⟩
  · intro e he
    rw [hlookup, Option.some.injEq] at he
    subst he
    exact ⟨halive _, .inr ⟨_, rfl⟩⟩
  · rw [← hlen]
    exact length_writeBit b bit on
  · intro p
    rw [← hbits p]
    exact bitAt_writeBit b bit on p

/-! ## Get, set and count -/

/-- At how many positions `get_bit` answers `true`. -/
def positionsOn (now : Nat) (s : Data F) (key : String) : Nat :=
  countTrue (fun p => getBit now s key (UInt32.ofNat p)) (2 ^ 32)

/-- `bitcount` counts what `get_bit` shows, as far as positions reach. -/
theorem bitcount_positionsOn (h : StrOrBytes now s key) (hlen : (bytesAt s key).length ≤ 2 ^ 29) :
    (bitcount now s key).toInt = positionsOn now s key := by
  have hcount : positionsOn now s key = countTrue (bitAt (bytesAt s key)) (8 * (bytesAt s key).length) := by
    have hbits : positionsOn now s key = countTrue (bitAt (bytesAt s key)) (2 ^ 32) := by
      apply countTrue_congr
      intro p hp
      rw [getBit_eq h, UInt32.toNat_ofNat_of_lt' hp]
    rw [hbits]
    exact countTrue_of_le (by omega) fun p hp => bitAt_of_le hp
  have hle := countTrue_le (bitAt (bytesAt s key)) (8 * (bytesAt s key).length)
  rw [bitcount_eq h, Int64.toInt_ofNat_of_lt (by omega), hcount]

theorem bitcount_setBit (h : StrOrBytes now s key) (bit : UInt32) (on : Bool) : bitcount now (setBit s key bit on) key =
    bitcount now s key - Int64.ofNat (getBit now s key bit).toNat + Int64.ofNat on.toNat := by
  obtain ⟨h', hlen, hbits⟩ := setBit_spec h bit on
  have hlong : countTrue (bitAt (bytesAt s key)) (8 * (bytesAt (setBit s key bit on) key).length) =
      countTrue (bitAt (bytesAt s key)) (8 * (bytesAt s key).length) :=
    countTrue_of_le (by omega) fun p hp => bitAt_of_le hp
  have hupdate := countTrue_update (f := bitAt (bytesAt s key)) (g := bitAt (bytesAt (setBit s key bit on) key))
    (p := bit.toNat) (n := 8 * (bytesAt (setBit s key bit on) key).length) (by omega) fun q hq => by rw [hbits, if_neg hq]
  rw [hlong, hbits, if_pos rfl] at hupdate
  have hsum := congrArg Int64.ofNat hupdate
  rw [Int64.ofNat_add, Int64.ofNat_add] at hsum
  rw [bitcount_eq h', bitcount_eq h, getBit_eq h]
  grind

/-- **Get, set and count.** After `set_bit` the bit is as set and the others as before, and the count has changed by
    that bit. The count is that of all set bits of the value, which are those `get_bit` shows in a value of up to
    `2^29` bytes. -/
theorem bit_laws {now' : Nat} (hnow : now ≤ now') (h : StrOrBytes now' s key) (bit : UInt32) (on : Bool) :
    (∀ bit', getBit now' (setBit s key bit on) key bit' = if bit' = bit then on else getBit now s key bit') ∧
      bitcount now' (setBit s key bit on) key =
        bitcount now s key - Int64.ofNat (getBit now s key bit).toNat + Int64.ofNat on.toNat ∧
      bitcount now s key = Int64.ofNat (countTrue (bitAt (bytesAt s key)) (8 * (bytesAt s key).length)) ∧
      ((bytesAt s key).length ≤ 2 ^ 29 → (bitcount now s key).toInt = positionsOn now s key ∧
        (bitcount now' (setBit s key bit on) key).toInt = positionsOn now' (setBit s key bit on) key) := by
  have hbefore := h.mono hnow
  obtain ⟨h', hlen, hbits⟩ := setBit_spec h bit on
  have hsame : ∀ bit', getBit now' s key bit' = getBit now s key bit' := by
    intro bit'
    rw [getBit_eq h, getBit_eq hbefore]
  refine ⟨?_, ?_, bitcount_eq hbefore, ?_⟩
  · intro bit'
    rw [getBit_eq h', hbits, ← hsame, getBit_eq h]
    simp only [UInt32.toNat_inj]
  · rw [bitcount_setBit h, hsame, bitcount_eq h, bitcount_eq hbefore]
  · intro hshort
    have hbit := bit.toNat_lt
    exact ⟨bitcount_positionsOn hbefore hshort, bitcount_positionsOn h' (by omega)⟩

/-- A string of one character and a bit behind its end. -/
theorem bit_laws_a : StrOrBytes 0 (insertNew (∅ : Data ℚ) "k" (.str "a")) "k" ∧
    (∀ bit', getBit 0 (setBit (insertNew (∅ : Data ℚ) "k" (.str "a")) "k" 9 true) "k" bit' =
      if bit' = 9 then true else getBit 0 (insertNew (∅ : Data ℚ) "k" (.str "a")) "k" bit') := by
  have h : StrOrBytes 0 (insertNew (∅ : Data ℚ) "k" (.str "a")) "k" := strOrBytes_setStr 0 ∅ "k" "a"
  exact ⟨h, (bit_laws (le_refl 0) h 9 true).1⟩

/-- `n` zero characters and an `a`. -/
def zerosA (n : Nat) : String := String.ofList (List.replicate n (Char.ofNat 0) ++ ['a'])

theorem utf8_zerosA (n : Nat) : utf8 (zerosA n) = List.replicate n 0 ++ [97] := by
  have hzero : String.utf8EncodeChar (Char.ofNat 0) = [0] := by decide
  have ha : String.utf8EncodeChar 'a' = [97] := by decide
  rw [utf8_eq_flatMap, zerosA, String.toList_ofList, List.flatMap_append, List.flatMap_replicate, hzero,
    List.flatten_replicate_singleton, List.flatMap_singleton, ha]

/-- The store after `SET k` with it. -/
def longStore (n : Nat) : Data ℚ := insertNew ∅ "k" (.str (zerosA n))

theorem longStore_spec (n : Nat) : StrOrBytes 0 (longStore n) "k" ∧ bitcount 0 (longStore n) "k" = 3 ∧
    ∀ bit : UInt32, bit.toNat < 8 * n → getBit 0 (longStore n) "k" bit = false := by
  have hlookup : (longStore n).lookup "k" = some ⟨.str (zerosA n), none⟩ := AList.lookup_insert _
  have hbytes : bytesAt (longStore n) "k" = List.replicate n 0 ++ [97] := by
    rw [bytesAt_of_lookup hlookup]
    exact utf8_zerosA n
  have h : StrOrBytes 0 (longStore n) "k" := strOrBytes_setStr 0 ∅ "k" (zerosA n)
  refine ⟨h, ?_, ?_⟩
  · have hzero : countTrue (fun i => (0 : UInt8).toNat.testBit i) 8 = 0 := by decide
    have hthree : countTrue (fun i => (97 : UInt8).toNat.testBit i) 8 = 3 := by decide
    rw [bitcount_eq h, ← sum_countTrue, hbytes, List.map_append, List.map_replicate, List.sum_append, List.sum_replicate,
      hzero, List.map_singleton, List.sum_singleton, hthree, smul_zero]
    rfl
  · intro bit hbit
    rw [getBit_eq h, hbytes, bitAt, List.getElem?_append_left (by rw [List.length_replicate]; omega),
      List.getElem?_replicate, if_pos (by omega)]
    simp

/-- In a string of `2^29 + 1` bytes the last one is out of reach: three bits are counted and none is shown. -/
theorem bitcount_out_of_reach : StrOrBytes 0 (longStore (2 ^ 29)) "k" ∧ bitcount 0 (longStore (2 ^ 29)) "k" = 3 ∧
    positionsOn 0 (longStore (2 ^ 29)) "k" = 0 := by
  obtain ⟨h, hcount, hbits⟩ := longStore_spec (2 ^ 29)
  refine ⟨h, hcount, countTrue_eq_zero ?_⟩
  intro p hp
  apply hbits
  rw [UInt32.toNat_ofNat_of_lt' hp]
  omega

end RedisOps.Store
