import RedisOps.Handler.Dispatch
import RedisOps.Store.Bits

/-!
# Bit fields: `BFSET` and `BFGET`

A `Field` is an offset and a width that the arithmetic of the two loops can handle: no position wraps at `2^32`, no
shift amount at `64`. On a field, alone, `bitfield_set` writes the low bits of the value and no others, and
`bitfield_get` reads them back (`bitfieldSet_get`).

The handlers parse any `u32`s and check neither bound. `field_exact_iff` — the two commands touch the bits they are
asked for exactly when the arguments are those of a `Field`.
-/

namespace RedisOps.Handler

open Lib Store Proto Zset

structure Field where
  offset : UInt32
  width : UInt32
  narrow : width.toNat ≤ 64
  fits : offset.toNat + width.toNat ≤ 2 ^ 32

/-- The position is in the field. -/
def Field.Covers (f : Field) (p : Nat) : Prop := f.offset.toNat ≤ p ∧ p < f.offset.toNat + f.width.toNat

instance (f : Field) (p : Nat) : Decidable (f.Covers p) := inferInstanceAs (Decidable (_ ∧ _))

theorem Field.toNat_position (f : Field) {i : Nat} (hi : i < f.width.toNat) :
    (f.offset + UInt32.ofNat i).toNat = f.offset.toNat + i := by
  have hfits := f.fits
  rw [UInt32.toNat_add, UInt32.toNat_ofNat_of_lt' (by omega : i < 2 ^ 32)]
  exact Nat.mod_eq_of_lt (by omega)

theorem fieldBit_eq (v : UInt64) {i : Nat} (hi : i < 64) : fieldBit v i = v.toNat.testBit i := by
  rw [fieldBit, Bool.eq_iff_iff, decide_eq_true_eq, word_shiftRight_land_one v hi]

variable {F : Type} [Score F] {key : String} {now : Nat}

theorem exec_setBit (now : Nat) (key : String) (bit : UInt32) (on : Bool) (w : World F) :
    exec now (.setBit key bit on) w = some ((), { w with store := setBit w.store key bit on }) := rfl

/-! ## On a field -/

/-- **Run.** With `n` bits left, the bits from `width - n` on are written. -/
theorem run_bitfieldSet (now : Nat) (f : Field) (v : UInt64) {now' : Nat} : ∀ (n : Nat), n ≤ f.width.toNat → ∀ (w : World F),
    StrOrBytes now' w.store key →
    ∃ w', (bitfieldSet key f.offset v f.width.toNat n).run (exec now) w = (some (), w') ∧ StrOrBytes now' w'.store key ∧
      ∀ p, bitAt (bytesAt w'.store key) p =
        if f.offset.toNat + (f.width.toNat - n) ≤ p ∧ p < f.offset.toNat + f.width.toNat
        then v.toNat.testBit (p - f.offset.toNat) else bitAt (bytesAt w.store key) p
  | 0, _, w, h => by
    refine ⟨w, rfl, h, ?_⟩
    intro p
    rw [if_neg (by omega)]
  | n + 1, hn, w, h => by
    have hnarrow := f.narrow
    have hi : f.width.toNat - (n + 1) < f.width.toNat := by omega
    obtain ⟨h', -, hbits⟩ := setBit_spec h (f.offset + UInt32.ofNat (f.width.toNat - (n + 1)))
      (fieldBit v (f.width.toNat - (n + 1)))
    obtain ⟨w', hrun, hw', hrest⟩ := run_bitfieldSet now f v n (by omega)
      { w with store := setBit w.store key (f.offset + UInt32.ofNat (f.width.toNat - (n + 1))) (fieldBit v (f.width.toNat - (n + 1))) } h'
    refine ⟨w', ?_, hw', ?_⟩
    · rw [bitfieldSet, await_bind, Prog.run_op_some _ (exec_setBit _ _ _ _ _)]
      exact hrun
    · intro p
      rw [hrest, hbits, f.toNat_position hi, fieldBit_eq v (by omega)]
      by_cases hp : p = f.offset.toNat + (f.width.toNat - (n + 1))
      · -- the bit written now
        rw [if_neg (by omega), if_pos hp, if_pos (by omega), hp, Nat.add_sub_cancel_left]
      · rw [if_neg hp]
        have hcond : f.offset.toNat + (f.width.toNat - n) ≤ p ↔ f.offset.toNat + (f.width.toNat - (n + 1)) ≤ p := by omega
        simp only [hcond]

theorem run_bitfieldSet_all (now : Nat) (f : Field) (v : UInt64) {now' : Nat} {w : World F} (h : StrOrBytes now' w.store key) :
    ∃ w', (bitfieldSet key f.offset v f.width.toNat f.width.toNat).run (exec now) w = (some (), w') ∧
      StrOrBytes now' w'.store key ∧ ∀ p, bitAt (bytesAt w'.store key) p =
        if f.Covers p then v.toNat.testBit (p - f.offset.toNat) else bitAt (bytesAt w.store key) p := by
  obtain ⟨w', hrun, hw', hbits⟩ := run_bitfieldSet now f v f.width.toNat (le_refl _) w h
  rw [Nat.sub_self, Nat.add_zero] at hbits
  exact ⟨w', hrun, hw', hbits⟩

omit [Score F] in
/-- `bitfield_get` is the word of the field's bits. -/
theorem bitfieldGet_field (f : Field) {s : Data F} (h : StrOrBytes now s key) : bitfieldGet now s key f.offset f.width =
    gather (fun i => bitAt (bytesAt s key) (f.offset.toNat + i)) f.width.toNat := by
  rw [bitfieldGet_eq h]
  apply gather_congr
  intro i hi
  rw [f.toNat_position hi]

/-- **Round trip and frame.** -/
theorem bitfieldSet_get {now' : Nat} (hnow : now ≤ now') {w : World F} (h : StrOrBytes now' w.store key) (f : Field)
    (v : UInt64) : ∃ w', (bitfieldSet key f.offset v f.width.toNat f.width.toNat).run (exec now) w = (some (), w') ∧
      (bitfieldGet now' w'.store key f.offset f.width).toNat = v.toNat % 2 ^ f.width.toNat ∧
      ∀ bit : UInt32, ¬f.Covers bit.toNat → getBit now' w'.store key bit = getBit now w.store key bit := by
  obtain ⟨w', hrun, hw', hbits⟩ := run_bitfieldSet_all now f v h
  refine ⟨w', hrun, ?_, ?_⟩
  · rw [bitfieldGet_field f hw']
    apply gather_eq_mod f.narrow
    intro i hi
    have hcovers : f.Covers (f.offset.toNat + i) := ⟨by omega, by omega⟩
    rw [hbits, if_pos hcovers, Nat.add_sub_cancel_left]
  · intro bit hbit
    rw [getBit_eq hw', getBit_eq (h.mono hnow), hbits, if_neg hbit]

/-- A byte written over the seam of two. -/
theorem bitfieldSet_get_seam : StrOrBytes 0 (insertNew (∅ : Data ℚ) "k" (.str "ab")) "k" ∧
    ∃ w', (bitfieldSet "k" 4 201 8 8).run (exec 0) ⟨insertNew (∅ : Data ℚ) "k" (.str "ab"), {}⟩ = (some (), w') ∧
      (bitfieldGet 0 w'.store "k" 4 8).toNat = 201 := by
  have h : StrOrBytes 0 (insertNew (∅ : Data ℚ) "k" (.str "ab")) "k" := strOrBytes_setStr 0 ∅ "k" "ab"
  obtain ⟨w', hrun, hget, -⟩ := bitfieldSet_get (le_refl 0) (w := ⟨_, {}⟩) h ⟨4, 8, by decide, by decide⟩ 201
  exact ⟨h, w', hrun, hget⟩

/-! ## On any arguments -/

/-- `BFSET` and `BFGET` with these arguments stay in range and touch exactly the bits asked for. -/
structure FieldExact (F : Type) [Score F] (key offset width val : String) (o n : UInt32) (v : UInt64) : Prop where
  positions : ∀ i < n.toNat, o.toNat + i ≤ 2 ^ 32 - 1
  shifts : ∀ i < n.toNat, i < 64
  /-- no bit outside of the field is written, whatever the key holds -/
  inside : (bfset [key, offset, width, val] : Cmd F Response).All
    (fun op => ∃ bit on, op = .setBit key bit on ∧ o.toNat ≤ bit.toNat ∧ bit.toNat < o.toNat + n.toNat) fun _ => True
  written : ∀ (now : Nat) (w : World F), StrOrBytes now w.store key →
    ∃ w', (bfset [key, offset, width, val]).run (exec now) w = (some (.int 1), w') ∧
      ∀ bit : UInt32, getBit now w'.store key bit =
        if o.toNat ≤ bit.toNat ∧ bit.toNat < o.toNat + n.toNat then v.toNat.testBit (bit.toNat - o.toNat)
        else getBit now w.store key bit
  read : ∀ (now : Nat) (w : World F), StrOrBytes now w.store key →
    ∃ x : UInt64, (bfget [key, offset, width]).run (exec now) w = (some (.int x.toInt64), w) ∧
      ∀ i, x.toNat.testBit i = (decide (i < n.toNat) && getBit now w.store key (UInt32.ofNat (o.toNat + i)))

omit [Score F] in
theorem all_bitfieldSet_field (f : Field) (v : UInt64) : ∀ (n : Nat), n ≤ f.width.toNat →
    (bitfieldSet key f.offset v f.width.toNat n : Cmd F Unit).All
      (fun op => ∃ bit on, op = .setBit key bit on ∧ f.Covers bit.toNat) fun _ => True
  | 0, _ => trivial
  | n + 1, hn => by
    refine all_await ⟨_, _, rfl, ?_⟩ fun _ => all_bitfieldSet_field f v n (by omega)
    rw [f.toNat_position (by omega)]
    exact ⟨by omega, by omega⟩

theorem exact_field {offset width val : String} (f : Field) {v : UInt64} (ho : parseU32 offset = some f.offset)
    (hn : parseU32 width = some f.width) (hv : parseU64 val = some v) (key : String) :
    FieldExact F key offset width val f.offset f.width v := by
  have hnarrow := f.narrow
  have hfits := f.fits
  have hset : (bfset [key, offset, width, val] : Cmd F Response) =
      bitfieldSet key f.offset v f.width.toNat f.width.toNat >>= fun _ => pure (.int 1) := by
    simp only [bfset, parsed, ho, hn, hv]
  refine ⟨by omega, by omega, ?_, ?_, ?_⟩
  · rw [hset]
    exact (Prog.all_bind _ _).2 ((all_bitfieldSet_field f v _ (le_refl _)).mono (fun _ h => h) fun _ _ => trivial)
  · intro now w h
    obtain ⟨w', hrun, hw', hbits⟩ := run_bitfieldSet_all now f v h
    refine ⟨w', by rw [hset, Prog.run_bind, hrun]; rfl, ?_⟩
    intro bit
    rw [getBit_eq hw', getBit_eq h, hbits]
    rfl
  · intro now w h
    refine ⟨bitfieldGet now w.store key f.offset f.width, ?_, ?_⟩
    · simp only [bfget, parsed, ho, hn]
      rfl
    · intro i
      rw [bitfieldGet_field f h, testBit_gather _ f.narrow]
      by_cases hi : i < f.width.toNat
      · rw [getBit_eq h, UInt32.toNat_ofNat_of_lt' (by omega : f.offset.toNat + i < 2 ^ 32)]
      · simp [hi]

/-- **When the two commands stay in range.** -/
theorem field_exact_iff {offset width val : String} {o n : UInt32} {v : UInt64} (ho : parseU32 offset = some o)
    (hn : parseU32 width = some n) (hv : parseU64 val = some v) (key : String) :
    FieldExact F key offset width val o n v ↔ o.toNat + n.toNat ≤ 2 ^ 32 ∧ n.toNat ≤ 64 := by
  constructor
  · intro h
    have hpositions := h.positions (n.toNat - 1)
    have hshifts := h.shifts (n.toNat - 1)
    have ho := o.toNat_lt
    omega
  · rintro ⟨hfits, hnarrow⟩
    exact exact_field ⟨o, n, hnarrow, hfits⟩ ho hn hv key

theorem field_exact_iff_byte : parseU32 "4" = some 4 ∧ parseU32 "8" = some 8 ∧ parseU64 "201" = some 201 ∧
    (FieldExact ℚ "k" "4" "8" "201" 4 8 201 ↔ (4 : UInt32).toNat + (8 : UInt32).toNat ≤ 2 ^ 32 ∧ (8 : UInt32).toNat ≤ 64) :=
  ⟨by decide, by decide, by decide, field_exact_iff (by decide) (by decide) (by decide) "k"⟩

/-- `BFSET k 4294967295 2 2` sets bit 0. -/
theorem field_wraps : ¬FieldExact ℚ "k" "4294967295" "2" "2" 4294967295 2 2 ∧
    ∃ w', (bfset ["k", "4294967295", "2", "2"]).run (exec 0) (⟨∅, {}⟩ : World ℚ) = (some (.int 1), w') ∧
      getBit 0 w'.store "k" 0 = true := by
  refine ⟨fun h => absurd (h.positions 1 (by decide)) (by decide), ?_⟩
  have h₀ : StrOrBytes 0 (∅ : Data ℚ) "k" := strOrBytes_empty 0 "k"
  have h₁ := (setBit_spec h₀ 4294967295 false).1
  obtain ⟨h₂, -, hbits⟩ := setBit_spec h₁ 0 true
  have ho : parseU32 "4294967295" = some 4294967295 := by decide
  have hn : parseU32 "2" = some 2 := by decide
  have hv : parseU64 "2" = some 2 := by decide
  refine ⟨⟨setBit (setBit ∅ "k" 4294967295 false) "k" 0 true, {}⟩, ?_, ?_⟩
  · simp only [bfset, parsed, ho, hn, hv]
    rfl
  · rw [getBit_eq h₂, hbits]
    rfl

end RedisOps.Handler
