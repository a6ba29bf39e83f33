import Mathlib.Tactic
import Mathlib.Data.List.Lex

/-!
# Byte strings: little-endian words and in-place writes

* `lt_of_lt_append_zeros` — what zeros behind a string change in its order: nothing, among strings of the
  full length.
* `leBytes w n` — the `w` little-endian bytes of `n` (`to_le_bytes`, `memcpy` from an integer on a
  little-endian host); `ofLe` reads them back, modulo `256 ^ w` (`ofLe_leBytes`).
* `slice buf off len` — the bytes `[off, off + len)`; `splice buf off bs` overwrites the bytes
  `[off, off + bs.length)`. A slice of a splice is the new bytes, or the old ones when the two ranges
  do not meet (`slice_splice`, `slice_splice_of_disjoint`).
-/

namespace RedisOps.Lib

abbrev Bytes := List UInt8

/-- Bytes in their order, and with it byte strings in the order slices are compared in. -/
instance byteLinearOrder : LinearOrder UInt8 where
  le_refl := UInt8.le_refl
  le_trans _ _ _ := UInt8.le_trans
  le_antisymm _ _ := UInt8.le_antisymm
  le_total := UInt8.le_total
  lt_iff_le_not_ge a b := by
    rw [UInt8.not_le]
    exact ⟨fun h => ⟨UInt8.le_of_lt h, h⟩, fun h => h.2⟩
  toDecidableLE := inferInstance
  toDecidableEq := inferInstance

/-! ## Zeros behind a string -/

theorem not_lt_zeros : ∀ {m : Nat} {k : Bytes}, k.length = m → ¬ k < List.replicate m 0
  | 0, k, h => by simp
  | m + 1, [], h => by simp at h
  | m + 1, b :: k, h => by
    rw [List.replicate_succ, List.cons_lt_cons_iff]
    rintro (hb | ⟨-, hk⟩)
    · exact absurd hb (UInt8.not_lt.2 (UInt8.zero_le))
    · exact not_lt_zeros (by simpa using h) hk

/-- Of the strings as long as one with its zeros, those below that are below it without them. -/
theorem lt_of_lt_append_zeros : ∀ {bs k : Bytes} {m : Nat}, k.length = bs.length + m →
    k < bs ++ List.replicate m 0 → k < bs
  | [], k, m, h, hlt => absurd hlt (not_lt_zeros (by simpa using h))
  | b :: bs, [], m, h, hlt => by simp
  | b :: bs, c :: k, m, h, hlt => by
    rw [List.cons_append, List.cons_lt_cons_iff] at hlt
    rw [List.cons_lt_cons_iff]
    rcases hlt with hc | ⟨rfl, hk⟩
    · exact .inl hc
    · exact .inr ⟨rfl, lt_of_lt_append_zeros (by simp at h; omega) hk⟩

theorem append_lt_append_iff (p : Bytes) {a b : Bytes} : p ++ a < p ++ b ↔ a < b := by
  induction p with
  | nil => exact Iff.rfl
  | cons c p ih => simp only [List.cons_append, List.cons_lt_cons_iff, lt_self_iff_false, true_and, false_or, ih]

/-! ## Little-endian words -/

def leBytes : Nat → Nat → Bytes
  | 0, _ => []
  | w + 1, n => UInt8.ofNat n :: leBytes w (n / 256)

def ofLe : Bytes → Nat
  | [] => 0
  | b :: bs => b.toNat + 256 * ofLe bs

@[simp] theorem length_leBytes : ∀ w n, (leBytes w n).length = w
  | 0, _ => rfl
  | w + 1, n => by simp [leBytes, length_leBytes w]

theorem ofLe_leBytes : ∀ w n, ofLe (leBytes w n) = n % 256 ^ w
  | 0, n => by simp [leBytes, ofLe, Nat.mod_one]
  | w + 1, n => by
    have hb : (UInt8.ofNat n).toNat = n % 256 := UInt8.toNat_ofNat' ..
    rw [leBytes, ofLe, ofLe_leBytes w, hb, pow_succ', Nat.mod_mul]

theorem ofLe_leBytes_of_lt {w n : Nat} (h : n < 256 ^ w) : ofLe (leBytes w n) = n := by
  rw [ofLe_leBytes, Nat.mod_eq_of_lt h]

theorem ofLe_lt : ∀ bs : Bytes, ofLe bs < 256 ^ bs.length
  | [] => by simp [ofLe]
  | b :: bs => by
    have hb : b.toNat < 256 := b.toNat_lt
    have ih := ofLe_lt bs
    simp only [ofLe, List.length_cons, pow_succ']
    omega

theorem leBytes_ofLe : ∀ bs : Bytes, leBytes bs.length (ofLe bs) = bs
  | [] => rfl
  | b :: bs => by
    have hb : b.toNat < 256 := b.toNat_lt
    have hbyte : UInt8.ofNat (b.toNat + 256 * ofLe bs) = b := by
      apply UInt8.toNat_inj.1
      rw [UInt8.toNat_ofNat']
      omega
    have hrest : (b.toNat + 256 * ofLe bs) / 256 = ofLe bs := by omega
    rw [List.length_cons, ofLe, leBytes, hbyte, hrest, leBytes_ofLe bs]

/-- Reading the first word and writing it again. -/
theorem leBytes_ofLe_take {w : Nat} {bs : Bytes} (h : w ≤ bs.length) : leBytes w (ofLe (bs.take w)) = bs.take w := by
  have hw := leBytes_ofLe (bs.take w)
  rwa [List.length_take_of_le h] at hw

/-- The low bytes come first. -/
theorem take_leBytes : ∀ v w n, (leBytes (v + w) n).take v = leBytes v n
  | 0, _, _ => rfl
  | v + 1, w, n => by
    rw [Nat.succ_add, leBytes, List.take_succ_cons, take_leBytes v w, leBytes]

/-! ## Slices and in-place writes -/

section Splice
variable {α : Type} {buf bs : List α} {off len : Nat}

def slice (buf : List α) (off len : Nat) : List α := (buf.drop off).take len

def splice (buf : List α) (off : Nat) (bs : List α) : List α :=
  buf.take off ++ bs ++ buf.drop (off + bs.length)

theorem length_splice (h : off + bs.length ≤ buf.length) : (splice buf off bs).length = buf.length := by
  simp only [splice, List.length_append, List.length_take, List.length_drop]
  omega

theorem slice_add (buf : List α) (off v w : Nat) :
    slice buf off (v + w) = slice buf off v ++ slice buf (off + v) w := by
  rw [slice, List.take_add, List.drop_drop]
  rfl

theorem take_slice (buf : List α) (off v w : Nat) :
    (slice buf off (v + w)).take v = slice buf off v := by
  rw [slice, List.take_take, Nat.min_eq_left (Nat.le_add_right v w)]
  rfl

/-- The slice at a seam: `len` elements that sit right after `off` others. -/
theorem slice_append (pre mid post : List α) (hoff : pre.length = off) (hlen : mid.length = len) :
    slice (pre ++ (mid ++ post)) off len = mid := by
  subst hoff hlen
  simp [slice]

theorem slice_splice (h : off ≤ buf.length) : slice (splice buf off bs) off bs.length = bs := by
  rw [splice, List.append_assoc]
  exact slice_append _ _ _ (by simpa using h) rfl

theorem getElem?_splice (h : off + bs.length ≤ buf.length) (i : Nat) :
    (splice buf off bs)[i]? = if off ≤ i ∧ i < off + bs.length then bs[i - off]? else buf[i]? := by
  have hl : (buf.take off).length = off := by simp; omega
  rw [splice, List.append_assoc, List.getElem?_append, List.getElem?_append, hl]
  by_cases h1 : i < off
  · simp only [h1, if_true, List.getElem?_take]
    rw [if_neg (by omega)]
  · by_cases h2 : i - off < bs.length
    · simp only [h1, h2, if_false, if_true]
      rw [if_pos (by omega)]
    · simp only [h1, h2, if_false, List.getElem?_drop]
      rw [if_neg (by omega)]
      congr 1
      omega

/-- A read that ends before the written range or starts after it sees the old elements. -/
theorem slice_splice_of_disjoint {off' len' : Nat} (h : off + bs.length ≤ buf.length)
    (hd : off' + len' ≤ off ∨ off + bs.length ≤ off') : slice (splice buf off bs) off' len' = slice buf off' len' := by
  apply List.ext_getElem?
  intro i
  simp only [slice, List.getElem?_take, List.getElem?_drop]
  split
  · rw [getElem?_splice h, if_neg (by omega)]
  · rfl

/-- Inserting at a seam. -/
theorem insertIdx_append : ∀ (as bs : List α) (x : α),
    (as ++ bs).insertIdx as.length x = as ++ x :: bs
  | [], bs, x => by simp
  | a :: as, bs, x => by simp [insertIdx_append as bs x]

/-! ## Files -/

/-- `read_exact` at an offset. -/
def readAt (file : List α) (off len : Nat) : Option (List α) :=
  if off + len ≤ file.length then some (slice file off len) else none

/-- `write_all` at an offset; a gap behind the end of the file is filled. -/
def writeAt (fill : α) (file : List α) (off : Nat) (bs : List α) : List α :=
  splice (file ++ List.replicate (off + bs.length - file.length) fill) off bs

theorem readAt_eq_some {file : List α} {bs : List α} :
    readAt file off len = some bs ↔ off + len ≤ file.length ∧ slice file off len = bs := by
  unfold readAt
  split <;> simp_all

theorem length_slice {file : List α} (h : off + len ≤ file.length) : (slice file off len).length = len := by
  simp only [slice, List.length_take, List.length_drop]
  omega

theorem length_writeAt (fill : α) (file : List α) (off : Nat) (bs : List α) :
    (writeAt fill file off bs).length = max file.length (off + bs.length) := by
  rw [writeAt, length_splice (by simp; omega)]
  simp
  omega

theorem readAt_writeAt (fill : α) (file : List α) (off : Nat) (bs : List α) :
    readAt (writeAt fill file off bs) off bs.length = some bs := by
  refine readAt_eq_some.2 ⟨?_, slice_splice (by simp; omega)⟩
  rw [length_writeAt]
  exact Nat.le_max_right _ _

/-- A write is not seen outside of its range. -/
theorem readAt_writeAt_of_disjoint {fill : α} {file : List α} {off' len' : Nat} {bs' : List α}
    (hread : readAt file off' len' = some bs') (hd : off' + len' ≤ off ∨ off + bs.length ≤ off') :
    readAt (writeAt fill file off bs) off' len' = some bs' := by
  obtain ⟨hle, hslice⟩ := readAt_eq_some.1 hread
  have hfit : off + bs.length ≤ (file ++ List.replicate (off + bs.length - file.length) fill).length := by
    simp
    omega
  have hpad : slice (file ++ List.replicate (off + bs.length - file.length) fill) off' len' = slice file off' len' := by
    rw [slice, List.drop_append_of_le_length (by omega), List.take_append_of_le_length (by simp; omega)]
    rfl
  refine readAt_eq_some.2 ⟨?_, ?_⟩
  · rw [length_writeAt]
    omega
  · rw [← hslice, ← hpad, writeAt]
    exact slice_splice_of_disjoint hfit hd

/-- A read in two parts. -/
theorem readAt_add {file bs : List α} {v w : Nat} (hlen : bs.length = v + w) :
    readAt file off (v + w) = some bs ↔
      readAt file off v = some (bs.take v) ∧ readAt file (off + v) w = some (bs.drop v) := by
  rw [readAt_eq_some, readAt_eq_some, readAt_eq_some, slice_add]
  constructor
  · rintro ⟨hle, rfl⟩
    have hfront : (slice file off v).length = v := length_slice (by omega)
    rw [List.take_append_of_le_length (by omega), List.take_of_length_le (by omega),
      List.drop_append_of_le_length (by omega), List.drop_of_length_le (by omega)]
    exact ⟨⟨by omega, rfl⟩, by omega, rfl⟩
  · rintro ⟨⟨-, hfront⟩, hle, hrest⟩
    rw [hfront, hrest, List.take_append_drop]
    exact ⟨by omega, rfl⟩

/-- Behind a write the file is as it was, if it reached that far. -/
theorem readAt_writeAt_behind (fill : α) (file : List α) {bs bs' : List α} {n w : Nat} (hn : bs.length = n)
    (hw : 0 < w) : readAt (writeAt fill file off bs) (off + n) w = some bs' ↔ readAt file (off + n) w = some bs' := by
  subst hn
  constructor
  · intro h
    have hle := (readAt_eq_some.1 h).1
    rw [length_writeAt] at hle
    have hread : readAt file (off + bs.length) w = some (slice file (off + bs.length) w) :=
      readAt_eq_some.2 ⟨by omega, rfl⟩
    rw [readAt_writeAt_of_disjoint hread (.inr (Nat.le_refl _))] at h
    rw [hread, h]
  · intro h
    exact readAt_writeAt_of_disjoint h (.inr (Nat.le_refl _))

end Splice

end RedisOps.Lib
