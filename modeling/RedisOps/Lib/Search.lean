import Mathlib.Tactic

/-!
# `slice::binary_search_by`

The loop of the standard library: `base` moves to the middle of the remaining `size` elements unless the
element there is `Greater`, and the element it ends on decides between `Ok` and the insertion point.

`binarySearchBy_of_ne_eq` — a comparator that never answers `Equal` never finds anything: the result is
an `Err`. `binarySearchBy_partition` — if it answers `Less` on the first `p` elements and `Greater` on
the others, the result is `Err(p)`.
-/

namespace RedisOps.Lib

section
variable {α : Type}

/-- The comparator at an index; the loop stays inside the slice. -/
def cmpAt (xs : List α) (f : α → Ordering) (i : Nat) : Ordering := (xs[i]?.map f).getD .gt

/-- The `while size > 1` loop; each round takes at least one element off `size`. -/
def searchBase (xs : List α) (f : α → Ordering) : Nat → Nat → Nat → Nat
  | 0, _, base => base
  | fuel + 1, size, base =>
    if 1 < size then
      let half := size / 2
      let mid := base + half
      searchBase xs f fuel (size - half) (if cmpAt xs f mid = .gt then base else mid)
    else base

/-- `Ok(i)` is `.ok i`, `Err(i)` is `.error i`. -/
def binarySearchBy (xs : List α) (f : α → Ordering) : Except Nat Nat :=
  if xs.length = 0 then .error 0 else
  let base := searchBase xs f xs.length xs.length 0
  match cmpAt xs f base with
  | .eq => .ok base
  | .lt => .error (base + 1)
  | .gt => .error base

variable {xs : List α} {f : α → Ordering}

theorem binarySearchBy_of_ne_eq (xs : List α) (h : ∀ x, f x ≠ .eq) : ∃ i, binarySearchBy xs f = .error i := by
  unfold binarySearchBy
  split
  · exact ⟨0, rfl⟩
  · simp only [cmpAt]
    cases hx : xs[searchBase xs f xs.length xs.length 0]? with
    | none => exact ⟨_, rfl⟩
    | some x =>
      simp only [Option.map_some, Option.getD_some]
      cases hf : f x with
      | eq => exact absurd hf (h x)
      | lt => exact ⟨_, rfl⟩
      | gt => exact ⟨_, rfl⟩

/-- The loop keeps the boundary `p` in `(base, base + size]`, or at `0`. -/
theorem searchBase_spec {p : Nat} (hlt : ∀ i < p, cmpAt xs f i = .lt)
    (hgt : ∀ i, p ≤ i → cmpAt xs f i = .gt) : ∀ (fuel size base : Nat), 1 ≤ size → size ≤ fuel + 1 →
    (base = 0 ∨ base < p) → p ≤ base + size →
    let b := searchBase xs f fuel size base
    (b = 0 ∨ b < p) ∧ p ≤ b + 1
  | 0, size, base, h1, hf, hb, hp => ⟨hb, by simp only [searchBase]; omega⟩
  | fuel + 1, size, base, h1, hf, hb, hp => by
    by_cases hs : 1 < size
    · have hstep : searchBase xs f (fuel + 1) size base = searchBase xs f fuel (size - size / 2)
          (if cmpAt xs f (base + size / 2) = .gt then base else base + size / 2) := by
        simp [searchBase, hs]
      rw [hstep]
      by_cases hmid : base + size / 2 < p
      · rw [if_neg (by simp [hlt _ hmid])]
        exact searchBase_spec hlt hgt fuel _ _ (by omega) (by omega) (Or.inr hmid) (by omega)
      · rw [if_pos (hgt _ (by omega))]
        exact searchBase_spec hlt hgt fuel _ _ (by omega) (by omega) hb (by omega)
    · simp only [searchBase, hs, if_false]
      exact ⟨hb, by omega⟩

theorem binarySearchBy_partition {p : Nat} (hp : p ≤ xs.length)
    (hlt : ∀ i (h : i < xs.length), i < p → f xs[i] = .lt)
    (hgt : ∀ i (h : i < xs.length), p ≤ i → f xs[i] = .gt) : binarySearchBy xs f = .error p := by
  have hlt' : ∀ i < p, cmpAt xs f i = .lt := by
    intro i hi
    have h : i < xs.length := by omega
    simp [cmpAt, List.getElem?_eq_getElem h, hlt i h hi]
  have hgt' : ∀ i, p ≤ i → cmpAt xs f i = .gt := by
    intro i hi
    by_cases h : i < xs.length
    · simp [cmpAt, List.getElem?_eq_getElem h, hgt i h hi]
    · simp [cmpAt, List.getElem?_eq_none (by omega : xs.length ≤ i)]
  unfold binarySearchBy
  split
  · rw [show p = 0 by omega]
  · obtain ⟨hb, hpb⟩ := searchBase_spec hlt' hgt' xs.length xs.length 0 (by omega) (by omega)
      (Or.inl rfl) (by omega)
    -- the last comparison tells on which side of the boundary the loop stopped
    generalize searchBase xs f xs.length xs.length 0 = b at hb hpb
    by_cases h : b < p
    · simp only [hlt' b h]
      rw [show b + 1 = p by omega]
    · simp only [hgt' b (by omega)]
      rw [show b = p by omega]

end

end RedisOps.Lib
