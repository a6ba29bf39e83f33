import RedisOps.Lib.Bytes

/-!
# Parallel slots

Keys and values kept in two lists of the same length, slot by slot. `slotGet` looks a key up from the
front; the lemmas say what inserting, overwriting, erasing and cutting slots do to it. Nothing here needs
the keys to be sorted but `slotGet_split` (a cut at a key divides the look-ups as it divides the keys).
`insertPos` is the position a linear scan finds for a new key.
-/

namespace RedisOps.Lib

variable {K V : Type}

section Get
variable [DecidableEq K]

def slotGet (key : K) : List K → List V → Option V
  | k :: ks, v :: vs => if k = key then some v else slotGet key ks vs
  | _, _ => none

/-- The first slot with the key, by its index. -/
theorem slotGet_eq_findIdx? (key : K) : ∀ (ks : List K) (vs : List V),
    slotGet key ks vs = (ks.findIdx? fun k => decide (k = key)).bind (vs[·]?)
  | [], vs => by simp [slotGet]
  | k :: ks, [] => by cases (k :: ks).findIdx? (fun k => decide (k = key)) <;> simp [slotGet]
  | k :: ks, v :: vs => by
    by_cases h : k = key
    · simp [slotGet, List.findIdx?_cons, h]
    · have ih := slotGet_eq_findIdx? key ks vs
      rw [slotGet, if_neg h, ih, List.findIdx?_cons]
      cases ks.findIdx? fun k => decide (k = key) <;> simp [h]

theorem slotGet_of_not_mem {key : K} : ∀ {ks : List K} {vs : List V}, key ∉ ks → slotGet key ks vs = none
  | [], _, _ => by simp [slotGet]
  | _ :: _, [], _ => by simp [slotGet]
  | k :: ks, v :: vs, h => by
    rw [List.mem_cons, not_or] at h
    rw [slotGet, if_neg (Ne.symm h.1), slotGet_of_not_mem h.2]

theorem slotGet_isSome {key : K} : ∀ {ks : List K} {vs : List V}, vs.length = ks.length →
    ((slotGet key ks vs).isSome ↔ key ∈ ks)
  | [], vs, _ => by simp [slotGet]
  | k :: ks, [], h => by simp at h
  | k :: ks, v :: vs, h => by
    by_cases hk : k = key
    · simp [slotGet, hk]
    · have ih : (slotGet key ks vs).isSome ↔ key ∈ ks := slotGet_isSome (by simpa using h)
      simp [slotGet, hk, ih, Ne.symm hk]

theorem slotGet_append {key : K} : ∀ {ks ks' : List K} {vs vs' : List V}, vs.length = ks.length →
    slotGet key (ks ++ ks') (vs ++ vs') = (slotGet key ks vs).or (slotGet key ks' vs')
  | [], ks', vs, vs', h => by
    rw [List.length_eq_zero_iff.1 h]
    simp [slotGet]
  | k :: ks, _, [], _, h => by simp at h
  | k :: ks, ks', v :: vs, vs', h => by
    by_cases hk : k = key
    · simp [slotGet, hk]
    · have ih : slotGet key (ks ++ ks') (vs ++ vs') = (slotGet key ks vs).or (slotGet key ks' vs') :=
        slotGet_append (by simpa using h)
      simp [slotGet, hk, ih]

theorem slotGet_take_drop {ks : List K} {vs : List V} (hlen : vs.length = ks.length) (p : Nat) (key : K) :
    slotGet key ks vs =
      (slotGet key (ks.take p) (vs.take p)).or (slotGet key (ks.drop p) (vs.drop p)) := by
  rw [← slotGet_append (by simp [hlen]), List.take_append_drop, List.take_append_drop]

theorem insertIdx_eq_take_drop {α : Type} {p : Nat} {l : List α} (x : α) (h : p ≤ l.length) :
    l.insertIdx p x = l.take p ++ x :: l.drop p := by
  have hins := insertIdx_append (l.take p) (l.drop p) x
  rwa [List.take_append_drop, List.length_take, Nat.min_eq_left h] at hins

/-- What a slot had before the insertion. -/
theorem insertIdx_cases {α : Type} {l : List α} {x y : α} {i j : Nat} (hi : (l.insertIdx j x)[i]? = some y) :
    i < j ∧ l[i]? = some y ∨ i = j ∧ y = x ∨ j < i ∧ l[i - 1]? = some y := by
  rw [List.getElem?_insertIdx] at hi
  split at hi
  · exact .inl ⟨by assumption, hi⟩
  · split at hi
    · split at hi
      · exact .inr (.inl ⟨by assumption, (Option.some.inj hi).symm⟩)
      · cases hi
    · exact .inr (.inr ⟨by omega, hi⟩)

/-- A slot put in at any position is found there or not at all. -/
theorem slotGet_insertIdx_eq {ks : List K} {vs : List V} {p : Nat} (key : K) (value : V)
    (hlen : vs.length = ks.length) (hp : p ≤ ks.length) (key' : K) :
    slotGet key' (ks.insertIdx p key) (vs.insertIdx p value) =
      if key = key' ∧ key' ∉ ks.take p then some value else slotGet key' ks vs := by
  rw [insertIdx_eq_take_drop key hp, insertIdx_eq_take_drop value (by omega),
    slotGet_append (by simp [hlen]), slotGet, slotGet_take_drop hlen p key']
  by_cases hmem : key' ∈ ks.take p
  · -- an earlier slot has the key
    have hsome : (slotGet key' (ks.take p) (vs.take p)).isSome := (slotGet_isSome (by simp [hlen])).2 hmem
    obtain ⟨v, hv⟩ := Option.isSome_iff_exists.1 hsome
    simp [hv, hmem]
  · by_cases hk : key = key'
    · simp [slotGet_of_not_mem hmem, hk, hmem]
    · simp [hk]

/-- A new key in any free position. -/
theorem slotGet_insertIdx {ks : List K} {vs : List V} {p : Nat} {key : K} (value : V)
    (hlen : vs.length = ks.length) (hp : p ≤ ks.length) (hk : key ∉ ks) (key' : K) :
    slotGet key' (ks.insertIdx p key) (vs.insertIdx p value) =
      if key' = key then some value else slotGet key' ks vs := by
  rw [slotGet_insertIdx_eq key value hlen hp key']
  by_cases h : key' = key
  · subst h
    rw [if_pos ⟨rfl, fun hm => hk (List.mem_of_mem_take hm)⟩, if_pos rfl]
  · rw [if_neg fun hc => h hc.1.symm, if_neg h]

/-- Overwriting the value of the first slot with the key. -/
theorem slotGet_set {key : K} (value : V) (key' : K) : ∀ {ks : List K} {vs : List V} {i : Nat},
    vs.length = ks.length → (ks.findIdx? fun k => decide (k = key)) = some i →
    slotGet key' ks (vs.set i value) = if key' = key then some value else slotGet key' ks vs
  | [], _, _, _, hi => by simp at hi
  | _ :: _, [], _, h, _ => by simp at h
  | k :: ks, v :: vs, i, h, hi => by
    rw [List.findIdx?_cons] at hi
    by_cases hk : k = key
    · obtain rfl : 0 = i := by simpa [hk] using hi
      by_cases h' : key' = key
      · simp [slotGet, hk, h']
      · simp [slotGet, hk, h', Ne.symm h']
    · obtain ⟨j, hj, rfl⟩ : ∃ j, (ks.findIdx? fun k => decide (k = key)) = some j ∧ j + 1 = i := by
        simpa [hk] using hi
      have hlen : vs.length = ks.length := by simpa using h
      have ih := slotGet_set value key' hlen hj
      by_cases h' : k = key'
      · have hne : key' ≠ key := fun e => hk (h'.trans e)
        simp [slotGet, h', hne]
      · simp [slotGet, h', ih]

/-- Erasing the slot of a key that occurs once. -/
theorem slotGet_eraseIdx {key : K} (key' : K) : ∀ {ks : List K} {vs : List V} {i : Nat}, ks.Nodup →
    vs.length = ks.length → (ks.findIdx? fun k => decide (k = key)) = some i →
    slotGet key' (ks.eraseIdx i) (vs.eraseIdx i) = if key' = key then none else slotGet key' ks vs
  | [], _, _, _, _, hi => by simp at hi
  | _ :: _, [], _, _, h, _ => by simp at h
  | k :: ks, v :: vs, i, hnd, h, hi => by
    obtain ⟨hkn, hnd⟩ := List.nodup_cons.1 hnd
    rw [List.findIdx?_cons] at hi
    by_cases hk : k = key
    · obtain rfl : 0 = i := by simpa [hk] using hi
      by_cases h' : key' = key
      · have hno : slotGet key ks vs = none := slotGet_of_not_mem (hk ▸ hkn)
        simp [h', hno]
      · simp [slotGet, hk, h', Ne.symm h']
    · obtain ⟨j, hj, rfl⟩ : ∃ j, (ks.findIdx? fun k => decide (k = key)) = some j ∧ j + 1 = i := by
        simpa [hk] using hi
      have hlen : vs.length = ks.length := by simpa using h
      have ih := slotGet_eraseIdx key' hnd hlen hj
      by_cases h' : k = key'
      · have hne : key' ≠ key := fun e => hk (h'.trans e)
        simp [slotGet, h', hne]
      · simp [slotGet, h', ih]

end Get

/-! ## Slots by their index -/

section Index
variable {α : Type} {f f' : Nat → α} {x : α} {n p : Nat}

theorem not_mem_take_iff {xs : List α} :
    x ∉ xs.take p ↔ ∀ j, xs[j]? = some x → p ≤ j := by
  simp only [List.mem_iff_getElem?, List.getElem?_take, not_exists]
  constructor
  · intro h j hj
    by_contra hlt
    exact h j (by rw [if_pos (by omega), hj])
  · intro h j hj
    split at hj
    · have := h j hj
      omega
    · cases hj

theorem map_range_set (h : ∀ j, f' j = if j = p then x else f j) :
    (List.range n).map f' = ((List.range n).map f).set p x := by
  apply List.ext_getElem (by simp)
  intro j hj hj'
  rw [List.getElem_set, List.getElem_map, List.getElem_range, h]
  grind

/-- One is put in at `p`, and those from `p` on go up by one. -/
theorem map_range_insertIdx (hp : p ≤ n)
    (h : ∀ j, f' j = if j = p then x else if p < j ∧ j ≤ n then f (j - 1) else f j) :
    (List.range (n + 1)).map f' = ((List.range n).map f).insertIdx p x := by
  apply List.ext_getElem (by simp [List.length_insertIdx, hp])
  intro j hj hj'
  simp only [List.length_map, List.length_range] at hj
  rw [List.getElem_insertIdx, List.getElem_map, List.getElem_range, h]
  grind

end Index

/-! ## Sorted keys -/

section Sorted
variable [LinearOrder K]

/-- The scan `if key > k { pos = i + 1 }` over the slots from `i` on. -/
def insertPosFrom (key : K) : Nat → Nat → List K → Nat
  | _, pos, [] => pos
  | i, pos, k :: ks => insertPosFrom key (i + 1) (if k < key then i + 1 else pos) ks

def insertPos (key : K) (ks : List K) : Nat := insertPosFrom key 0 0 ks

theorem insertPosFrom_le (key : K) : ∀ (ks : List K) (i pos : Nat), pos ≤ i →
    insertPosFrom key i pos ks ≤ i + ks.length
  | [], i, pos, h => by simpa [insertPosFrom] using h
  | k :: ks, i, pos, h => by
    have ih := insertPosFrom_le key ks (i + 1) (if k < key then i + 1 else pos) (by split <;> omega)
    simp only [insertPosFrom, List.length_cons]
    omega

theorem insertPos_le (key : K) (ks : List K) : insertPos key ks ≤ ks.length := by
  simpa [insertPos] using insertPosFrom_le key ks 0 0 (Nat.le_refl 0)

theorem insertPosFrom_le_iff {key : K} {j : Nat} : ∀ (ks : List K) (i pos : Nat), pos ≤ i →
    (insertPosFrom key i pos ks ≤ j ↔ pos ≤ j ∧ ∀ m k, ks[m]? = some k → k < key → i + m < j)
  | [], i, pos, _ => by simp [insertPosFrom]
  | k :: ks, i, pos, h => by
    rw [insertPosFrom, insertPosFrom_le_iff ks (i + 1) _ (by split <;> omega)]
    constructor
    · rintro ⟨hpos, hall⟩
      refine ⟨by split at hpos <;> omega, fun m k' hm hlt => ?_⟩
      cases m with
      | zero =>
        obtain rfl : k = k' := by simpa using hm
        rw [if_pos hlt] at hpos
        omega
      | succ m =>
        have hj := hall m k' (by simpa using hm) hlt
        omega
    · rintro ⟨hpos, hall⟩
      refine ⟨?_, fun m k' hm hlt => ?_⟩
      · split
        · rename_i hlt
          exact hall 0 k rfl hlt
        · exact hpos
      · have hj := hall (m + 1) k' (by simpa using hm) hlt
        omega

/-- The scan stops right behind the last slot below the key. -/
theorem insertPos_le_iff {key : K} {ks : List K} {j : Nat} :
    insertPos key ks ≤ j ↔ ∀ i k, ks[i]? = some k → k < key → i < j := by
  simpa [insertPos] using insertPosFrom_le_iff ks 0 0 (Nat.le_refl 0)

/-- The scan stops at the slot with the smaller keys before it. -/
theorem insertPos_eq_of_cut {key : K} {ks : List K} {j : Nat} (hj : j ≤ ks.length)
    (hbelow : ∀ i s, ks[i]? = some s → i < j → s < key) (habove : ∀ i s, ks[i]? = some s → j ≤ i → key ≤ s) :
    insertPos key ks = j := by
  refine le_antisymm (insertPos_le_iff.2 fun i s hi hlt => ?_) ?_
  · by_contra hji
    exact not_lt.2 (habove i s hi (not_lt.1 hji)) hlt
  · by_contra hlt
    obtain ⟨j, rfl⟩ := Nat.exists_eq_succ_of_ne_zero (Nat.ne_zero_of_lt (not_le.1 hlt))
    have hj' : ks[j]? = some ks[j] := List.getElem?_eq_getElem hj
    exact lt_irrefl j (insertPos_le_iff.1 (Nat.lt_succ_iff.1 (not_le.1 hlt)) j _ hj' (hbelow j _ hj' (Nat.lt_succ_self j)))

theorem insertPosFrom_of_not_lt {key : K} : ∀ {ks : List K} (i pos : Nat), (∀ k ∈ ks, ¬ k < key) →
    insertPosFrom key i pos ks = pos
  | [], _, _, _ => rfl
  | k :: ks, i, pos, h => by
    rw [insertPosFrom, if_neg (h k (by simp)), insertPosFrom_of_not_lt _ _ fun x hx => h x (by simp [hx])]

theorem insertPosFrom_append {key : K} : ∀ {as bs : List K} (i : Nat), (∀ k ∈ as, k < key) →
    (∀ k ∈ bs, ¬ k < key) → insertPosFrom key i i (as ++ bs) = i + as.length
  | [], bs, i, _, hb => by simpa using insertPosFrom_of_not_lt i i hb
  | a :: as, bs, i, ha, hb => by
    have has : ∀ k ∈ as, k < key := fun k hk => ha k (by simp [hk])
    have ih := insertPosFrom_append (i + 1) has hb
    rw [List.cons_append, insertPosFrom, if_pos (ha a (by simp)), ih, List.length_cons]
    omega

/-- Sorted keys fall apart at a key that is not among them. -/
theorem sorted_cut {key : K} : ∀ {ks : List K}, ks.Pairwise (· < ·) → key ∉ ks →
    ∃ as bs, ks = as ++ bs ∧ (∀ k ∈ as, k < key) ∧ ∀ k ∈ bs, key < k
  | [], _, _ => ⟨[], [], rfl, by simp, by simp⟩
  | k :: ks, hs, hk => by
    obtain ⟨hall, hs⟩ := List.pairwise_cons.1 hs
    rw [List.mem_cons, not_or] at hk
    rcases lt_or_gt_of_ne hk.1 with hlt | hgt
    · refine ⟨[], k :: ks, rfl, by simp, fun x hx => ?_⟩
      rcases List.mem_cons.1 hx with rfl | hx
      · exact hlt
      · exact hlt.trans (hall x hx)
    · obtain ⟨as, bs, rfl, ha, hb⟩ := sorted_cut hs hk.2
      refine ⟨k :: as, bs, rfl, fun x hx => ?_, hb⟩
      rcases List.mem_cons.1 hx with rfl | hx
      · exact hgt
      · exact ha x hx

/-- In sorted keys the scan stops where the key belongs. -/
theorem sorted_insertPos {key : K} {ks : List K} (hs : ks.Pairwise (· < ·)) (hk : key ∉ ks) :
    (ks.insertIdx (insertPos key ks) key).Pairwise (· < ·) := by
  obtain ⟨as, bs, rfl, ha, hb⟩ := sorted_cut hs hk
  have hpos : insertPos key (as ++ bs) = as.length := by
    simpa [insertPos] using insertPosFrom_append 0 ha fun k hk => (hb k hk).asymm
  obtain ⟨has, hbs, hab⟩ := List.pairwise_append.1 hs
  rw [hpos, insertIdx_append, List.pairwise_append, List.pairwise_cons]
  refine ⟨has, ⟨hb, hbs⟩, fun a haa b hbb => ?_⟩
  rcases List.mem_cons.1 hbb with rfl | hbb
  · exact ha a haa
  · exact hab a haa b hbb

/-- What a cut of sorted keys at slot `m` puts on each side. -/
theorem sorted_take_drop {ks : List K} {m : Nat} {sep : K} (hs : ks.Pairwise (· < ·))
    (hm : ks[m]? = some sep) : (∀ k ∈ ks.take m, k < sep) ∧ ∀ k ∈ ks.drop m, sep ≤ k := by
  obtain ⟨hlt, hget⟩ := List.getElem?_eq_some_iff.1 hm
  have hdrop : ks.drop m = sep :: ks.drop (m + 1) := by rw [List.drop_eq_getElem_cons hlt, hget]
  rw [← List.take_append_drop m ks, List.pairwise_append, hdrop, List.pairwise_cons] at hs
  rw [hdrop]
  refine ⟨fun k hk => hs.2.2 k hk sep (by simp), fun k hk => ?_⟩
  rcases List.mem_cons.1 hk with rfl | hk
  · exact le_refl _
  · exact (hs.2.1.1 k hk).le

/-- A cut of sorted keys at slot `m` divides the look-ups at the key of that slot. -/
theorem slotGet_split {ks : List K} {vs : List V} {m : Nat} {sep : K} (hlen : vs.length = ks.length)
    (hs : ks.Pairwise (· < ·)) (hm : ks[m]? = some sep) (key : K) :
    slotGet key ks vs = if key < sep then slotGet key (ks.take m) (vs.take m)
      else slotGet key (ks.drop m) (vs.drop m) := by
  obtain ⟨hleft, hright⟩ := sorted_take_drop hs hm
  rw [slotGet_take_drop hlen m]
  split
  · rename_i hlt
    have hno : key ∉ ks.drop m := fun hmem => (hright key hmem).not_gt hlt
    rw [slotGet_of_not_mem hno, Option.or_none]
  · rename_i hge
    have hno : key ∉ ks.take m := fun hmem => hge (hleft key hmem)
    rw [slotGet_of_not_mem hno, Option.none_or]

end Sorted

/-! ## Descents -/

/-- A test that fails up to a cut and holds from there on is first met at the cut. -/
theorem findIdx_eq_of_cut {α : Type} {p : α → Bool} {xs : List α} {j : Nat} (hj : j ≤ xs.length)
    (hlt : ∀ i x, xs[i]? = some x → i < j → p x = false) (hge : ∀ i x, xs[i]? = some x → j ≤ i → p x = true) :
    xs.findIdx p = j := by
  rcases Nat.lt_or_eq_of_le hj with hj | rfl
  · rw [List.findIdx_eq hj]
    exact ⟨hge j _ (List.getElem?_eq_getElem hj) (Nat.le_refl j),
      fun i hi => hlt i _ (List.getElem?_eq_getElem _) hi⟩
  · rw [List.findIdx_eq_length]
    intro x hx
    obtain ⟨i, hi⟩ := List.mem_iff_getElem?.1 hx
    exact hlt i x hi (List.getElem?_eq_some_iff.1 hi).1

end RedisOps.Lib
