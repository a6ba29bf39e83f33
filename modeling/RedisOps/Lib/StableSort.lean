import Mathlib.Data.List.Sort
import Mathlib.Tactic

/-!
# Stable sorting

`StablySorted key before after`: `after` is `before` in the order of the keys, with elements of one key in the order they had.
There is one such list (`StablySorted.unique`) and `mergeSort` finds it. Sorting again after every new element is sorting
once (`StablySorted.concat`).
-/

namespace RedisOps.Lib

variable {α κ : Type} [LinearOrder κ] {key : α → κ} {xs ys zs : List α}

structure StablySorted (key : α → κ) (before after : List α) : Prop where
  perm : after.Perm before
  sorted : after.Pairwise fun a b => key a ≤ key b
  ties : ∀ k, (after.filter fun a => key a = k) = before.filter fun a => key a = k

/-- Two sorted lists that agree on every key are one list: the first elements have the least key, and are the first of it. -/
theorem eq_of_sorted_of_ties (hperm : ys.Perm zs) (hys : ys.Pairwise fun a b => key a ≤ key b)
    (hzs : zs.Pairwise fun a b => key a ≤ key b)
    (hties : ∀ k, (ys.filter fun a => key a = k) = zs.filter fun a => key a = k) : ys = zs := by
  induction ys generalizing zs with
  | nil => exact (List.nil_perm.1 hperm).symm
  | cons y ys ih =>
    cases zs with
    | nil => exact absurd hperm.length_eq (by simp)
    | cons z zs =>
      obtain ⟨hy, hys'⟩ := List.pairwise_cons.1 hys
      obtain ⟨hz, hzs'⟩ := List.pairwise_cons.1 hzs
      have hyz : key y ≤ key z := by
        rcases List.mem_cons.1 (hperm.mem_iff.2 List.mem_cons_self) with rfl | hmem
        · exact le_rfl
        · exact hy z hmem
      have hzy : key z ≤ key y := by
        rcases List.mem_cons.1 (hperm.mem_iff.1 List.mem_cons_self) with rfl | hmem
        · exact le_rfl
        · exact hz y hmem
      have hkey : key z = key y := le_antisymm hzy hyz
      have hhead := hties (key y)
      rw [List.filter_cons_of_pos (by simp), List.filter_cons_of_pos (by simpa using hkey)] at hhead
      obtain rfl : y = z := (List.cons.inj hhead).1
      rw [ih hperm.cons_inv hys' hzs']
      intro k
      have hk := hties k
      by_cases hyk : key y = k
      · rw [List.filter_cons_of_pos (by simpa using hyk), List.filter_cons_of_pos (by simpa using hyk)] at hk
        exact (List.cons.inj hk).2
      · rwa [List.filter_cons_of_neg (by simpa using hyk), List.filter_cons_of_neg (by simpa using hyk)] at hk

theorem StablySorted.unique (h : StablySorted key xs ys) (h' : StablySorted key xs zs) : ys = zs := by
  apply eq_of_sorted_of_ties (h.perm.trans h'.perm.symm) h.sorted h'.sorted
  intro k
  rw [h.ties, h'.ties]

theorem StablySorted.nil : StablySorted key [] [] := ⟨.nil, .nil, fun _ => rfl⟩

theorem stablySorted_mergeSort (xs : List α) :
    StablySorted key xs (xs.mergeSort fun a b => decide (key a ≤ key b)) := by
  have htrans : ∀ a b c : α, decide (key a ≤ key b) = true → decide (key b ≤ key c) = true →
      decide (key a ≤ key c) = true := by
    intro a b c hab hbc
    simp only [decide_eq_true_eq] at *
    exact hab.trans hbc
  have htotal : ∀ a b : α, (decide (key a ≤ key b) || decide (key b ≤ key a)) = true := by
    intro a b
    simpa using le_total (key a) (key b)
  have hperm := List.mergeSort_perm xs fun a b => decide (key a ≤ key b)
  refine ⟨hperm, ?_, ?_⟩
  · simpa only [decide_eq_true_eq] using List.pairwise_mergeSort htrans htotal xs
  · intro k
    -- the elements of one key are a sorted sublist, which merge sort keeps
    have hequal : (xs.filter fun a => key a = k).Pairwise fun a b => decide (key a ≤ key b) = true := by
      refine List.pairwise_of_forall_mem_list ?_
      intro a ha b hb
      have hka : key a = k := by simpa using (List.mem_filter.1 ha).2
      have hkb : key b = k := by simpa using (List.mem_filter.1 hb).2
      simp [hka, hkb]
    have hsub := List.sublist_mergeSort htrans htotal hequal List.filter_sublist
    have hfilter := hsub.filter fun a => key a = k
    rw [List.filter_filter] at hfilter
    simp only [Bool.and_self] at hfilter
    exact (hfilter.eq_of_length (hperm.filter _).length_eq.symm).symm

/-- **Sorting again.** A sorted list with one more element is sorted into what the whole list is sorted into. -/
theorem StablySorted.concat {x : α} (h : StablySorted key xs ys) (h' : StablySorted key (ys ++ [x]) zs) :
    StablySorted key (xs ++ [x]) zs := by
  refine ⟨h'.perm.trans (h.perm.append_right [x]), h'.sorted, ?_⟩
  intro k
  rw [h'.ties, List.filter_append, List.filter_append, h.ties]

end RedisOps.Lib
