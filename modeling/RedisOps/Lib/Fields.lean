import RedisOps.Lib.Text

/-!
# Texts between separators

`List.splitOn c` cuts a list at every `c`. `between_infix_iff`: a list with a separator on both sides occurs in another one
exactly when its pieces occur there in a row, the first and the last piece left aside.
-/

namespace RedisOps.Lib

section Pieces
variable {α : Type} [BEq α] [LawfulBEq α] (c : α)

omit [BEq α] [LawfulBEq α] in
theorem intercalate_append {xs ys : List (List α)} (hx : xs ≠ []) (hy : ys ≠ []) :
    [c].intercalate (xs ++ ys) = [c].intercalate xs ++ c :: [c].intercalate ys := by
  induction xs with
  | nil => exact absurd rfl hx
  | cons x xs ih =>
    cases xs with
    | nil =>
      rw [List.singleton_append, List.intercalate_cons_of_ne_nil hy, List.intercalate_singleton]
      simp
    | cons x' xs =>
      rw [List.cons_append, List.intercalate_cons_of_ne_nil (by simp), ih (by simp), List.intercalate_cons_cons]
      simp

theorem between_infix_iff (q s : List α) :
    c :: (q ++ [c]) <:+: s ↔ q.splitOn c <:+: (s.splitOn c).tail.dropLast := by
  constructor
  · rintro ⟨before, behind, rfl⟩
    have hsplit : (before ++ c :: (q ++ [c]) ++ behind).splitOn c =
        before.splitOn c ++ (q.splitOn c ++ behind.splitOn c) := by
      rw [List.append_assoc, List.cons_append, List.append_assoc, List.singleton_append, List.splitOn_append_cons_self,
        List.splitOn_append_cons_self]
    rw [hsplit, List.tail_append_of_ne_nil (List.splitOn_ne_nil _ _), ← List.append_assoc,
      List.dropLast_append_of_ne_nil (List.splitOn_ne_nil _ _)]
    exact List.infix_append _ _ _
  · rintro ⟨before, behind, h⟩
    -- the pieces of `s` are those three groups with a first and a last piece around them
    cases hs : s.splitOn c with
    | nil => exact absurd hs (List.splitOn_ne_nil _ _)
    | cons first rest =>
      rw [hs, List.tail_cons] at h
      have hq : q.splitOn c ≠ [] := List.splitOn_ne_nil _ _
      have hrest : rest ≠ [] := by
        rintro rfl
        simp [hq] at h
      have hpieces : s.splitOn c =
          (first :: before) ++ (q.splitOn c ++ (behind ++ [rest.getLast hrest])) := by
        rw [hs]
        nth_rewrite 1 [← List.dropLast_concat_getLast hrest]
        rw [← h]
        simp
      have hs' : s = [c].intercalate (first :: before) ++ c :: (q ++ c :: [c].intercalate (behind ++ [rest.getLast hrest])) := by
        have hjoin : [c].intercalate (s.splitOn c) = s := List.intercalate_splitOn c
        rw [← hjoin, hpieces, intercalate_append c (by simp) (by simp [hq]), intercalate_append c hq (by simp),
          List.intercalate_splitOn]
      rw [hs']
      refine ⟨[c].intercalate (first :: before), [c].intercalate (behind ++ [rest.getLast hrest]), ?_⟩
      simp

end Pieces

/-! ## Strings -/

/-- What is between the bars. -/
def fields (s : String) : List (List Char) := s.toList.splitOn '|'

theorem contains_iff_occurs (s pat : String) : contains s pat = true ↔ pat.toList <:+: s.toList := by
  unfold contains
  rw [List.any_eq_true, List.infix_iff_prefix_suffix]
  constructor
  · rintro ⟨t, ht, hpat⟩
    exact ⟨t, List.isPrefixOf_iff_prefix.1 hpat, (List.mem_tails _ _).1 ht⟩
  · rintro ⟨t, hpat, ht⟩
    exact ⟨t, (List.mem_tails _ _).2 ht, List.isPrefixOf_iff_prefix.2 hpat⟩

theorem contains_bars_iff (s q : String) :
    contains s ("|" ++ q ++ "|") = true ↔ fields q <:+: (fields s).tail.dropLast := by
  have hbars : ("|" ++ q ++ "|").toList = '|' :: (q.toList ++ ['|']) := by
    simp [String.toList_append]
  rw [contains_iff_occurs, hbars]
  exact between_infix_iff '|' q.toList s.toList

theorem fields_append (a b : String) : fields (a ++ "|" ++ b) = fields a ++ fields b := by
  have hbar : (a ++ "|" ++ b).toList = a.toList ++ '|' :: b.toList := by
    simp [String.toList_append]
  rw [fields, hbar]
  exact List.splitOn_append_cons_self _ _

end RedisOps.Lib
