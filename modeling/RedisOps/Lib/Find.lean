import Mathlib.Data.List.TakeWhile
import RedisOps.Lib.Bytes

/-!
# Searching and cutting strings

* `find` — `std::string::find`: the first position, from a given one on, at which a string occurs. A string that begins with a
  delimiter is found behind any text without one (`findAt_append`), and one without a separator is searched between the
  separators (`findAt_through`).
* `upTo`, `upToLast` — `s.substr(0, s.find(c))` and `s.substr(0, s.rfind(c))`; all of `s` if there is no `c`.
* `cut_unique` — a list is cut in one way at its first delimiter.
-/

namespace RedisOps.Lib

section
variable {α : Type}

theorem cut_unique {q : α} {a b x y : List α} (ha : q ∉ a) (hb : q ∉ b) (h : a ++ q :: x = b ++ q :: y) :
    a = b ∧ x = y := by
  induction a generalizing b with
  | nil =>
    cases b with
    | nil => exact ⟨rfl, (List.cons.inj h).2⟩
    | cons c b =>
      rw [List.nil_append, List.cons_append, List.cons.injEq] at h
      exact absurd (h.1 ▸ List.mem_cons_self) hb
  | cons c a ih =>
    cases b with
    | nil =>
      rw [List.nil_append, List.cons_append, List.cons.injEq] at h
      exact absurd (h.1 ▸ List.mem_cons_self) ha
    | cons d b =>
      rw [List.cons_append, List.cons_append, List.cons.injEq] at h
      obtain ⟨hcd, hrest⟩ := h
      obtain ⟨hab, hxy⟩ := ih (fun hmem => ha (List.mem_cons_of_mem c hmem)) (fun hmem => hb (List.mem_cons_of_mem d hmem)) hrest
      exact ⟨by rw [hcd, hab], hxy⟩

/-- Nothing follows a delimiter that is the last. -/
theorem eq_nil_of_cut {q : α} {a y z : List α} (ha : q ∉ a) (h : a ++ [q] = y ++ q :: z) : z = [] := by
  cases z using List.reverseRecOn with
  | nil => rfl
  | append_singleton z x =>
    rw [← List.cons_append, ← List.append_assoc] at h
    obtain ⟨hfront, -⟩ := List.append_inj' h rfl
    exact absurd (hfront ▸ by simp) ha

/-- What has no separator in it ends before the next one. -/
theorem prefix_append_cons_iff {pat : List α} {c : α} (hc : c ∉ pat) (a s : List α) : pat <+: a ++ c :: s ↔ pat <+: a := by
  induction a generalizing pat with
  | nil =>
    cases pat with
    | nil => simp
    | cons p pat =>
      have hne : p ≠ c := fun h => hc (h ▸ List.mem_cons_self)
      simp [List.cons_prefix_cons, hne]
  | cons d a ih =>
    cases pat with
    | nil => simp
    | cons p pat =>
      rw [List.cons_append, List.cons_prefix_cons, List.cons_prefix_cons, ih fun hmem => hc (List.mem_cons_of_mem p hmem)]

variable [DecidableEq α]

/-! ## `find` -/

/-- The first position in `s`. -/
def findAt (pat : List α) : List α → Option Nat
  | [] => if pat = [] then some 0 else none
  | c :: s => if pat.isPrefixOf (c :: s) then some 0 else (findAt pat s).map (· + 1)

/-- `s.find(pat, pos)`; `none` is `npos`. -/
def find (s pat : List α) (pos : Nat) : Option Nat :=
  if s.length < pos then none else (findAt pat (s.drop pos)).map (· + pos)

variable {pat s : List α}

theorem findAt_of_starts (h : pat <+: s) : findAt pat s = some 0 := by
  cases s with
  | nil => rw [findAt, if_pos (List.prefix_nil.1 h)]
  | cons c s => rw [findAt, if_pos (List.isPrefixOf_iff_prefix.2 h)]

theorem findAt_cons {c : α} (h : ¬pat <+: c :: s) : findAt pat (c :: s) = (findAt pat s).map (· + 1) := by
  rw [findAt, if_neg (by rwa [List.isPrefixOf_iff_prefix])]

/-- What begins with a delimiter is not found where there is none. -/
theorem findAt_append {q : α} {p a : List α} (ha : q ∉ a) (s : List α) :
    findAt (q :: p) (a ++ s) = (findAt (q :: p) s).map (· + a.length) := by
  induction a with
  | nil => simp
  | cons c a ih =>
    have hne : ¬q :: p <+: c :: (a ++ s) := by
      intro h
      obtain ⟨hqc, -⟩ := List.cons_prefix_cons.1 h
      exact ha (hqc ▸ List.mem_cons_self)
    rw [List.cons_append, findAt_cons hne, ih (fun hmem => ha (List.mem_cons_of_mem c hmem)), Option.map_map]
    rfl

/-- The search goes on behind a separator. -/
theorem findAt_through {c : α} (hc : c ∉ pat) (a s : List α) :
    findAt pat (a ++ c :: s) = (findAt pat a).or ((findAt pat s).map (· + (a.length + 1))) := by
  induction a with
  | nil =>
    rw [List.nil_append, List.length_nil, Nat.zero_add]
    by_cases hpat : pat = []
    · subst hpat
      rfl
    · have hnot : ¬pat <+: c :: s := by
        intro h
        exact hpat (List.prefix_nil.1 ((prefix_append_cons_iff hc [] s).1 h))
      rw [findAt_cons hnot, findAt, if_neg hpat, Option.none_or]
  | cons d a ih =>
    by_cases h : pat <+: d :: a
    · rw [findAt_of_starts h, findAt_of_starts (h.trans (List.prefix_append _ _)), Option.some_or]
    · have hnot : ¬pat <+: d :: (a ++ c :: s) := by rwa [← List.cons_append, prefix_append_cons_iff hc]
      rw [List.cons_append, findAt_cons h, findAt_cons hnot, ih, Option.map_or, Option.map_map]
      rfl

/-- The text in front of it is as long as the position says. -/
theorem findAt_eq_some {i : Nat} (h : findAt pat s = some i) : ∃ a b, s = a ++ (pat ++ b) ∧ a.length = i := by
  induction s generalizing i with
  | nil =>
    rw [findAt] at h
    split at h
    · rename_i hpat
      cases h
      exact ⟨[], [], by simp [hpat], rfl⟩
    · cases h
  | cons c s ih =>
    by_cases hpre : pat <+: c :: s
    · rw [findAt_of_starts hpre] at h
      cases h
      obtain ⟨b, hb⟩ := hpre
      exact ⟨[], b, hb.symm, rfl⟩
    · rw [findAt_cons hpre] at h
      obtain ⟨j, hj, rfl⟩ := Option.map_eq_some_iff.1 h
      obtain ⟨a, b, hs, ha⟩ := ih hj
      exact ⟨c :: a, b, by rw [hs, List.cons_append], by rw [List.length_cons, ha]⟩

theorem findAt_eq_none {c : α} (hc : c ∈ pat) (hs : c ∉ s) : findAt pat s = none := by
  by_contra hne
  obtain ⟨i, hi⟩ := Option.ne_none_iff_exists'.1 hne
  obtain ⟨a, b, hab, -⟩ := findAt_eq_some hi
  exact hs (hab ▸ List.mem_append_right a (List.mem_append_left b hc))

/-- A quoted word and what follows it are not found in a quoted text. -/
theorem findAt_quoted_eq_none {q e : α} (w : List α) {a : List α} (ha : q ∉ a) :
    findAt (q :: (w ++ [q, e])) (q :: (a ++ [q])) = none := by
  by_contra hne
  obtain ⟨i, hi⟩ := Option.ne_none_iff_exists'.1 hne
  obtain ⟨front, rest, heq, -⟩ := findAt_eq_some hi
  cases front with
  | nil =>
    have hcut : a ++ [q] = w ++ q :: (e :: rest) := by simpa using heq
    exact List.cons_ne_nil _ _ (eq_nil_of_cut ha hcut)
  | cons c front =>
    have hcut : a ++ [q] = front ++ q :: (w ++ q :: e :: rest) := by simpa using (List.cons.inj heq).2
    have hnil := eq_nil_of_cut ha hcut
    simp at hnil

/-- `find` from the start of what is left. -/
theorem find_append (a b : List α) {pos : Nat} (hpos : a.length = pos) :
    find (a ++ b) pat pos = (findAt pat b).map (· + pos) := by
  rw [find, if_neg (by rw [List.length_append]; omega), List.drop_left' hpos]

/-- `find(pat) == 0`. -/
theorem find_eq_zero_iff : find s pat 0 = some 0 ↔ pat <+: s := by
  rw [find, if_neg (Nat.not_lt_zero _), List.drop_zero]
  constructor
  · intro h
    cases s with
    | nil =>
      by_cases hpat : pat = []
      · exact hpat ▸ List.nil_prefix
      · rw [findAt, if_neg hpat] at h
        cases h
    | cons c s =>
      by_contra hne
      rw [findAt_cons hne, Option.map_map] at h
      obtain ⟨i, -, hi⟩ := Option.map_eq_some_iff.1 h
      simp at hi
  · intro h
    rw [findAt_of_starts h]
    rfl

theorem find_zero : find s pat 0 = findAt pat s := by
  rw [find, if_neg (Nat.not_lt_zero _), List.drop_zero]
  exact Option.map_id'

theorem isSome_findAt_iff : (findAt pat s).isSome ↔ pat <:+: s := by
  constructor
  · intro h
    obtain ⟨i, hi⟩ := Option.isSome_iff_exists.1 h
    obtain ⟨a, b, rfl, -⟩ := findAt_eq_some hi
    exact ⟨a, b, List.append_assoc a pat b⟩
  · intro h
    induction s with
    | nil =>
      rw [List.infix_nil.1 h, findAt, if_pos rfl]
      rfl
    | cons c s ih =>
      by_cases hstart : pat <+: c :: s
      · rw [findAt_of_starts hstart]
        rfl
      · rw [findAt_cons hstart, Option.isSome_map]
        exact ih ((List.infix_cons_iff.1 h).resolve_left hstart)

/-! ## What stands behind a string -/

/-- The text from `n` characters behind the start of the first occurrence on. -/
def behind (pat : List α) (n : Nat) (s : List α) : Option (List α) := (findAt pat s).map fun pos => s.drop (pos + n)

theorem behind_skip {c : α} (hc : c ∉ pat) {a : List α} (ha : findAt pat a = none) (n : Nat) (s : List α) :
    behind pat n (a ++ c :: s) = behind pat n s := by
  rw [behind, behind, findAt_through hc, ha, Option.none_or, Option.map_map]
  congr 1
  funext pos
  have hlen : pos + (a.length + 1) + n = (a ++ [c]).length + (pos + n) := by simp; omega
  rw [Function.comp, hlen, List.append_cons a c s, List.drop_length_add_append]

theorem behind_inside {c : α} (hc : c ∉ pat) {a : List α} {i n : Nat} (ha : findAt pat a = some i) (hn : i + n ≤ a.length)
    (s : List α) : behind pat n (a ++ c :: s) = some (a.drop (i + n) ++ c :: s) := by
  rw [behind, findAt_through hc, ha, Option.some_or, Option.map_some, List.drop_append_of_le_length hn]

/-- One character is passed over. -/
theorem behind_last {c : α} (hc : c ∉ pat) {a : List α} {i n : Nat} (ha : findAt pat a = some i) (hn : i + n = a.length + 1)
    (s : List α) : behind pat n (a ++ c :: s) = some s := by
  rw [behind, findAt_through hc, ha, Option.some_or, Option.map_some, hn]
  simp

/-! ## Cutting -/

def upTo (c : α) (s : List α) : List α := s.takeWhile (· ≠ c)

def upToLast (c : α) (s : List α) : List α := if c ∈ s then (s.reverse.dropWhile (· ≠ c)).tail.reverse else s

theorem forall_ne_of_not_mem {c : α} {a : List α} (ha : c ∉ a) : ∀ x ∈ a, decide (x ≠ c) = true := by
  intro x hx
  rw [decide_eq_true_eq]
  rintro rfl
  exact ha hx

theorem dropWhile_ne_append {c : α} {a : List α} (ha : c ∉ a) (b : List α) :
    (a ++ c :: b).dropWhile (· ≠ c) = c :: b := by
  rw [List.dropWhile_append_of_pos (forall_ne_of_not_mem ha), List.dropWhile_cons_of_neg (by simp)]

theorem upTo_append {c : α} {a : List α} (ha : c ∉ a) (b : List α) : upTo c (a ++ c :: b) = a := by
  rw [upTo, List.takeWhile_append_of_pos (forall_ne_of_not_mem ha), List.takeWhile_cons_of_neg (by simp), List.append_nil]

theorem upTo_eq_self {c : α} {a : List α} (ha : c ∉ a) : upTo c a = a := by
  rw [upTo, List.takeWhile_eq_self_iff.2 (forall_ne_of_not_mem ha)]

theorem upTo_cons_eq_nil_iff {c b : α} {s : List α} : upTo c (b :: s) = [] ↔ b = c := by
  by_cases h : b = c <;> simp [upTo, h]

/-- `s.substr(0, s.find(c))`. -/
theorem take_findAt (c : α) (s : List α) : (match findAt [c] s with | some i => s.take i | none => s) = upTo c s := by
  by_cases hc : c ∈ s
  · obtain ⟨a, b, rfl, ha⟩ := List.eq_append_cons_of_mem hc
    have hfind : findAt [c] (a ++ c :: b) = some a.length := by
      rw [findAt_append ha, findAt_of_starts (by simp), Option.map_some, Nat.zero_add]
    rw [hfind, upTo_append ha]
    simp
  · rw [findAt_eq_none List.mem_cons_self hc, upTo_eq_self hc]

theorem upToLast_append {c : α} (a : List α) {b : List α} (hb : c ∉ b) : upToLast c (a ++ c :: b) = a := by
  have hrev : c ∉ b.reverse := by rwa [List.mem_reverse]
  rw [upToLast, if_pos (by simp), List.reverse_append, List.reverse_cons, List.append_assoc, List.singleton_append,
    dropWhile_ne_append hrev, List.tail_cons, List.reverse_reverse]

end

end RedisOps.Lib
