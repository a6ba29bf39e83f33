import RedisOps.Lib.Find

/-!
# Paths

* `resolve` — a path in its components, as it is spelled: empty and `.` components are dropped, `..` takes the one before it
  away, and stays in front of a path that is not absolute. Links are not followed.
* `Path.Contains` — one path is another, or lies below it.
* `Path.text` — a path written out, with a slash behind every component. `text_prefix_iff`: of written out paths one contains
  the other exactly if its text is a prefix.
* `standing` — the components that stand, by counting: names with no stretch right behind them that has more `..` than names.
  `resolve_parts`: these are what an absolute path resolves to.
-/

namespace RedisOps.Lib

structure Path where
  absolute : Bool
  parts : List Bytes
  slashless : ∀ part ∈ parts, 47 ∉ part

namespace Path

/-- `q` is `p` or below it. -/
def Contains (p q : Path) : Prop := p.absolute = q.absolute ∧ p.parts <+: q.parts

def text (p : Path) : Bytes := (if p.absolute then [] else [46]) ++ 47 :: p.parts.flatMap (· ++ [47])

end Path

/-! ## Resolving -/

/-- The last component is on top. -/
def push (absolute : Bool) (stack : List Bytes) (part : Bytes) : List Bytes :=
  if part = [] ∨ part = [46] then stack
  else if part = [46, 46] then
    match stack with
    | [] => if absolute then [] else [part]
    | top :: rest => if top = [46, 46] then part :: stack else rest
  else part :: stack

theorem mem_push {absolute : Bool} {stack : List Bytes} {part q : Bytes} (h : q ∈ push absolute stack part) :
    q ∈ stack ∨ q = part := by
  unfold push at h
  split at h
  · exact .inl h
  · split at h
    · cases stack with
      | nil => cases absolute <;> simp_all
      | cons top rest =>
        by_cases htop : top = [46, 46]
        · simpa [htop, or_comm] using h
        · exact .inl (by simp_all)
    · simpa [or_comm] using h

theorem not_mem_of_mem_splitOn {α : Type} [BEq α] [LawfulBEq α] {c : α} {s piece : List α} (h : piece ∈ s.splitOn c) :
    c ∉ piece := by
  induction s generalizing piece with
  | nil =>
    rw [List.splitOn_nil, List.mem_singleton] at h
    simp [h]
  | cons x s ih =>
    rw [List.splitOn_cons_eq_if_modifyHead] at h
    split at h
    · rcases List.mem_cons.1 h with rfl | hmem
      · exact List.not_mem_nil
      · exact ih hmem
    · rename_i hx
      cases hs : s.splitOn c with
      | nil => exact absurd hs (List.splitOn_ne_nil _ _)
      | cons head rest =>
        rw [hs] at h ih
        rcases List.mem_cons.1 h with rfl | hmem
        · simp only [List.mem_cons, not_or]
          exact ⟨fun hc => hx (by simp [hc]), ih List.mem_cons_self⟩
        · exact ih (List.mem_cons_of_mem _ hmem)

theorem slashless_foldl_push (absolute : Bool) (parts : List Bytes) (stack : List Bytes) (hparts : ∀ part ∈ parts, 47 ∉ part)
    (hstack : ∀ part ∈ stack, 47 ∉ part) : ∀ part ∈ parts.foldl (push absolute) stack, 47 ∉ part := by
  induction parts generalizing stack with
  | nil => exact hstack
  | cons part parts ih =>
    obtain ⟨hpart, hparts⟩ := List.forall_mem_cons.1 hparts
    apply ih _ hparts
    intro q hq
    rcases mem_push hq with hmem | rfl
    · exact hstack q hmem
    · exact hpart

def resolve (path : Bytes) : Path :=
  let absolute := path.head? = some 47
  { absolute
    parts := ((path.splitOn 47).foldl (push absolute) []).reverse
    slashless := fun part hpart =>
      slashless_foldl_push absolute _ [] (fun _ => not_mem_of_mem_splitOn) (List.forall_mem_nil _) part
        (List.mem_reverse.1 hpart) }

/-! ## What stands -/

def isUp (part : Bytes) : Bool := part = [46, 46]

def isName (part : Bytes) : Bool := part ≠ [] ∧ part ≠ [46] ∧ part ≠ [46, 46]

/-- No stretch in front has more `..` than names. -/
def Stays (parts : List Bytes) : Prop :=
  ∀ n, n ≤ parts.length → (parts.take n).countP isUp ≤ (parts.take n).countP isName

instance (parts : List Bytes) : Decidable (Stays parts) := Nat.decidableBallLE _ _

def standing : List Bytes → List Bytes
  | [] => []
  | part :: parts => if isName part ∧ Stays parts then part :: standing parts else standing parts

/-- How many components are taken away from what is in front. -/
def climb : List Bytes → Nat
  | [] => 0
  | part :: parts => if isUp part then climb parts + 1 else if isName part then climb parts - 1 else climb parts

theorem not_isName_of_isUp {part : Bytes} (h : isUp part = true) : isName part = false := by
  simp_all [isUp, isName]

theorem climb_le_iff {parts : List Bytes} {k : Nat} : climb parts ≤ k ↔
    ∀ n, n ≤ parts.length → (parts.take n).countP isUp ≤ (parts.take n).countP isName + k := by
  induction parts generalizing k with
  | nil => simp [climb]
  | cons part parts ih =>
    have hshift : (∀ n, n ≤ (part :: parts).length →
        ((part :: parts).take n).countP isUp ≤ ((part :: parts).take n).countP isName + k) ↔
        ∀ n, n ≤ parts.length → (parts.take n).countP isUp + (if isUp part then 1 else 0) ≤
          (parts.take n).countP isName + (if isName part then 1 else 0) + k := by
      constructor
      · intro h n hn
        simpa [List.countP_cons] using h (n + 1) (by simpa using hn)
      · intro h n hn
        cases n with
        | zero => simp
        | succ n => simpa [List.countP_cons] using h n (by simpa using hn)
    rw [hshift, climb]
    by_cases hup : isUp part = true
    · simp only [hup, not_isName_of_isUp hup, if_true, Bool.false_eq_true, if_false]
      constructor
      · intro h n hn
        have := ih.1 (show climb parts ≤ k - 1 by omega) n hn
        omega
      · intro h
        have h0 := h 0 (Nat.zero_le _)
        simp only [List.take_zero, List.countP_nil] at h0
        have := ih (k := k - 1) |>.2 fun n hn => by have := h n hn; omega
        omega
    · by_cases hname : isName part = true
      · simp only [hup, hname, if_true, Bool.false_eq_true, if_false]
        rw [Nat.sub_le_iff_le_add, ih]
        exact forall₂_congr fun n hn => by omega
      · simp only [hup, hname, Bool.false_eq_true, if_false]
        rw [ih]
        exact forall₂_congr fun n hn => by omega

theorem stays_iff {parts : List Bytes} : Stays parts ↔ climb parts = 0 := by
  rw [← Nat.le_zero, climb_le_iff]
  rfl

theorem foldl_push {parts stack : List Bytes} (hstack : [46, 46] ∉ stack) :
    parts.foldl (push true) stack = (standing parts).reverse ++ stack.drop (climb parts) := by
  induction parts generalizing stack with
  | nil => simp [standing, climb]
  | cons part parts ih =>
    rw [List.foldl_cons, standing, climb]
    by_cases hup : part = [46, 46]
    · subst hup
      have htail : push true stack [46, 46] = stack.tail := by
        cases stack with
        | nil => rfl
        | cons top rest =>
          have htop : top ≠ [46, 46] := fun h => hstack (by simp [h])
          simp [push, htop]
      have hname : isName [46, 46] = false := rfl
      have hisup : isUp [46, 46] = true := rfl
      rw [htail, ih fun h => hstack (List.mem_of_mem_tail h), hname, hisup, List.drop_tail]
      simp
    · have hisup : isUp part = false := by simpa [isUp] using hup
      by_cases hname : isName part = true
      · have hpush : push true stack part = part :: stack := by
          simp only [isName, decide_eq_true_eq] at hname
          simp [push, hname]
        have hnot : [46, 46] ∉ part :: stack := by
          rw [List.mem_cons]
          rintro (h | h)
          · exact hup h.symm
          · exact hstack h
        rw [hpush, ih hnot]
        simp only [hname, hisup, stays_iff, true_and, Bool.false_eq_true, if_false, if_true]
        by_cases hclimb : climb parts = 0
        · simp [hclimb]
        · obtain ⟨k, hk⟩ := Nat.exists_eq_succ_of_ne_zero hclimb
          simp [hk]
      · have hpush : push true stack part = stack := by
          simp only [isName, decide_eq_true_eq, not_and, not_not] at hname
          by_cases hnil : part = []
          · simp [push, hnil]
          · by_cases hdot : part = [46]
            · simp [push, hdot]
            · exact absurd (hname hnil hdot) hup
        rw [hpush, ih hstack]
        simp [hname, hisup]

/-- **What stands** is what an absolute path resolves to. -/
theorem resolve_parts {path : Bytes} (h : path.head? = some 47) : (resolve path).parts = standing (path.splitOn 47) := by
  have habs : decide (path.head? = some 47) = true := by simp [h]
  simp only [resolve, habs]
  rw [foldl_push List.not_mem_nil, List.drop_nil, List.append_nil, List.reverse_reverse]

theorem climb_append {front back : List Bytes} (h : climb back = 0) : climb (front ++ back) = climb front := by
  induction front with
  | nil => exact h
  | cons part front ih => rw [List.cons_append, climb, climb, ih]

/-- Behind what is there, nothing climbs out. -/
theorem standing_append {front back : List Bytes} (h : Stays back) :
    standing (front ++ back) = standing front ++ standing back := by
  induction front with
  | nil => rfl
  | cons part front ih =>
    have hstays : Stays (front ++ back) ↔ Stays front := by
      rw [stays_iff, stays_iff, climb_append (stays_iff.1 h)]
    rw [List.cons_append, standing, standing, ih]
    simp only [hstays]
    split <;> rfl

/-! ## Written out -/

theorem flatMap_slash_prefix_iff {ps qs : List Bytes} (hps : ∀ p ∈ ps, 47 ∉ p) (hqs : ∀ q ∈ qs, 47 ∉ q) :
    ps.flatMap (· ++ [47]) <+: qs.flatMap (· ++ [47]) ↔ ps <+: qs := by
  induction ps generalizing qs with
  | nil => simp
  | cons p ps ih =>
    obtain ⟨hp, hps⟩ := List.forall_mem_cons.1 hps
    cases qs with
    | nil => simp
    | cons q qs =>
      obtain ⟨hq, hqs⟩ := List.forall_mem_cons.1 hqs
      rw [List.cons_prefix_cons, ← ih hps hqs, List.flatMap_cons, List.flatMap_cons, List.append_assoc, List.append_assoc,
        List.singleton_append, List.singleton_append]
      constructor
      · rintro ⟨rest, hrest⟩
        rw [List.append_assoc, List.cons_append] at hrest
        obtain ⟨rfl, htail⟩ := cut_unique hp hq hrest
        exact ⟨rfl, rest, htail⟩
      · rintro ⟨rfl, rest, hrest⟩
        exact ⟨rest, by rw [List.append_assoc, List.cons_append, hrest]⟩

theorem text_prefix_iff (p q : Path) : p.text <+: q.text ↔ p.Contains q := by
  unfold Path.text Path.Contains
  rw [← flatMap_slash_prefix_iff p.slashless q.slashless]
  cases p.absolute <;> cases q.absolute <;> simp [List.cons_prefix_cons]

end RedisOps.Lib
