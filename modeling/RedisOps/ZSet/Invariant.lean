import RedisOps.ZSet.Basic

/-!
# The two indexes of a sorted set

`Rep z` — the representation invariant: `sorted` is strictly increasing under `less` and holds the entry
`(n, s)` exactly when `byName[n] = s`.

`add` of a new member keeps it (`rep_put`). `remove` does not: the search in it never answers `Ok`
(`remove_of_some`), so the entry stays in `sorted` (`not_rep_remove`), and a re-add with another score
goes through `remove`. `run_rep` is what is left: in a run that never removes a member and never changes
a member's score, the invariant and the query answers hold in every state.
-/

namespace RedisOps.Zset

open Lib

variable {F : Type} [Score F]

structure Rep (z : ZSet F) : Prop where
  /-- strictly increasing, so no entry occurs twice -/
  sorted : z.sorted.Pairwise (less · · = true)
  mem : ∀ e : Entry F, e ∈ z.sorted ↔ z.byName.lookup e.name = some e.score

inductive Op (F : Type) where
  | add (name : String) (score : F)
  | remove (name : String)

def step (z : ZSet F) : Op F → ZSet F
  | .add n s => (z.add n s).2
  | .remove n => (z.remove n).2

def run (ops : List (Op F)) : ZSet F := ops.foldl step .new

/-- What queries must answer right after an operation: a removed name is not returned, an added one at
    most once and with the score it was added with. -/
def QueriesAgree (z : ZSet F) (op : Op F) : Prop :=
  ∀ (minScore : F) (minName : String) (offset limit : Int64),
    let answer := (step z op).query minScore minName offset limit
    match op with
    | .add n s => (answer.map Entry.name).count n ≤ 1 ∧ ∀ e ∈ answer, e.name = n → e.score = s
    | .remove n => ∀ e ∈ answer, e.name ≠ n

/-- The operation does not reach the search in `remove`, nor the tolerance test with another score:
    only non-members are removed, and a member is added again only with the score it has. -/
def Quiet (z : ZSet F) : Op F → Prop
  | .add n s => z.byName.lookup n = none ∨ z.byName.lookup n = some s
  | .remove n => z.byName.lookup n = none

/-- Every operation of the run is quiet in the state it meets. -/
def AllQuiet : ZSet F → List (Op F) → Prop
  | _, [] => True
  | z, op :: ops => Quiet z op ∧ AllQuiet (step z op) ops

section Exact
variable [LinearOrder F] [ExactScore F]

omit [LinearOrder F] [ExactScore F] in
theorem rep_new : Rep (ZSet.new : ZSet F) := ⟨by simp [ZSet.new], by simp [ZSet.new]⟩

/-- Names do not repeat: an entry's score is the one `byName` gives. -/
theorem Rep.names_nodup {z : ZSet F} (h : Rep z) : (z.sorted.map Entry.name).Nodup := by
  refine List.Nodup.map_on (fun a ha b hb hab => ?_) ?_
  · have h1 := (h.mem a).1 ha
    have h2 := (h.mem b).1 hb
    rw [hab, h2] at h1
    cases a; cases b
    simp_all
  · refine h.sorted.imp (fun {a b} hl he => ?_)
    subst he
    rw [less_irrefl] at hl
    exact absurd hl (by simp)

/-- A new member goes to its place in both indexes. -/
theorem rep_put {z : ZSet F} (h : Rep z) {n : String} (hn : z.byName.lookup n = none) (s : F) :
    Rep (z.put n s) := by
  obtain ⟨A, B, hAB, hA, hB⟩ := sorted_split h.sorted ⟨n, s⟩
  have hnew : (⟨n, s⟩ : Entry F) ∉ z.sorted := fun hm => by
    have := (h.mem _).1 hm
    simp [hn] at this
  have hput : (z.put n s).sorted = A ++ ⟨n, s⟩ :: B := by
    simp only [ZSet.put, hAB, position_split hA hB]
    exact insertIdx_append A B _
  have hsrt := h.sorted
  rw [hAB, List.pairwise_append] at hsrt
  obtain ⟨hsA, hsB, hAB'⟩ := hsrt
  -- entries not below the new one are above it, being different from it
  have hB' : ∀ b ∈ B, less ⟨n, s⟩ b = true := fun b hb => by
    have hne : (⟨n, s⟩ : Entry F) ≠ b := fun e => hnew (by rw [hAB, e]; simp [hb])
    rcases less_total hne with h1 | h1
    · exact h1
    · rw [hB b hb] at h1
      exact absurd h1 (by simp)
  refine ⟨?_, fun e => ?_⟩
  · rw [hput, List.pairwise_append, List.pairwise_cons]
    refine ⟨hsA, ⟨hB', hsB⟩, ?_⟩
    intro a ha b hb
    rcases List.mem_cons.1 hb with rfl | hb
    · exact hA a ha
    · exact hAB' a ha b hb
  · have hmem : e ∈ (z.put n s).sorted ↔ e = ⟨n, s⟩ ∨ e ∈ z.sorted := by
      rw [hput, hAB]
      simp only [List.mem_append, List.mem_cons]
      tauto
    rw [hmem, h.mem]
    by_cases hen : e.name = n
    · subst hen
      simp only [ZSet.put, AList.lookup_insert, hn, Option.some.injEq]
      cases e
      simp [eq_comm]
    · simp only [ZSet.put, AList.lookup_insert_ne hen]
      constructor
      · rintro (rfl | he)
        · exact absurd rfl hen
        · exact he
      · exact Or.inr

/-- **Step.** A quiet operation keeps the invariant. -/
theorem rep_step {z : ZSet F} (h : Rep z) {op : Op F} (hq : Quiet z op) : Rep (step z op) := by
  cases op with
  | add n s =>
    rcases hq with hn | hs
    · simpa [step, ZSet.add, hn] using rep_put h hn s
    · simpa [step, ZSet.add, hs, ExactScore.nearly_self] using h
  | remove n =>
    rw [step, remove_of_none hq]
    exact h

/-- After a quiet `add` the member has the score given. -/
theorem lookup_add {z : ZSet F} {n : String} {s : F} (hq : Quiet z (.add n s)) :
    (step z (.add n s)).byName.lookup n = some s := by
  rcases hq with hn | hs
  · simp [step, ZSet.add, hn, ZSet.put]
  · simp [step, ZSet.add, hs, ExactScore.nearly_self]

/-- Queries answer out of `sorted`, so the invariant decides what they can say. -/
theorem queriesAgree {z : ZSet F} (h : Rep z) {op : Op F} (hq : Quiet z op) : QueriesAgree z op := by
  have hr := rep_step h hq
  intro ms mn off lim answer
  cases op with
  | add n s =>
    have hnd := hr.names_nodup.sublist ((query_sublist _ ms mn off lim).map _)
    refine ⟨List.nodup_iff_count_le_one.1 hnd n, ?_⟩
    intro e he hen
    have hs := (hr.mem e).1 (mem_query he)
    rw [hen, lookup_add hq, Option.some.injEq] at hs
    exact hs.symm
  | remove n =>
    intro e he hen
    have hs := (hr.mem e).1 (mem_query he)
    rw [step, remove_of_none hq, hen] at hs
    have hq' : z.byName.lookup n = none := hq
    simp [hq'] at hs

/-- **Run.** If every operation of the run is quiet, then in every state of the run the invariant
    holds, and after every operation the queries answer as they should. -/
theorem run_rep (ops : List (Op F)) (h : AllQuiet .new ops) :
    (∀ pre, pre <+: ops → Rep (run pre)) ∧
      ∀ pre op, pre ++ [op] <+: ops → QueriesAgree (run pre) op := by
  -- the states of the run meet the invariant, from any state that does
  have key : ∀ (ops : List (Op F)) (z : ZSet F), Rep z → AllQuiet z ops →
      ∀ pre, pre <+: ops → Rep (pre.foldl step z) ∧
        ∀ op, pre ++ [op] <+: ops → Quiet (pre.foldl step z) op := by
    intro ops
    induction ops with
    | nil =>
      intro z hz _ pre hpre
      obtain rfl := List.prefix_nil.1 hpre
      exact ⟨hz, fun op hop => absurd (List.prefix_nil.1 hop) (by simp)⟩
    | cons op ops ih =>
      intro z hz hq pre hpre
      cases pre with
      | nil =>
        refine ⟨hz, ?_⟩
        intro op' hop
        obtain ⟨rfl, _⟩ := List.cons_prefix_cons.1 hop
        exact hq.1
      | cons op' pre =>
        obtain ⟨rfl, hpre'⟩ := List.cons_prefix_cons.1 hpre
        obtain ⟨h1, h2⟩ := ih (step z op') (rep_step hz hq.1) hq.2 pre hpre'
        exact ⟨h1, fun o ho => h2 o (List.cons_prefix_cons.1 ho).2⟩
  refine ⟨fun pre hpre => (key ops .new rep_new h pre hpre).1, fun pre op hop => ?_⟩
  obtain ⟨h1, h2⟩ := key ops .new rep_new h pre ((List.prefix_append _ _).trans hop)
  exact queriesAgree h1 (h2 op hop)

omit [LinearOrder F] [ExactScore F] in
/-- Removing a member breaks the invariant: its entry stays behind in `sorted`. -/
theorem not_rep_remove {z : ZSet F} (h : Rep z) {n : String} {s : F}
    (hs : z.byName.lookup n = some s) : ¬ Rep (step z (.remove n)) := by
  intro hr
  have hm : (⟨n, s⟩ : Entry F) ∈ z.sorted := (h.mem _).2 hs
  have hl := (hr.mem ⟨n, s⟩).1 (by simpa [step, remove_of_some hs] using hm)
  simp [step, remove_of_some hs] at hl

end Exact

/-- A run of additions of new members and one repetition. -/
theorem run_rep_two :
    AllQuiet .new [Op.add "b" (2 : ℚ), .add "a" 1, .add "b" 2, .remove "c"] ∧
      (∀ pre, pre <+: [Op.add "b" (2 : ℚ), .add "a" 1, .add "b" 2, .remove "c"] → Rep (run pre)) ∧
      ∀ pre op, pre ++ [op] <+: [Op.add "b" (2 : ℚ), .add "a" 1, .add "b" 2, .remove "c"] →
        QueriesAgree (run pre) op := by
  have h : AllQuiet .new [Op.add "b" (2 : ℚ), .add "a" 1, .add "b" 2, .remove "c"] := by
    refine ⟨Or.inl (by decide), Or.inl (by decide), Or.inr (by decide), ?_, trivial⟩
    show AList.lookup _ _ = none
    decide +kernel
  exact ⟨h, run_rep _ h⟩

/-- `ZADD z 1 a` then `ZREM z a`: the invariant is broken, and a query still returns the removed
    member. -/
theorem removed_member_stays :
    ¬ (∀ ops : List (Op ℚ), Rep (run ops)) ∧
      ¬ QueriesAgree (run [Op.add "a" (1 : ℚ)]) (.remove "a") := by
  refine ⟨fun hall => ?_, fun hq => ?_⟩
  · have hs : (run [Op.add "a" (1 : ℚ)]).byName.lookup "a" = some 1 := by decide
    exact not_rep_remove (hall [.add "a" 1]) hs (hall [.add "a" 1, .remove "a"])
  · exact hq 0 "" 0 10 ⟨"a", 1⟩ (by decide) rfl

end RedisOps.Zset
