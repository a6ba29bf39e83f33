import Mathlib.Tactic

/-!
# Runs of a partial step function

`runAll step s as` takes the inputs `as` one after another, unless one of them fails.

`always_iff_each` is for a property that a step breaks or keeps according to a condition on the state it starts
from: the property holds in every state of a run exactly when every step of the run meets the condition. `always_of_each`
is for an invariant that the steps which meet the condition keep.
-/

namespace RedisOps.Lib

variable {σ α : Type} {step : σ → α → Option σ} {s s' : σ} {as : List α} {a : α}

def runAll (step : σ → α → Option σ) (s : σ) (as : List α) : Option σ := as.foldlM step s

/-- Every state the run comes through satisfies `Good`, which may look at the inputs up to there. -/
def Always (step : σ → α → Option σ) (s : σ) (as : List α) (Good : List α → σ → Prop) : Prop :=
  ∀ pre s', pre <+: as → runAll step s pre = some s' → Good pre s'

/-- Every input of the run finds a state that is fine for it. -/
def Each (step : σ → α → Option σ) (s : σ) (as : List α) (Cond : σ → α → Prop) : Prop :=
  ∀ pre a s', pre ++ [a] <+: as → runAll step s pre = some s' → Cond s' a

theorem runAll_concat (as : List α) (a : α) :
    runAll step s (as ++ [a]) = (runAll step s as).bind fun s' => step s' a := by
  simp [runAll, List.foldlM_append]

theorem always_nil {Good : List α → σ → Prop} : Always step s [] Good ↔ Good [] s := by
  constructor
  · intro h
    exact h [] s List.nil_prefix rfl
  · intro h pre s' hpre hrun
    rw [List.prefix_nil] at hpre
    subst hpre
    cases hrun
    exact h

theorem always_concat {Good : List α → σ → Prop} (hrun : runAll step s (as ++ [a]) = some s') :
    Always step s (as ++ [a]) Good ↔ Always step s as Good ∧ Good (as ++ [a]) s' := by
  constructor
  · intro h
    exact ⟨fun pre t hpre => h pre t (hpre.trans (List.prefix_append as [a])), h _ s' List.prefix_rfl hrun⟩
  · rintro ⟨hbefore, hlast⟩ pre t hpre ht
    rcases List.prefix_concat_iff.1 hpre with rfl | hpre
    · rw [hrun, Option.some.injEq] at ht
      rwa [← ht]
    · exact hbefore pre t hpre ht

theorem each_nil {Cond : σ → α → Prop} : Each step s [] Cond := by
  intro pre a s' hpre
  simp at hpre

theorem each_concat {Cond : σ → α → Prop} (hrun : runAll step s as = some s') :
    Each step s (as ++ [a]) Cond ↔ Each step s as Cond ∧ Cond s' a := by
  constructor
  · intro h
    exact ⟨fun pre b t hpre => h pre b t (hpre.trans (List.prefix_append as [a])), h as a s' List.prefix_rfl hrun⟩
  · rintro ⟨hbefore, hlast⟩ pre b t hpre ht
    rcases List.prefix_concat_iff.1 hpre with heq | hpre
    · obtain ⟨rfl, hb⟩ := List.append_inj' heq rfl
      rw [hrun, Option.some.injEq] at ht
      cases hb
      rwa [← ht]
    · exact hbefore pre b t hpre ht

/-- **Run rule.** -/
theorem always_iff_each (Inv : σ → Prop) {Good : List α → σ → Prop} {Cond : σ → α → Prop}
    (hinv : ∀ s a s', Inv s → step s a = some s' → Inv s')
    (hstep : ∀ as s a s', Inv s → Good as s → step s a = some s' → (Good (as ++ [a]) s' ↔ Cond s a))
    (hs : Inv s) (hgood : Good [] s) (hrun : runAll step s as = some s') :
    Always step s as Good ↔ Each step s as Cond := by
  suffices h : Inv s' ∧ (Always step s as Good ↔ Each step s as Cond) from h.2
  induction as using List.reverseRecOn generalizing s' with
  | nil =>
    cases hrun
    exact ⟨hs, iff_of_true (always_nil.2 hgood) each_nil⟩
  | append_singleton as a ih =>
    rw [runAll_concat] at hrun
    obtain ⟨mid, hmid, hlast⟩ := Option.bind_eq_some_iff.1 hrun
    obtain ⟨hinv', ih⟩ := ih hmid
    refine ⟨hinv mid a s' hinv' hlast, ?_⟩
    rw [always_concat (by rw [runAll_concat]; exact hrun), each_concat hmid, ih]
    refine and_congr_right fun heach => ?_
    exact hstep as mid a s' hinv' (ih.2 heach as mid List.prefix_rfl hmid) hlast

theorem always_of_each {Inv Good : σ → Prop} {Cond : σ → α → Prop}
    (hinv : ∀ s a s', Inv s → Cond s a → step s a = some s' → Inv s') (hgood : ∀ s, Inv s → Good s) (hs : Inv s)
    (heach : Each step s as Cond) : Always step s as fun _ => Good := by
  suffices h : ∀ pre s', pre <+: as → runAll step s pre = some s' → Inv s' from
    fun pre s' hpre hrun => hgood s' (h pre s' hpre hrun)
  intro pre
  induction pre using List.reverseRecOn with
  | nil =>
    intro s' _ hrun
    cases hrun
    exact hs
  | append_singleton pre a ih =>
    intro s' hpre hrun
    rw [runAll_concat] at hrun
    obtain ⟨mid, hmid, hlast⟩ := Option.bind_eq_some_iff.1 hrun
    exact hinv mid a s' (ih mid ((List.prefix_append pre [a]).trans hpre) hmid) (heach pre a mid hpre hmid) hlast

/-- `Each`, as a test. -/
def eachTest (step : σ → α → Option σ) (Cond : σ → α → Prop) [∀ s a, Decidable (Cond s a)] : σ → List α → Bool
  | _, [] => true
  | s, a :: as => decide (Cond s a) && (step s a).all fun s' => eachTest step Cond s' as

theorem each_of_test {Cond : σ → α → Prop} [∀ s a, Decidable (Cond s a)] (h : eachTest step Cond s as = true) :
    Each step s as Cond := by
  induction as generalizing s with
  | nil => exact each_nil
  | cons b as ih =>
    obtain ⟨hcond, hrest⟩ := Bool.and_eq_true_iff.1 h
    intro pre a s' hpre hrun
    cases pre with
    | nil =>
      cases hrun
      obtain rfl : a = b := (List.cons_prefix_cons.1 hpre).1
      exact of_decide_eq_true hcond
    | cons c pre =>
      obtain ⟨rfl, htail⟩ := List.cons_prefix_cons.1 hpre
      obtain ⟨mid, hmid, hrun⟩ := Option.bind_eq_some_iff.1 hrun
      rw [hmid] at hrest
      exact ih hrest pre a s' htail hrun

end RedisOps.Lib
