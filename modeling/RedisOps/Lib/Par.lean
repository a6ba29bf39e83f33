import RedisOps.Lib.Prog

/-!
# Two programs side by side

`Par exec p q s a b t`: from the state `s` the programs `p` and `q` are run to their ends with their operations
interleaved in some order; they answer `a` and `b` and leave `t`. `Runs` is a stretch of one program alone, out of
which such an order is put together.

`Interleaved` is the same for a family of programs, with the order kept: whose turn it was, the state it found and
what the operation answered. It has the same two rules, `Interleaved.inv` and `Runs.interleaved`.
-/

namespace RedisOps.Lib

namespace Prog

variable {Op : Type} {Ret : Op → Type} {α β σ : Type}

inductive Par (exec : (o : Op) → σ → Option (Ret o × σ)) :
    Prog Op Ret α → Prog Op Ret β → σ → α → β → σ → Prop
  | done (a : α) (b : β) (s : σ) : Par exec (.ret a) (.ret b) s a b s
  | left {o : Op} {k : Ret o → Prog Op Ret α} {q : Prog Op Ret β} {s s' t : σ} {r : Ret o} {a : α} {b : β} :
      exec o s = some (r, s') → Par exec (k r) q s' a b t → Par exec (.op o k) q s a b t
  | right {o : Op} {p : Prog Op Ret α} {k : Ret o → Prog Op Ret β} {s s' t : σ} {r : Ret o} {a : α} {b : β} :
      exec o s = some (r, s') → Par exec p (k r) s' a b t → Par exec p (.op o k) s a b t

/-- Some operations of one program. -/
inductive Runs (exec : (o : Op) → σ → Option (Ret o × σ)) :
    Prog Op Ret α → σ → Prog Op Ret α → σ → Prop
  | refl (p : Prog Op Ret α) (s : σ) : Runs exec p s p s
  | step {o : Op} {k : Ret o → Prog Op Ret α} {s s' t : σ} {r : Ret o} {q : Prog Op Ret α} :
      exec o s = some (r, s') → Runs exec (k r) s' q t → Runs exec (.op o k) s q t

variable {exec : (o : Op) → σ → Option (Ret o × σ)}

theorem Par.symm {p : Prog Op Ret α} {q : Prog Op Ret β} {s t : σ} {a : α} {b : β} (h : Par exec p q s a b t) :
    Par exec q p s b a t := by
  induction h with
  | done a b s => exact .done b a s
  | left hx _ ih => exact .right hx ih
  | right hx _ ih => exact .left hx ih

/-- **Interleaving rule.** What the operations of either program keep, with the program it becomes, holds at the
    end. -/
theorem Par.inv {I : Prog Op Ret α → Prog Op Ret β → σ → Prop}
    (hleft : ∀ o k q s r s', I (.op o k) q s → exec o s = some (r, s') → I (k r) q s')
    (hright : ∀ p o k s r s', I p (.op o k) s → exec o s = some (r, s') → I p (k r) s')
    {p : Prog Op Ret α} {q : Prog Op Ret β} {s t : σ} {a : α} {b : β} (h : Par exec p q s a b t) (hI : I p q s) :
    I (.ret a) (.ret b) t := by
  induction h with
  | done a b s => exact hI
  | left hx _ ih => exact ih (hleft _ _ _ _ _ _ hI hx)
  | right hx _ ih => exact ih (hright _ _ _ _ _ _ hI hx)

theorem Runs.par_left {p p' : Prog Op Ret α} {q : Prog Op Ret β} {s t u : σ} {a : α} {b : β}
    (h : Runs exec p s p' t) (hpar : Par exec p' q t a b u) : Par exec p q s a b u := by
  induction h with
  | refl => exact hpar
  | step hx _ ih => exact .left hx (ih hpar)

theorem Runs.par_right {p : Prog Op Ret α} {q q' : Prog Op Ret β} {s t u : σ} {a : α} {b : β}
    (h : Runs exec q s q' t) (hpar : Par exec p q' t a b u) : Par exec p q s a b u :=
  (h.par_left hpar.symm).symm

theorem Runs.trans {p q r : Prog Op Ret α} {s t u : σ} (h : Runs exec p s q t) (h' : Runs exec q t r u) :
    Runs exec p s r u := by
  induction h with
  | refl => exact h'
  | step hx _ ih => exact .step hx (ih h')

/-- A whole run. -/
theorem runs_of_run {p : Prog Op Ret α} {s t : σ} {a : α} (h : run exec p s = (some a, t)) :
    Runs exec p s (.ret a) t := by
  induction p generalizing s with
  | ret b =>
    cases h
    exact .refl _ _
  | fail => cases h
  | op o k ih =>
    obtain ⟨r, s₁, hx, hrest⟩ := run_op_inv exec h
    exact .step hx (ih r hrest)

/-! ## With the order kept -/

/-- One operation of an interleaving. -/
structure Turn (ι Op : Type) (Ret : Op → Type) (σ : Type) where
  who : ι
  before : σ
  op : Op
  answer : Ret op

inductive Interleaved {ι : Type} [DecidableEq ι] (exec : (o : Op) → σ → Option (Ret o × σ)) :
    (ι → Prog Op Ret α) → σ → List (Turn ι Op Ret σ) → (ι → α) → σ → Prop
  | done {ps : ι → Prog Op Ret α} {answers : ι → α} (s : σ) :
      (∀ i, ps i = .ret (answers i)) → Interleaved exec ps s [] answers s
  | turn {ps : ι → Prog Op Ret α} {i : ι} {o : Op} {k : Ret o → Prog Op Ret α} {s s' t : σ} {r : Ret o}
      {turns : List (Turn ι Op Ret σ)} {answers : ι → α} :
      ps i = .op o k → exec o s = some (r, s') →
      Interleaved exec (Function.update ps i (k r)) s' turns answers t →
      Interleaved exec ps s (⟨i, s, o, r⟩ :: turns) answers t

/-- **Interleaving rule**, for a family: what every operation keeps, with the programs as they are then, holds at the
    end. -/
theorem Interleaved.inv {ι : Type} [DecidableEq ι] {I : (ι → Prog Op Ret α) → σ → Prop}
    (hstep : ∀ ps i o k s r s', I ps s → ps i = .op o k → exec o s = some (r, s') → I (Function.update ps i (k r)) s')
    {ps : ι → Prog Op Ret α} {s t : σ} {turns : List (Turn ι Op Ret σ)} {answers : ι → α}
    (h : Interleaved exec ps s turns answers t) (hI : I ps s) : I (fun i => .ret (answers i)) t := by
  induction h with
  | done s hret => rwa [← funext hret]
  | turn hp hx _ ih => exact ih (hstep _ _ _ _ _ _ _ hI hp hx)

/-- A stretch of one program, before an interleaving of what is left. -/
theorem Runs.interleaved {ι : Type} [DecidableEq ι] {i : ι} {p p' : Prog Op Ret α} {s s' t : σ}
    (h : Runs exec p s p' s') : ∀ (ps : ι → Prog Op Ret α) {turns : List (Turn ι Op Ret σ)} {answers : ι → α},
    ps i = p → Interleaved exec (Function.update ps i p') s' turns answers t →
    ∃ turns', Interleaved exec ps s turns' answers t := by
  induction h with
  | refl p s =>
    intro ps turns answers hp hrest
    subst hp
    rw [Function.update_eq_self] at hrest
    exact ⟨turns, hrest⟩
  | @step o k s s₁ s' r q hx _ ih =>
    intro ps turns answers hp hrest
    obtain ⟨turns', hturns⟩ := ih (Function.update ps i (k r)) (Function.update_self ..) (by
      rwa [Function.update_idem])
    exact ⟨_, .turn hp hx hturns⟩

/-- Runs the programs in a given order. -/
def schedule {ι : Type} [DecidableEq ι] (exec : (o : Op) → σ → Option (Ret o × σ)) :
    List ι → (ι → Prog Op Ret α) → σ → Option (List (Turn ι Op Ret σ) × (ι → Prog Op Ret α) × σ)
  | [], ps, s => some ([], ps, s)
  | i :: order, ps, s =>
    match ps i with
    | .op o k =>
      match exec o s with
      | some (r, s') => (schedule exec order (Function.update ps i (k r)) s').map fun x => (⟨i, s, o, r⟩ :: x.1, x.2)
      | none => none
    | _ => none

theorem interleaved_of_schedule {ι : Type} [DecidableEq ι] {order : List ι} {ps : ι → Prog Op Ret α}
    {answers : ι → α} {s : σ} {x : List (Turn ι Op Ret σ) × (ι → Prog Op Ret α) × σ}
    (h : schedule exec order ps s = some x) (hret : ∀ i, x.2.1 i = .ret (answers i)) :
    Interleaved exec ps s x.1 answers x.2.2 := by
  induction order generalizing ps s x with
  | nil =>
    cases h
    exact .done s hret
  | cons i order ih =>
    unfold schedule at h
    split at h
    · rename_i o k hp
      split at h
      · rename_i r s' hx
        obtain ⟨y, hy, rfl⟩ := Option.map_eq_some_iff.1 h
        exact .turn hp hx (ih hy hret)
      · cases h
    · cases h

end Prog

end RedisOps.Lib
