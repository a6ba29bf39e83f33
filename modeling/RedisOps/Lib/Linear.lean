import RedisOps.Lib.Prog

/-!
# Programs of one operation

A program that performs at most one operation is over as soon as it has performed it. Any number of them interleaved
are therefore the same as all of them one after another, in the order in which they are completed (`Trace.serial`):
what each of them answers is what it answers when it has the shared state for itself.
-/

namespace RedisOps.Lib

namespace Prog

variable {Op : Type} {Ret : Op → Type} {α : Type}

/-- At most one operation, and a result at once whatever it answers. -/
def AtOnce : Prog Op Ret α → Prop
  | .ret _ => True
  | .fail => True
  | .op _ k => ∀ r, ∃ a, k r = .ret a

@[simp] theorem atOnce_ret (a : α) : AtOnce (.ret a : Prog Op Ret α) := trivial

end Prog

section Interleave
variable {Tag Op : Type} {Ret : Op → Type} {α σ ι : Type}

/-- The request completed in this step: answered, or (`none`) ended without an answer. -/
def Event.completed : Event Tag Op Ret α → Option (Tag × Option α)
  | .began _ tag answer => answer.map fun a => (tag, some a)
  | .did _ tag _ _ answer => answer.map fun a => (tag, some a)
  | .died _ tag => some (tag, none)
  | .env => none

/-- Requests served one after another, each of them at some time, with steps of the environment in between. -/
inductive Serial (R : Rules σ Tag Op Ret α ι) (s₀ : σ) : List (Tag × Option α) → σ → Prop
  | start : Serial R s₀ [] s₀
  | serve {log : List (Tag × Option α)} {s : σ} (i : ι) (tag : Tag) : Serial R s₀ log s → R.admitted tag →
      Serial R s₀ (log ++ [(tag, ((R.progOf tag).run (R.exec i) s).1)]) ((R.progOf tag).run (R.exec i) s).2
  | env {log : List (Tag × Option α)} {s s' : σ} : Serial R s₀ log s → R.env s s' → Serial R s₀ log s'

variable {R : Rules σ Tag Op Ret α ι} {s₀ : σ}

/-- A request served in the run `p`, with its answer and the state it leaves. -/
theorem Serial.serve_of_run {log : List (Tag × Option α)} {s s' : σ} {i : ι} {tag : Tag} {a : Option α}
    (h : Serial R s₀ log s) (hadm : R.admitted tag) (hrun : (R.progOf tag).run (R.exec i) s = (a, s')) :
    Serial R s₀ (log ++ [(tag, a)]) s' := by
  have hserve := h.serve i tag hadm
  rwa [hrun] at hserve

theorem Step.task_unfinished {s s' : Sys σ Tag Op Ret α} {e : Event Tag Op Ret α} (h : Step R s e s') {c : Nat}
    {t : Task Tag Op Ret α} (ht : s'.tasks c = some t) : s.tasks c = some t ∨ t.prog.answer? = none := by
  have hsettle : ∀ {c' : Nat} {tag : Tag} {p : Prog Op Ret α} {tasks : Nat → Option (Task Tag Op Ret α)},
      Function.update tasks c' (settle tag p) c = some t → tasks c = some t ∨ t.prog.answer? = none := by
    intro c' tag p tasks hupdate
    by_cases hcc : c = c'
    · subst hcc
      rw [Function.update_self] at hupdate
      rw [settle_some hupdate]
      exact .inr (answer?_of_settle hupdate)
    · rw [Function.update_of_ne hcc] at hupdate
      exact .inl hupdate
  cases h with
  | begin => exact hsettle ht
  | op => exact hsettle ht
  | opFails c' tag o k i hc hex =>
    by_cases hcc : c = c'
    · simp [hcc] at ht
    · exact .inl (by simpa [hcc] using ht)
  | fails c' tag hc =>
    by_cases hcc : c = c'
    · simp [hcc] at ht
    · exact .inl (by simpa [hcc] using ht)
  | env => exact .inl ht

theorem Trace.task_unfinished {evs : List (Event Tag Op Ret α)} {s : Sys σ Tag Op Ret α} (h : Trace R s₀ evs s) {c : Nat}
    {t : Task Tag Op Ret α} (ht : s.tasks c = some t) : t.prog.answer? = none := by
  induction h with
  | start => cases ht
  | next _ hstep ih =>
    rcases hstep.task_unfinished ht with ht' | hnone
    · exact ih ht'
    · exact hnone

/-- A program of one operation that is in progress has not performed it. -/
theorem Trace.task_whole (hone : ∀ tag, R.admitted tag → (R.progOf tag).AtOnce)
    {evs : List (Event Tag Op Ret α)} {s : Sys σ Tag Op Ret α} (h : Trace R s₀ evs s) {c : Nat}
    {t : Task Tag Op Ret α} (ht : s.tasks c = some t) : R.admitted t.tag ∧ t.prog = R.progOf t.tag := by
  have hunfinished := h.task_unfinished ht
  obtain ⟨hadm, hreach⟩ := h.task_reach ht
  refine ⟨hadm, ?_⟩
  obtain heq | ⟨o, k, r, hwhole, hrest⟩ := hreach.cases
  · exact heq
  · -- behind its operation there is only its result
    have honce := hone _ hadm
    rw [hwhole] at honce
    obtain ⟨a, ha⟩ := honce r
    rw [ha] at hrest
    rw [hrest.of_ret] at hunfinished
    cases hunfinished

/-- **Linearization.** If every request is a program of at most one operation, a run of them is serial: in the order of
    their completion they have their answers, and leave the state, of one after another. -/
theorem Trace.serial [Inhabited ι] (hone : ∀ tag, R.admitted tag → (R.progOf tag).AtOnce)
    {evs : List (Event Tag Op Ret α)} {s : Sys σ Tag Op Ret α} (h : Trace R s₀ evs s) :
    Serial R s₀ (evs.filterMap Event.completed) s.shared := by
  induction h with
  | start => exact .start
  | next htr hstep ih =>
    rw [List.filterMap_append]
    cases hstep with
    | begin c tag hc hadm =>
      cases hp : (R.progOf tag).answer? with
      | none =>
        rw [show [Event.began c tag none].filterMap Event.completed = ([] : List (Tag × Option α)) from rfl,
          List.append_nil]
        exact ih
      | some a =>
        -- without an operation, at whatever time
        rw [Prog.answer?_eq_some] at hp
        exact ih.serve_of_run (i := default) hadm (by rw [hp]; rfl)
    | op c tag o k i r s' hc hex =>
      obtain ⟨hadm, hwhole⟩ := htr.task_whole hone hc
      have honce := hone tag hadm
      rw [← hwhole] at honce
      obtain ⟨a, ha⟩ := honce r
      have hlog : [Event.did c tag o r (k r).answer?].filterMap Event.completed = [(tag, some a)] := by
        rw [ha]
        rfl
      rw [hlog]
      exact ih.serve_of_run hadm (by rw [← hwhole, Prog.run_op_some _ hex, ha]; rfl)
    | opFails c tag o k i hc hex =>
      obtain ⟨hadm, hwhole⟩ := htr.task_whole hone hc
      exact ih.serve_of_run hadm (by rw [← hwhole, Prog.run_op_none _ hex])
    | fails c tag hc =>
      obtain ⟨hadm, hwhole⟩ := htr.task_whole hone hc
      exact ih.serve_of_run (i := default) hadm (by rw [← hwhole]; rfl)
    | env s' hs =>
      rw [show [Event.env].filterMap Event.completed = ([] : List (Tag × Option α)) from rfl, List.append_nil]
      exact ih.env hs

end Interleave

end RedisOps.Lib
