import Mathlib.Tactic

/-!
# Programs over atomic operations

A `Prog Op Ret α` is a program that performs operations `o : Op`, each answering a `Ret o`, and
returns an `α`. The same program has two meanings:

* `run` — alone, one operation after another, on a shared state;
* `Step` / `Trace` — interleaved with any number of other programs, one operation at a time.

`exec` gives an operation its meaning: the answer and the new state, or `none` when the operation
fails and takes the whole program with it (a panic, or an error passed up with `?`). What a program
can do is said once by `Prog.All` and then used by the rules for whole runs: `run_inv` (an invariant),
`run_rel` (two runs side by side), `Trace.op_all` (every operation of an interleaved run).
-/

namespace RedisOps.Lib

inductive Prog (Op : Type) (Ret : Op → Type) (α : Type) where
  | ret (a : α)
  | fail
  | op (o : Op) (k : Ret o → Prog Op Ret α)

namespace Prog

variable {Op : Type} {Ret : Op → Type} {α β σ : Type}

def bind : Prog Op Ret α → (α → Prog Op Ret β) → Prog Op Ret β
  | .ret a, f => f a
  | .fail, _ => .fail
  | .op o k, f => .op o fun r => (k r).bind f

instance : Monad (Prog Op Ret) where
  pure := .ret
  bind := Prog.bind

/-- One operation, as a program. -/
def call (o : Op) : Prog Op Ret (Ret o) := .op o .ret

@[simp] theorem pure_def (a : α) : (pure a : Prog Op Ret α) = .ret a := rfl
@[simp] theorem ret_bind (a : α) (f : α → Prog Op Ret β) : (Prog.ret a >>= f) = f a := rfl
@[simp] theorem ret_bind' (a : α) (f : α → Prog Op Ret β) : (Prog.ret a).bind f = f a := rfl
@[simp] theorem fail_bind (f : α → Prog Op Ret β) : (Prog.fail >>= f) = .fail := rfl
@[simp] theorem op_bind (o : Op) (k : Ret o → Prog Op Ret α) (f : α → Prog Op Ret β) :
    (Prog.op o k >>= f) = .op o fun r => k r >>= f := rfl
@[simp] theorem call_bind (o : Op) (f : Ret o → Prog Op Ret β) : (call o >>= f) = .op o f := rfl

theorem map_eq_bind (f : α → β) (p : Prog Op Ret α) : f <$> p = p >>= fun a => .ret (f a) := rfl

/-! ## Running alone -/

section Run
variable (exec : (o : Op) → σ → Option (Ret o × σ))

/-- A failing operation leaves the state as it found it. -/
def run : Prog Op Ret α → σ → Option α × σ
  | .ret a, s => (some a, s)
  | .fail, s => (none, s)
  | .op o k, s =>
    match exec o s with
    | some (r, s') => run (k r) s'
    | none => (none, s)

@[simp] theorem run_ret (a : α) (s : σ) : run exec (.ret a : Prog Op Ret α) s = (some a, s) := rfl
@[simp] theorem run_fail (s : σ) : run exec (.fail : Prog Op Ret α) s = (none, s) := rfl

theorem run_op_some {o : Op} {k : Ret o → Prog Op Ret α} {s s' : σ} {r : Ret o}
    (h : exec o s = some (r, s')) : run exec (.op o k) s = run exec (k r) s' := by
  simp only [run, h]

theorem run_op_none {o : Op} {k : Ret o → Prog Op Ret α} {s : σ} (h : exec o s = none) :
    run exec (.op o k) s = (none, s) := by
  simp only [run, h]

/-- A run that gives a result, from its first operation on. -/
theorem run_op_inv {o : Op} {k : Ret o → Prog Op Ret α} {s s' : σ} {a : α} (h : run exec (.op o k) s = (some a, s')) :
    ∃ r s₁, exec o s = some (r, s₁) ∧ run exec (k r) s₁ = (some a, s') := by
  cases hx : exec o s with
  | none =>
    rw [run_op_none exec hx] at h
    cases h
  | some x =>
    rw [run_op_some exec hx] at h
    exact ⟨x.1, x.2, rfl, h⟩

theorem run_bind (p : Prog Op Ret α) (f : α → Prog Op Ret β) (s : σ) :
    run exec (p >>= f) s =
      match run exec p s with
      | (some a, s') => run exec (f a) s'
      | (none, s') => (none, s') := by
  induction p generalizing s with
  | ret a => rfl
  | fail => rfl
  | op o k ih =>
    rw [op_bind]
    cases h : exec o s with
    | none => rw [run_op_none exec h, run_op_none exec h]
    | some x => rw [run_op_some exec h, run_op_some exec h, ih]

theorem run_map (f : α → β) (p : Prog Op Ret α) (s : σ) :
    run exec (f <$> p) s = ((run exec p s).1.map f, (run exec p s).2) := by
  rw [map_eq_bind, run_bind]
  rcases run exec p s with ⟨_ | a, s'⟩ <;> rfl

end Run

/-! ## What a program can do -/

/-- Whatever the operations answer, each one performed satisfies `P` and the result satisfies `Q`. -/
def All (P : Op → Prop) (Q : α → Prop) : Prog Op Ret α → Prop
  | .ret a => Q a
  | .fail => True
  | .op o k => P o ∧ ∀ r, All P Q (k r)

section All
variable {P P' : Op → Prop} {Q Q' : α → Prop}

@[simp] theorem all_ret {a : α} : All P Q (.ret a : Prog Op Ret α) ↔ Q a := Iff.rfl
@[simp] theorem all_fail : All P Q (.fail : Prog Op Ret α) ↔ True := Iff.rfl
@[simp] theorem all_op {o : Op} {k : Ret o → Prog Op Ret α} :
    All P Q (.op o k) ↔ P o ∧ ∀ r, All P Q (k r) := Iff.rfl

theorem All.mono {p : Prog Op Ret α} (h : All P Q p) (hP : ∀ o, P o → P' o) (hQ : ∀ a, Q a → Q' a) :
    All P' Q' p := by
  induction p with
  | ret a => exact hQ a h
  | fail => trivial
  | op o k ih => exact ⟨hP o h.1, fun r => ih r (h.2 r)⟩

theorem all_bind {R : β → Prop} (p : Prog Op Ret α) (f : α → Prog Op Ret β) :
    All P R (p >>= f) ↔ All P (fun a => All P R (f a)) p := by
  induction p with
  | ret a => exact Iff.rfl
  | fail => exact Iff.rfl
  | op o k ih => exact and_congr Iff.rfl (forall_congr' ih)

variable {exec : (o : Op) → σ → Option (Ret o × σ)}

/-- **Invariant rule.** An invariant kept by every operation the program can perform is kept by the
    program, and its result satisfies what all its results satisfy. -/
theorem run_inv {I : σ → Prop} (hstep : ∀ o s r s', P o → I s → exec o s = some (r, s') → I s')
    {p : Prog Op Ret α} (hp : All P Q p) {s : σ} (hs : I s) :
    I (run exec p s).2 ∧ ∀ a, (run exec p s).1 = some a → Q a := by
  induction p generalizing s with
  | ret a =>
    refine ⟨hs, ?_⟩
    intro b hb
    cases hb
    exact hp
  | fail => exact ⟨hs, by simp⟩
  | op o k ih =>
    cases h : exec o s with
    | none => rw [run_op_none exec h]; exact ⟨hs, by simp⟩
    | some x =>
      rw [run_op_some exec h]
      exact ih x.1 (hp.2 x.1) (hstep o s x.1 x.2 hp.1 hs h)

/-- **Two-run rule.** If related states stay related and answer alike under every operation the
    program can perform, the two runs give the same result and end in related states. -/
theorem run_rel {R : σ → σ → Prop}
    (hstep : ∀ o s t, P o → R s t →
      (exec o s = none ∧ exec o t = none) ∨
        ∃ r s' t', exec o s = some (r, s') ∧ exec o t = some (r, t') ∧ R s' t')
    {p : Prog Op Ret α} (hp : All P Q p) {s t : σ} (h : R s t) :
    (run exec p s).1 = (run exec p t).1 ∧ R (run exec p s).2 (run exec p t).2 := by
  induction p generalizing s t with
  | ret a => exact ⟨rfl, h⟩
  | fail => exact ⟨rfl, h⟩
  | op o k ih =>
    obtain ⟨hn, hn'⟩ | ⟨r, s', t', hs, ht, hr⟩ := hstep o s t hp.1 h
    · rw [run_op_none exec hn, run_op_none exec hn']
      exact ⟨rfl, h⟩
    · rw [run_op_some exec hs, run_op_some exec ht]
      exact ih r (hp.2 r) hr

end All

/-- Whatever the operations answer, one that satisfies `P` is performed before any result that does not
    satisfy `Q`. -/
def Must (P : Op → Prop) (Q : α → Prop) : Prog Op Ret α → Prop
  | .ret a => Q a
  | .fail => True
  | .op o k => P o ∨ ∀ r, Must P Q (k r)

/-! ## Interleaved runs -/

/-- What a program answers once it has no operation left to perform. -/
def answer? : Prog Op Ret α → Option α
  | .ret a => some a
  | _ => none

@[simp] theorem answer?_ret (a : α) : answer? (.ret a : Prog Op Ret α) = some a := rfl
@[simp] theorem answer?_op (o : Op) (k : Ret o → Prog Op Ret α) : answer? (.op o k) = none := rfl

theorem answer?_eq_some {p : Prog Op Ret α} {a : α} : p.answer? = some a ↔ p = .ret a := by
  cases p <;> simp [answer?]

/-- The programs that `p` can become. -/
inductive Reach : Prog Op Ret α → Prog Op Ret α → Prop
  | refl (p) : Reach p p
  | next {p : Prog Op Ret α} {o : Op} {k : Ret o → Prog Op Ret α} (r : Ret o) :
      Reach p (.op o k) → Reach p (k r)

theorem Reach.all {P : Op → Prop} {Q : α → Prop} {p q : Prog Op Ret α} (h : Reach p q)
    (hp : All P Q p) : All P Q q := by
  induction h with
  | refl => exact hp
  | next r _ ih => exact ih.2 r

/-- A program in progress is the whole program, or comes from the answer to its first operation. -/
theorem Reach.cases {p q : Prog Op Ret α} (h : Reach p q) :
    q = p ∨ ∃ (o : Op) (k : Ret o → Prog Op Ret α) (r : Ret o), p = .op o k ∧ Reach (k r) q := by
  induction h with
  | refl => exact .inl rfl
  | next r _ ih =>
    rcases ih with rfl | ⟨o', k', r', rfl, h⟩
    · exact .inr ⟨_, _, r, rfl, .refl _⟩
    · exact .inr ⟨o', k', r', rfl, h.next r⟩

theorem Reach.of_ret {a : α} {q : Prog Op Ret α} (h : Reach (.ret a) q) : q = .ret a := by
  obtain rfl | ⟨_, _, _, he, _⟩ := h.cases
  · rfl
  · cases he

end Prog

/-- A program in progress, with the request it serves. -/
structure Task (Tag Op : Type) (Ret : Op → Type) (α : Type) where
  tag : Tag
  prog : Prog Op Ret α

/-- The shared state and the program each client is waiting for. -/
structure Sys (σ Tag Op : Type) (Ret : Op → Type) (α : Type) where
  shared : σ
  tasks : Nat → Option (Task Tag Op Ret α)

/-- What can be observed of one step. The `answer` is given in the step of the last operation: what a
    program computes between two operations touches nothing shared. -/
inductive Event (Tag Op : Type) (Ret : Op → Type) (α : Type)
  | began (client : Nat) (tag : Tag) (answer : Option α)
  | did (client : Nat) (tag : Tag) (o : Op) (r : Ret o) (answer : Option α)
  | died (client : Nat) (tag : Tag)
  | env

section Interleave
variable {Tag Op : Type} {Ret : Op → Type} {α σ ι : Type}

/-- The client whose step it was. -/
def Event.client? : Event Tag Op Ret α → Option Nat
  | .began c _ _ => some c
  | .did c _ _ _ _ => some c
  | .died c _ => some c
  | .env => none

/-- The request begun in this step. -/
def Event.begun : Event Tag Op Ret α → Option Tag
  | .began _ tag _ => some tag
  | .did _ _ _ _ _ => none
  | .died _ _ => none
  | .env => none

/-- The request completed in this step and its answer. -/
def Event.answered : Event Tag Op Ret α → Option (Tag × α)
  | .began _ tag answer => answer.map (tag, ·)
  | .did _ tag _ _ answer => answer.map (tag, ·)
  | .died _ _ => none
  | .env => none

/-- The task a client is left with: none once the program has answered. -/
def settle (tag : Tag) : Prog Op Ret α → Option (Task Tag Op Ret α)
  | .ret _ => none
  | p => some ⟨tag, p⟩

theorem settle_some {tag : Tag} {p : Prog Op Ret α} {t : Task Tag Op Ret α}
    (h : settle tag p = some t) : t = ⟨tag, p⟩ := by
  cases p <;> simp_all [settle]

theorem answer?_of_settle {tag : Tag} {p : Prog Op Ret α} {t : Task Tag Op Ret α}
    (h : settle tag p = some t) : p.answer? = none := by
  cases p with
  | ret a => cases h
  | fail => rfl
  | op o k => rfl

/-- The system: requests in `admitted` are served by `progOf`, an operation may depend on when it is
    executed (`ι`, the clock), and the environment may change the shared state by `env`. -/
structure Rules (σ Tag Op : Type) (Ret : Op → Type) (α ι : Type) where
  exec : ι → (o : Op) → σ → Option (Ret o × σ)
  progOf : Tag → Prog Op Ret α
  admitted : Tag → Prop
  env : σ → σ → Prop

inductive Step (R : Rules σ Tag Op Ret α ι) :
    Sys σ Tag Op Ret α → Event Tag Op Ret α → Sys σ Tag Op Ret α → Prop
  | begin (s : Sys σ Tag Op Ret α) (c : Nat) (tag : Tag) : s.tasks c = none → R.admitted tag →
      Step R s (.began c tag (R.progOf tag).answer?)
        { s with tasks := Function.update s.tasks c (settle tag (R.progOf tag)) }
  | op (s : Sys σ Tag Op Ret α) (c : Nat) (tag : Tag) (o : Op) (k : Ret o → Prog Op Ret α) (i : ι)
      (r : Ret o) (s' : σ) : s.tasks c = some ⟨tag, .op o k⟩ → R.exec i o s.shared = some (r, s') →
      Step R s (.did c tag o r (k r).answer?)
        { shared := s', tasks := Function.update s.tasks c (settle tag (k r)) }
  | opFails (s : Sys σ Tag Op Ret α) (c : Nat) (tag : Tag) (o : Op) (k : Ret o → Prog Op Ret α)
      (i : ι) : s.tasks c = some ⟨tag, .op o k⟩ → R.exec i o s.shared = none →
      Step R s (.died c tag) { s with tasks := Function.update s.tasks c none }
  | fails (s : Sys σ Tag Op Ret α) (c : Nat) (tag : Tag) : s.tasks c = some ⟨tag, .fail⟩ →
      Step R s (.died c tag) { s with tasks := Function.update s.tasks c none }
  | env (s : Sys σ Tag Op Ret α) (s' : σ) : R.env s.shared s' → Step R s .env { s with shared := s' }

theorem Step.begin_of {R : Rules σ Tag Op Ret α ι} {s : Sys σ Tag Op Ret α} {c : Nat} {tag : Tag} {p : Prog Op Ret α}
    (hc : s.tasks c = none) (hadm : R.admitted tag) (hp : R.progOf tag = p) :
    Step R s (.began c tag p.answer?) { s with tasks := Function.update s.tasks c (settle tag p) } := by
  subst hp
  exact .begin s c tag hc hadm

/-- A run from the shared state `s₀` with no program in progress, and the events it has shown. -/
inductive Trace (R : Rules σ Tag Op Ret α ι) (s₀ : σ) :
    List (Event Tag Op Ret α) → Sys σ Tag Op Ret α → Prop
  | start : Trace R s₀ [] ⟨s₀, fun _ => none⟩
  | next {evs s e s'} : Trace R s₀ evs s → Step R s e s' → Trace R s₀ (evs ++ [e]) s'

variable {R : Rules σ Tag Op Ret α ι} {s₀ : σ}

theorem Trace.of_nil {s : Sys σ Tag Op Ret α} (h : Trace R s₀ [] s) : s = ⟨s₀, fun _ => none⟩ := by
  generalize hevs : [] = evs at h
  cases h with
  | start => rfl
  | next => simp at hevs

/-- A task after a step: it was there before, has just begun, or has performed an operation. -/
theorem Step.task_cases {s s' : Sys σ Tag Op Ret α} {e : Event Tag Op Ret α} (h : Step R s e s') {c : Nat}
    {t : Task Tag Op Ret α} (ht : s'.tasks c = some t) :
    (s.tasks c = some t ∧ e.client? ≠ some c) ∨
      (R.admitted t.tag ∧ t.prog = R.progOf t.tag ∧ e = .began c t.tag none) ∨
      ∃ i o k r, s.tasks c = some ⟨t.tag, .op o k⟩ ∧ R.exec i o s.shared = some (r, s'.shared) ∧ t.prog = k r ∧
        e = .did c t.tag o r none := by
  cases h with
  | begin c' tag hc hadm =>
    by_cases hcc : c = c'
    · subst hcc
      have hs : settle tag (R.progOf tag) = some t := by simpa using ht
      rw [answer?_of_settle hs]
      obtain rfl := settle_some hs
      exact .inr (.inl ⟨hadm, rfl, rfl⟩)
    · exact .inl ⟨by simpa [hcc] using ht, by simpa [Event.client?] using Ne.symm hcc⟩
  | op c' tag o k i r s' hc hex =>
    by_cases hcc : c = c'
    · subst hcc
      have hs : settle tag (k r) = some t := by simpa using ht
      rw [answer?_of_settle hs]
      obtain rfl := settle_some hs
      exact .inr (.inr ⟨i, o, k, r, hc, hex, rfl, rfl⟩)
    · exact .inl ⟨by simpa [hcc] using ht, by simpa [Event.client?] using Ne.symm hcc⟩
  | opFails c' tag o k i hc hex =>
    by_cases hcc : c = c'
    · subst hcc; simp at ht
    · exact .inl ⟨by simpa [hcc] using ht, by simpa [Event.client?] using Ne.symm hcc⟩
  | fails c' tag hc =>
    by_cases hcc : c = c'
    · subst hcc; simp at ht
    · exact .inl ⟨by simpa [hcc] using ht, by simpa [Event.client?] using Ne.symm hcc⟩
  | env s' _ => exact .inl ⟨ht, by simp [Event.client?]⟩

theorem Step.tasks_of_ne {s s' : Sys σ Tag Op Ret α} {e : Event Tag Op Ret α} (h : Step R s e s') {c : Nat}
    (hne : e.client? ≠ some c) : s'.tasks c = s.tasks c := by
  cases h with
  | begin d | op d | opFails d | fails d =>
    have hd : c ≠ d := fun hcd => hne (by rw [hcd]; rfl)
    exact Function.update_of_ne hd _ _
  | env => rfl

/-- A request of the kind `A` is in progress. -/
def Sys.Serves (A : Tag → Prop) (s : Sys σ Tag Op Ret α) : Prop := ∃ c t, s.tasks c = some t ∧ A t.tag

/-- A request of the kind `A` begins, and is not answered at once. -/
def Event.Accepts (A : Tag → Prop) (e : Event Tag Op Ret α) : Prop := ∃ c tag, e = .began c tag none ∧ A tag

theorem Event.accepts_began {A : Tag → Prop} {c : Nat} {tag : Tag} {answer : Option α}
    (h : (Event.began c tag answer : Event Tag Op Ret α).Accepts A) : A tag := by
  obtain ⟨c', tag', heq, hA⟩ := h
  cases heq
  exact hA

theorem Event.not_accepts_did {A : Tag → Prop} {c : Nat} {tag : Tag} {o : Op} {r : Ret o} {answer : Option α} :
    ¬(Event.did c tag o r answer : Event Tag Op Ret α).Accepts A := by
  rintro ⟨c', tag', heq, -⟩
  cases heq

theorem Event.Accepts.answered {A : Tag → Prop} {e : Event Tag Op Ret α} (h : e.Accepts A) : e.answered = none := by
  obtain ⟨c, tag, rfl, -⟩ := h
  rfl

theorem Step.serves {A : Tag → Prop} {s s' : Sys σ Tag Op Ret α} {e : Event Tag Op Ret α} (h : Step R s e s')
    (hs : s'.Serves A) : s.Serves A ∨ e.Accepts A := by
  obtain ⟨c, t, ht, hA⟩ := hs
  obtain ⟨hc, -⟩ | ⟨-, -, rfl⟩ | ⟨i, o, k, r, hc, -, -, -⟩ := h.task_cases ht
  · exact .inl ⟨c, t, hc, hA⟩
  · exact .inr ⟨c, t.tag, rfl, hA⟩
  · exact .inl ⟨c, _, hc, hA⟩

/-- **Task rule.** What holds of a task when it begins, is kept by its own operations and by the steps of
    others, holds of every task in progress. -/
theorem Trace.task_inv {C : List (Event Tag Op Ret α) → Nat → Task Tag Op Ret α → Prop}
    (hbegin : ∀ evs c tag answer, R.admitted tag → C (evs ++ [.began c tag answer]) c ⟨tag, R.progOf tag⟩)
    (hop : ∀ evs c tag o k r answer, C evs c ⟨tag, .op o k⟩ → C (evs ++ [.did c tag o r answer]) c ⟨tag, k r⟩)
    (hother : ∀ evs e c t, C evs c t → e.client? ≠ some c → C (evs ++ [e]) c t)
    {evs : List (Event Tag Op Ret α)} {s : Sys σ Tag Op Ret α}
    (h : Trace R s₀ evs s) {c : Nat} {t : Task Tag Op Ret α} (ht : s.tasks c = some t) : C evs c t := by
  induction h generalizing c t with
  | start => simp at ht
  | next _ hstep ih =>
    obtain ⟨tag, p⟩ := t
    obtain ⟨hc, hne⟩ | ⟨hadm, hp, rfl⟩ | ⟨i, o, k, r, hc, -, hp, rfl⟩ := hstep.task_cases ht
    · exact hother _ _ _ _ (ih hc) hne
    · obtain rfl : p = R.progOf tag := hp
      exact hbegin _ _ _ _ hadm
    · obtain rfl : p = k r := hp
      exact hop _ _ _ _ _ _ _ (ih hc)

/-- Every task in progress serves an admitted request, at a point its program can reach. -/
theorem Trace.task_reach {evs : List (Event Tag Op Ret α)} {s : Sys σ Tag Op Ret α}
    (h : Trace R s₀ evs s) {c : Nat} {t : Task Tag Op Ret α} (ht : s.tasks c = some t) :
    R.admitted t.tag ∧ Prog.Reach (R.progOf t.tag) t.prog :=
  h.task_inv (C := fun _ _ t => R.admitted t.tag ∧ Prog.Reach (R.progOf t.tag) t.prog)
    (fun _ _ _ _ hadm => ⟨hadm, .refl _⟩) (fun _ _ _ _ _ r _ hk => ⟨hk.1, hk.2.next r⟩)
    (fun _ _ _ _ hk _ => hk) ht

/-- The request a task serves was begun by its client. -/
theorem Trace.task_began {evs : List (Event Tag Op Ret α)} {s : Sys σ Tag Op Ret α}
    (h : Trace R s₀ evs s) {c : Nat} {t : Task Tag Op Ret α} (ht : s.tasks c = some t) :
    ∃ answer, .began c t.tag answer ∈ evs := by
  refine h.task_inv (C := fun evs c t => ∃ answer, .began c t.tag answer ∈ evs) ?_ ?_ ?_ ht
  · intro evs c tag answer _
    exact ⟨answer, by simp⟩
  · rintro evs c tag o k r answer ⟨answer', hmem⟩
    exact ⟨answer', List.mem_append_left _ hmem⟩
  · rintro evs e c t ⟨answer', hmem⟩ _
    exact ⟨answer', List.mem_append_left _ hmem⟩

/-- A bound on what each admitted program can do bounds the operation it is about to perform. -/
theorem Trace.op_all {P : Tag → Op → Prop} {Q : Tag → α → Prop}
    (hall : ∀ tag, R.admitted tag → (R.progOf tag).All (P tag) (Q tag))
    {evs : List (Event Tag Op Ret α)} {s : Sys σ Tag Op Ret α} (h : Trace R s₀ evs s)
    {c : Nat} {tag : Tag} {o : Op} {k : Ret o → Prog Op Ret α}
    (ht : s.tasks c = some ⟨tag, .op o k⟩) : P tag o := by
  obtain ⟨hadm, hr⟩ := h.task_reach ht
  exact (hr.all (hall tag hadm)).1

/-! ## Runs under a condition -/

/-- A run whose every step meets a condition on the run so far. -/
inductive GuardedTrace (R : Rules σ Tag Op Ret α ι) (s₀ : σ)
    (G : List (Event Tag Op Ret α) → Sys σ Tag Op Ret α → Event Tag Op Ret α → Prop) :
    List (Event Tag Op Ret α) → Sys σ Tag Op Ret α → Prop
  | start : GuardedTrace R s₀ G [] ⟨s₀, fun _ => none⟩
  | next {evs s e s'} : GuardedTrace R s₀ G evs s → Step R s e s' → G evs s e →
      GuardedTrace R s₀ G (evs ++ [e]) s'

theorem GuardedTrace.trace {G : List (Event Tag Op Ret α) → Sys σ Tag Op Ret α → Event Tag Op Ret α → Prop}
    {evs : List (Event Tag Op Ret α)} {s : Sys σ Tag Op Ret α} (h : GuardedTrace R s₀ G evs s) :
    Trace R s₀ evs s := by
  induction h with
  | start => exact .start
  | next _ hstep _ ih => exact ih.next hstep

/-- `P` has happened, and nothing that undoes it since. -/
def Since {ε : Type} (reset P : ε → Prop) (evs : List ε) : Prop :=
  ∃ before e after, evs = before ++ e :: after ∧ P e ∧ ∀ e' ∈ after, ¬reset e'

theorem not_since_nil {ε : Type} {reset P : ε → Prop} : ¬Since reset P [] := by
  rintro ⟨before, e, after, h, -⟩
  simp at h

theorem since_snoc {ε : Type} {reset P : ε → Prop} {evs : List ε} {e : ε} :
    Since reset P (evs ++ [e]) ↔ P e ∨ ¬reset e ∧ Since reset P evs := by
  constructor
  · rintro ⟨before, e', after, h, he, hafter⟩
    -- the event is the last one, or comes before it
    rcases List.eq_nil_or_concat after with rfl | ⟨after, last, rfl⟩
    · obtain ⟨-, hlast⟩ := List.append_inj' h rfl
      obtain rfl := List.singleton_inj.1 hlast
      exact .inl he
    · rw [List.concat_eq_append, ← List.cons_append, ← List.append_assoc] at h
      obtain ⟨rfl, hlast⟩ := List.append_inj' h rfl
      obtain rfl := List.singleton_inj.1 hlast
      exact .inr ⟨hafter e (by simp), before, e', after, rfl, he, fun x hx => hafter x (by simp [hx])⟩
  · rintro (he | ⟨he, before, e', after, rfl, he', hafter⟩)
    · exact ⟨evs, e, [], rfl, he, by simp⟩
    · refine ⟨before, e', after ++ [e], by simp, he', ?_⟩
      intro x hx
      rcases List.mem_append.1 hx with hx | hx
      · exact hafter x hx
      · obtain rfl := List.mem_singleton.1 hx
        exact he

/-! ## Schedules

A run whose order of steps is given: it can be computed, and is a trace. -/

inductive Move (Tag : Type)
  | start (c : Nat) (tag : Tag)
  | step (c : Nat)

/-- One step of the schedule; none if the client has nothing to do there. -/
def play (R : Rules σ Tag Op Ret α ι) (i : ι) (s : Sys σ Tag Op Ret α) :
    Move Tag → Option (Event Tag Op Ret α × Sys σ Tag Op Ret α)
  | .start c tag =>
    match s.tasks c with
    | none => some (.began c tag (R.progOf tag).answer?,
        { s with tasks := Function.update s.tasks c (settle tag (R.progOf tag)) })
    | some _ => none
  | .step c =>
    match s.tasks c with
    | some ⟨tag, .op o k⟩ =>
      match R.exec i o s.shared with
      | some (r, s') => some (.did c tag o r (k r).answer?,
          { shared := s', tasks := Function.update s.tasks c (settle tag (k r)) })
      | none => some (.died c tag, { s with tasks := Function.update s.tasks c none })
    | _ => none

def playAll (R : Rules σ Tag Op Ret α ι) (i : ι) : List (Move Tag) → Sys σ Tag Op Ret α →
    Option (List (Event Tag Op Ret α) × Sys σ Tag Op Ret α)
  | [], s => some ([], s)
  | m :: ms, s =>
    match play R i s m with
    | some (e, s') => (playAll R i ms s').map fun run => (e :: run.1, run.2)
    | none => none

theorem step_of_play (hadm : ∀ tag, R.admitted tag) {i : ι} {s s' : Sys σ Tag Op Ret α} {m : Move Tag}
    {e : Event Tag Op Ret α} (h : play R i s m = some (e, s')) : Step R s e s' := by
  cases m with
  | start c tag =>
    cases hc : s.tasks c with
    | none =>
      simp only [play, hc] at h
      cases h
      exact .begin s c tag hc (hadm tag)
    | some t => simp [play, hc] at h
  | step c =>
    rcases hc : s.tasks c with _ | ⟨tag, _ | _ | ⟨o, k⟩⟩
    · simp [play, hc] at h
    · simp [play, hc] at h
    · simp [play, hc] at h
    · cases hx : R.exec i o s.shared with
      | none =>
        simp only [play, hc, hx] at h
        cases h
        exact .opFails s c tag o k i hc hx
      | some x =>
        simp only [play, hc, hx] at h
        cases h
        exact .op s c tag o k i x.1 x.2 hc hx

theorem trace_of_playAll (hadm : ∀ tag, R.admitted tag) {i : ι} :
    ∀ {ms : List (Move Tag)} {s s' : Sys σ Tag Op Ret α} {evs evs' : List (Event Tag Op Ret α)},
      Trace R s₀ evs s → playAll R i ms s = some (evs', s') → Trace R s₀ (evs ++ evs') s'
  | [], s, s', evs, evs', h, hp => by
    cases hp
    simpa using h
  | m :: ms, s, s', evs, evs', h, hp => by
    simp only [playAll] at hp
    split at hp
    · rename_i e s₁ hm
      obtain ⟨⟨evs₁, s₂⟩, hms, heq⟩ := Option.map_eq_some_iff.1 hp
      cases heq
      have := trace_of_playAll hadm (h.next (step_of_play hadm hm)) hms
      simpa using this
    · cases hp

end Interleave

/-! ## Steps and loops that may fail -/

section Fallible
variable {α β σ : Type}

/-- A step that fails whatever it is given. -/
theorem bind_eq_none (x : Option α) {f : α → Option β} (h : ∀ a, f a = none) : (x >>= f) = none := by
  cases x with
  | none => rfl
  | some a => exact h a

/-- A step whose success hangs on nothing it is given. -/
theorem isSome_bind (x : Option α) {f : α → Option β} {P : Prop} (h : ∀ a, (f a).isSome ↔ P) :
    (x >>= f).isSome ↔ x.isSome ∧ P := by
  cases x with
  | none => simp
  | some a => simp [h a]

theorem foldlM_eq_none {f : σ → α → Option σ} {a : α} (h : ∀ s, f s a = none) :
    ∀ {xs : List α} (s : σ), a ∈ xs → xs.foldlM f s = none
  | [], _, ha => by cases ha
  | x :: xs, s, ha => by
    rw [List.foldlM_cons]
    rcases List.mem_cons.1 ha with rfl | ha
    · rw [h s]
      rfl
    · exact bind_eq_none _ fun s => foldlM_eq_none h s ha

theorem isSome_foldlM {f : σ → α → Option σ} {P : α → Prop} (h : ∀ s a, (f s a).isSome ↔ P a) :
    ∀ (xs : List α) (s : σ), (xs.foldlM f s).isSome ↔ ∀ a ∈ xs, P a
  | [], s => by simp
  | x :: xs, s => by
    rw [List.foldlM_cons, isSome_bind _ (isSome_foldlM h xs), h, List.forall_mem_cons]

end Fallible

end RedisOps.Lib
