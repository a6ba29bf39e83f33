import RedisOps.Lib.Prog

/-!
# Programs that keep to a protocol

`Prog.All` bounds every operation of a program alike. A protocol has phases: which operations are allowed,
and with which arguments, depends on what the program has done and been answered so far.

* `Obeys.bind`, `Obeys.map` — protocols of a sequence, and of a coarser view of the phases;
* `run_obeys` — an invariant that ties the shared state to the phase, along a run;
* `Trace.obeys` — in an interleaved run every task is in the phase its own events have brought it to.
-/

namespace RedisOps.Lib

structure Protocol (Op : Type) (Ret : Op → Type) (S : Type) where
  ok : S → Op → Prop
  next : S → (o : Op) → Ret o → S

namespace Prog

variable {Op : Type} {Ret : Op → Type} {α β σ S T : Type}

/-- Whatever the operations answer, from the phase `s` on each one performed is allowed, and the program
    ends in a phase and with a result that satisfy `Q`. -/
def Obeys (P : Protocol Op Ret S) (Q : S → α → Prop) : S → Prog Op Ret α → Prop
  | s, .ret a => Q s a
  | _, .fail => True
  | s, .op o k => P.ok s o ∧ ∀ r, Obeys P Q (P.next s o r) (k r)

variable {P : Protocol Op Ret S} {P' : Protocol Op Ret T} {Q Q' : S → α → Prop} {s : S}

@[simp] theorem obeys_ret {a : α} : Obeys P Q s (.ret a) ↔ Q s a := Iff.rfl
@[simp] theorem obeys_fail : Obeys P Q s (.fail : Prog Op Ret α) ↔ True := Iff.rfl
@[simp] theorem obeys_op {o : Op} {k : Ret o → Prog Op Ret α} :
    Obeys P Q s (.op o k) ↔ P.ok s o ∧ ∀ r, Obeys P Q (P.next s o r) (k r) := Iff.rfl

theorem obeys_bind {R : S → β → Prop} (p : Prog Op Ret α) (f : α → Prog Op Ret β) :
    Obeys P R s (p >>= f) ↔ Obeys P (fun s a => Obeys P R s (f a)) s p := by
  induction p generalizing s with
  | ret a => exact Iff.rfl
  | fail => exact Iff.rfl
  | op o k ih => exact and_congr Iff.rfl (forall_congr' fun r => ih r)

theorem Obeys.mono {p : Prog Op Ret α} (h : Obeys P Q s p) (hQ : ∀ s a, Q s a → Q' s a) : Obeys P Q' s p := by
  induction p generalizing s with
  | ret a => exact hQ s a h
  | fail => trivial
  | op o k ih => exact ⟨h.1, fun r => ih r (h.2 r)⟩

/-- In a phase that no result may end in, the program goes on. -/
theorem Obeys.answer?_eq_none {p : Prog Op Ret α} (h : Obeys P Q s p) (hQ : ∀ a, ¬Q s a) : p.answer? = none := by
  cases p with
  | ret a => exact absurd h (hQ a)
  | fail => rfl
  | op o k => rfl

/-- A coarser protocol: its phases are images of the finer one's, and allow what those allow. -/
theorem Obeys.map {R : T → α → Prop} (f : S → T) (hok : ∀ s o, P.ok s o → P'.ok (f s) o)
    (hnext : ∀ s o r, P.ok s o → P'.next (f s) o r = f (P.next s o r)) (hQ : ∀ s a, Q s a → R (f s) a)
    {p : Prog Op Ret α} (h : Obeys P Q s p) : Obeys P' R (f s) p := by
  induction p generalizing s with
  | ret a => exact hQ s a h
  | fail => trivial
  | op o k ih =>
    refine ⟨hok s o h.1, ?_⟩
    intro r
    rw [hnext s o r h.1]
    exact ih r (h.2 r)

/-- A program that only performs operations which the phase allows and which leave it. -/
theorem All.obeys {A : Op → Prop} {B : α → Prop} {p : Prog Op Ret α} (h : All A B p)
    (hstay : ∀ o, A o → P.ok s o ∧ ∀ r, P.next s o r = s) (hQ : ∀ a, B a → Q s a) : Obeys P Q s p := by
  induction p with
  | ret a => exact hQ a h
  | fail => trivial
  | op o k ih =>
    obtain ⟨hok, hnext⟩ := hstay o h.1
    refine ⟨hok, ?_⟩
    intro r
    rw [hnext r]
    exact ih r (h.2 r)

/-- **Phase rule.** What ties the shared state to the phase, and is kept by every operation the phase
    allows, holds at the end of the run. -/
theorem run_obeys {exec : (o : Op) → σ → Option (Ret o × σ)} {I : S → σ → Prop}
    (hstep : ∀ s o db r db', P.ok s o → I s db → exec o db = some (r, db') → I (P.next s o r) db')
    {p : Prog Op Ret α} (hp : Obeys P Q s p) {db : σ} (hI : I s db) :
    ∃ s', I s' (run exec p db).2 ∧ ∀ a, (run exec p db).1 = some a → Q s' a := by
  induction p generalizing s db with
  | ret a =>
    refine ⟨s, hI, ?_⟩
    intro b hb
    cases hb
    exact hp
  | fail => exact ⟨s, hI, by simp⟩
  | op o k ih =>
    cases h : exec o db with
    | none =>
      rw [run_op_none exec h]
      exact ⟨s, hI, by simp⟩
    | some x =>
      rw [run_op_some exec h]
      exact ih x.1 (hp.2 x.1) (hstep s o db x.1 x.2 hp.1 hI h)

end Prog

/-! ## Interleaved runs -/

section Interleave
variable {Tag Op : Type} {Ret : Op → Type} {α σ ι S : Type}

/-- The phase of client `c` after an event; a new request starts over. -/
def Event.phase (P : Tag → Protocol Op Ret S) (start : S) (c : Nat) (s : S) : Event Tag Op Ret α → S
  | .began c' _ _ => if c' = c then start else s
  | .did c' tag o r _ => if c' = c then (P tag).next s o r else s
  | .died _ _ => s
  | .env => s

theorem Event.phase_of_ne {P : Tag → Protocol Op Ret S} {start : S} {c : Nat} {s : S} {e : Event Tag Op Ret α}
    (h : e.client? ≠ some c) : e.phase P start c s = s := by
  cases e <;> simp_all [Event.phase, Event.client?]

/-- The phase client `c` has come to. -/
def phase (P : Tag → Protocol Op Ret S) (start : S) (c : Nat) (evs : List (Event Tag Op Ret α)) : S :=
  evs.foldl (Event.phase P start c) start

variable {P : Tag → Protocol Op Ret S} {start : S} {R : Rules σ Tag Op Ret α ι} {s₀ : σ}

@[simp] theorem phase_snoc (c : Nat) (evs : List (Event Tag Op Ret α)) (e : Event Tag Op Ret α) :
    phase P start c (evs ++ [e]) = e.phase P start c (phase P start c evs) := by
  simp [phase]

/-- Every task keeps to its protocol, from the phase its events have brought it to. -/
theorem Trace.obeys {Q : Tag → S → α → Prop}
    (hall : ∀ tag, R.admitted tag → Prog.Obeys (P tag) (Q tag) start (R.progOf tag))
    {evs : List (Event Tag Op Ret α)} {s : Sys σ Tag Op Ret α} (h : Trace R s₀ evs s)
    {c : Nat} {t : Task Tag Op Ret α} (ht : s.tasks c = some t) :
    Prog.Obeys (P t.tag) (Q t.tag) (phase P start c evs) t.prog := by
  refine h.task_inv (C := fun evs c t => Prog.Obeys (P t.tag) (Q t.tag) (phase P start c evs) t.prog) ?_ ?_ ?_ ht
  · intro evs c tag answer hadm
    simpa [Event.phase] using hall tag hadm
  · intro evs c tag o k r answer hobeys
    simpa [Event.phase] using hobeys.2 r
  · intro evs e c t hobeys hne
    rwa [phase_snoc, Event.phase_of_ne hne]

end Interleave

end RedisOps.Lib
