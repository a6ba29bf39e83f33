import RedisOps.Lib.Prog

/-!
# A request without others of its kind

In an interleaved run a request may well have no other of its kind beside it, from its beginning to its end: `LoneTrace`. What
its program does to the part of the state that only this kind of request writes can then be read off the program, as if it
ran alone. An `Outline` says what holds at each point of the program, whatever the others do; `LoneTrace.outline` is the
rule.
-/

namespace RedisOps.Lib

variable {Tag Op : Type} {Ret : Op → Type} {α σ ι : Type}

/-- A run in which the last request of the kind `A` to begin is `tag` of the client `c`; none was in progress then. -/
inductive LoneTrace (R : Rules σ Tag Op Ret α ι) (s₀ : σ) (A : Tag → Prop) (c : Nat) (tag : Tag) :
    List (Event Tag Op Ret α) → Sys σ Tag Op Ret α → Prop
  | begin {evs s s'} : Trace R s₀ evs s → ¬s.Serves A → Step R s (.began c tag none) s' →
      LoneTrace R s₀ A c tag (evs ++ [.began c tag none]) s'
  | next {evs s e s'} : LoneTrace R s₀ A c tag evs s → Step R s e s' → ¬e.Accepts A →
      LoneTrace R s₀ A c tag (evs ++ [e]) s'

/-- The environment and the requests that are not of the kind `A` keep `P`. -/
structure Rules.Keeps (R : Rules σ Tag Op Ret α ι) (A : Tag → Prop) (P : σ → Prop) : Prop where
  op : ∀ {tag o k i s r s'}, R.admitted tag → ¬A tag → Prog.Reach (R.progOf tag) (.op o k) →
    R.exec i o s = some (r, s') → P s → P s'
  env : ∀ {s s'}, R.env s s' → P s → P s'

/-- What holds at each point of the program of `tag`, which does not fail. -/
structure Rules.Outline (R : Rules σ Tag Op Ret α ι) (A : Tag → Prop) (tag : Tag)
    (K : Prog Op Ret α → σ → Prop) : Prop where
  first : ∀ s, K (R.progOf tag) s
  next : ∀ {o k i s r s'}, K (.op o k) s → R.exec i o s = some (r, s') → K (k r) s'
  lives : ∀ {o k i s}, K (.op o k) s → R.exec i o s ≠ none
  noFail : ∀ s, ¬K .fail s
  keeps : ∀ p, R.Keeps A (K p)

/-- The client `c` is at a point of its program, and no other serves a request of the kind; or it has answered. -/
def OutlineAt (A : Tag → Prop) (K : Prog Op Ret α → σ → Prop) (c : Nat) (tag : Tag) (s : Sys σ Tag Op Ret α) : Prop :=
  (∃ p, s.tasks c = some ⟨tag, p⟩ ∧ K p s.shared ∧ ∀ c' t, s.tasks c' = some t → A t.tag → c' = c) ∨
    ¬s.Serves A ∧ ∃ a, K (.ret a) s.shared

variable {R : Rules σ Tag Op Ret α ι} {s₀ : σ} {A : Tag → Prop} {K : Prog Op Ret α → σ → Prop} {c : Nat} {tag : Tag}
  {evs : List (Event Tag Op Ret α)} {s s' : Sys σ Tag Op Ret α} {e : Event Tag Op Ret α}

theorem LoneTrace.trace (h : LoneTrace R s₀ A c tag evs s) : Trace R s₀ evs s := by
  induction h with
  | begin htr _ hstep => exact htr.next hstep
  | next _ hstep _ ih => exact ih.next hstep

/-- A step that is none of a request of the kind. -/
theorem Rules.Keeps.step {P : σ → Prop} (hP : R.Keeps A P) (htr : Trace R s₀ evs s) (hstep : Step R s e s')
    (hothers : ∀ c t, s.tasks c = some t → A t.tag → e.client? ≠ some c) (h : P s.shared) : P s'.shared := by
  cases hstep with
  | begin => exact h
  | op c tag o k i r shared hc hex =>
    obtain ⟨hadm, hreach⟩ := htr.task_reach hc
    exact hP.op hadm (fun hA => hothers _ _ hc hA rfl) hreach hex h
  | opFails => exact h
  | fails => exact h
  | env shared henv => exact hP.env henv h

/-- A request of the kind that is in progress was so before the step, unless the step begins it. -/
theorem Step.serves_before (hstep : Step R s e s') (hno : ¬e.Accepts A) {c' : Nat} {t : Task Tag Op Ret α}
    (ht : s'.tasks c' = some t) (hA : A t.tag) : ∃ p, s.tasks c' = some ⟨t.tag, p⟩ := by
  obtain ⟨hold, -⟩ | ⟨-, -, rfl⟩ | ⟨i, o, k, r, hold, -, -, -⟩ := hstep.task_cases ht
  · exact ⟨t.prog, hold⟩
  · exact absurd ⟨c', t.tag, rfl, hA⟩ hno
  · exact ⟨_, hold⟩

/-- A program that begins or goes on is at its next point, or has answered. -/
theorem OutlineAt.of_settle {shared : σ} {p : Prog Op Ret α} (hK : K p shared)
    (hothers : ∀ c' t, s.tasks c' = some t → A t.tag → c' = c) :
    OutlineAt A K c tag ⟨shared, Function.update s.tasks c (settle tag p)⟩ := by
  have hothers' : ∀ c' t, Function.update s.tasks c (settle tag p) c' = some t → A t.tag → c' = c := by
    intro c' t ht hA
    by_contra hne
    rw [Function.update_of_ne hne] at ht
    exact hne (hothers c' t ht hA)
  cases p with
  | ret a =>
    refine .inr ⟨?_, a, hK⟩
    rintro ⟨c', t, ht, hA⟩
    obtain rfl := hothers' c' t ht hA
    exact absurd (ht.symm.trans (Function.update_self ..)) (by simp [settle])
  | fail => exact .inl ⟨_, Function.update_self .., hK, hothers'⟩
  | op o k => exact .inl ⟨_, Function.update_self .., hK, hothers'⟩

/-- **Step lemma.** -/
theorem OutlineAt.step (hK : R.Outline A tag K) (htr : Trace R s₀ evs s) (hstep : Step R s e s') (hno : ¬e.Accepts A)
    (h : OutlineAt A K c tag s) : OutlineAt A K c tag s' := by
  rcases h with ⟨p, hc, hp, hothers⟩ | ⟨hquiet, a, ha⟩
  · by_cases hown : e.client? = some c
    · cases hstep with
      | begin c' tag' hc' =>
        cases hown
        exact absurd (hc.symm.trans hc') (by simp)
      | op c' tag' o k i r shared hc' hex =>
        cases hown
        cases hc.symm.trans hc'
        exact .of_settle (hK.next hp hex) hothers
      | opFails c' tag' o k i hc' hex =>
        cases hown
        cases hc.symm.trans hc'
        exact absurd hex (hK.lives hp)
      | fails c' tag' hc' =>
        cases hown
        cases hc.symm.trans hc'
        exact absurd hp (hK.noFail _)
      | env => cases hown
    · refine .inl ⟨p, (hstep.tasks_of_ne hown).trans hc, (hK.keeps p).step htr hstep ?_ hp, ?_⟩
      · intro c' t ht hA
        rwa [hothers c' t ht hA]
      · intro c' t ht hA
        obtain ⟨p', hp'⟩ := hstep.serves_before hno ht hA
        exact hothers _ _ hp' hA
  · refine .inr ⟨?_, a, (hK.keeps _).step htr hstep (fun c' t ht hA => absurd ⟨c', t, ht, hA⟩ hquiet) ha⟩
    rintro ⟨c', t, ht, hA⟩
    obtain ⟨p', hp'⟩ := hstep.serves_before hno ht hA
    exact hquiet ⟨c', _, hp', hA⟩

/-- **Outline rule.** A request without others of its kind is where its outline says. -/
theorem LoneTrace.outline (hK : R.Outline A tag K) (h : LoneTrace R s₀ A c tag evs s) : OutlineAt A K c tag s := by
  induction h with
  | begin htr hquiet hstep =>
    generalize he : Event.began c tag none = e at hstep
    cases hstep with
    | begin c' tag' =>
      obtain ⟨rfl, rfl, -⟩ := Event.began.inj he
      exact .of_settle (hK.first _) fun c' t ht hA => absurd ⟨c', t, ht, hA⟩ hquiet
    | op | opFails | fails | env => cases he
  | next hlone hstep hno ih => exact ih.step hK hlone.trace hstep hno

/-- Once none of the kind is in progress the program has come to its end. -/
theorem LoneTrace.outline_ret (hK : R.Outline A tag K) (hA : A tag) (h : LoneTrace R s₀ A c tag evs s)
    (hquiet : ¬s.Serves A) : ∃ a, K (.ret a) s.shared := by
  rcases h.outline hK with ⟨p, hc, -⟩ | ⟨-, ha⟩
  · exact absurd ⟨c, _, hc, hA⟩ hquiet
  · exact ha

/-- The rule for a program of two operations, `P` between them and `Q` behind. -/
theorem LoneTrace.pair {o₁ o₂ : Op} {a : α} {P Q : σ → Prop}
    (hprog : R.progOf tag = .op o₁ fun _ => .op o₂ fun _ => .ret a)
    (hfirst : ∀ i s, ∃ r s', R.exec i o₁ s = some (r, s') ∧ P s')
    (hsecond : ∀ i s, P s → ∃ r s', R.exec i o₂ s = some (r, s') ∧ Q s')
    (hP : R.Keeps A P) (hQ : R.Keeps A Q) (hA : A tag) (h : LoneTrace R s₀ A c tag evs s) (hquiet : ¬s.Serves A) :
    Q s.shared := by
  let K : Prog Op Ret α → σ → Prop := fun p s =>
    p = (.op o₁ fun _ => .op o₂ fun _ => .ret a) ∨ p = (.op o₂ fun _ => .ret a) ∧ P s ∨ p = .ret a ∧ Q s
  have hK : R.Outline A tag K := by
    constructor
    · exact fun s => .inl hprog
    · rintro o k i s r s' (heq | ⟨heq, hp⟩ | ⟨heq, -⟩) hex
      · cases heq
        obtain ⟨r', t, hr, hp⟩ := hfirst i s
        cases hex.symm.trans hr
        exact .inr (.inl ⟨rfl, hp⟩)
      · cases heq
        obtain ⟨r', t, hr, hq⟩ := hsecond i s hp
        cases hex.symm.trans hr
        exact .inr (.inr ⟨rfl, hq⟩)
      · cases heq
    · rintro o k i s (heq | ⟨heq, hp⟩ | ⟨heq, -⟩) hex
      · cases heq
        obtain ⟨r', t, hr, -⟩ := hfirst i s
        exact absurd (hex.symm.trans hr) (by simp)
      · cases heq
        obtain ⟨r', t, hr, -⟩ := hsecond i s hp
        exact absurd (hex.symm.trans hr) (by simp)
      · cases heq
    · rintro s (heq | ⟨heq, -⟩ | ⟨heq, -⟩) <;> cases heq
    · intro p
      constructor
      · rintro t o k i s r s' hadm hno hreach hex (heq | ⟨heq, hp⟩ | ⟨heq, hq⟩)
        · exact .inl heq
        · exact .inr (.inl ⟨heq, hP.op hadm hno hreach hex hp⟩)
        · exact .inr (.inr ⟨heq, hQ.op hadm hno hreach hex hq⟩)
      · rintro s s' henv (heq | ⟨heq, hp⟩ | ⟨heq, hq⟩)
        · exact .inl heq
        · exact .inr (.inl ⟨heq, hP.env henv hp⟩)
        · exact .inr (.inr ⟨heq, hQ.env henv hq⟩)
  obtain ⟨a', heq | ⟨heq, -⟩ | ⟨-, hq⟩⟩ := h.outline_ret hK hA hquiet
  · cases heq
  · cases heq
  · exact hq

end RedisOps.Lib
