import RedisOps.Lib.Prog

/-!
# Clients that keep out of each other's way

`agree s t` says that two states are the same in one part. If the operations of some clients (`mine`) neither see nor
change anything outside of that part, and those of the others change nothing inside, an interleaved run of all of them
is for the first an interleaved run of them alone, event for event (`Trace.alone`): with the same answers, from any
state that agrees with the one the run began in.
-/

namespace RedisOps.Lib

variable {Tag Op : Type} {Ret : Op → Type} {α σ ι : Type}

/-- `own` operations are settled in the part, `other` ones settled outside of it, and the environment takes agreeing states
    to agreeing ones. -/
structure Apart (R : Rules σ Tag Op Ret α ι) (own other : Op → Prop) (agree : σ → σ → Prop) : Prop where
  own : ∀ i o s t, own o → agree s t →
    (R.exec i o s = none ∧ R.exec i o t = none) ∨
      ∃ r s' t', R.exec i o s = some (r, s') ∧ R.exec i o t = some (r, t') ∧ agree s' t'
  other : ∀ i o s t r s', other o → agree s t → R.exec i o s = some (r, s') → agree s' t
  env : ∀ s t s', agree s t → R.env s s' → ∃ t', R.env t t' ∧ agree s' t'

/-- A step of one of these clients, or of the environment. -/
def Event.concerns (mine : Nat → Bool) (e : Event Tag Op Ret α) : Bool := e.client?.all mine

variable {R : Rules σ Tag Op Ret α ι} {own other : Op → Prop} {agree : σ → σ → Prop} {mine : Nat → Bool} {s₀ t₀ : σ}

/-- The state of the clients alone, beside the one of all of them. -/
structure Alone (mine : Nat → Bool) (agree : σ → σ → Prop) (s t : Sys σ Tag Op Ret α) : Prop where
  shared : agree s.shared t.shared
  tasks : ∀ c, t.tasks c = if mine c then s.tasks c else none

theorem Alone.task {s t : Sys σ Tag Op Ret α} (h : Alone mine agree s t) {c : Nat} (hc : mine c = true) :
    t.tasks c = s.tasks c := by
  rw [h.tasks, if_pos hc]

/-- A step of one of them, on both sides. -/
theorem Alone.update {s t : Sys σ Tag Op Ret α} (h : Alone mine agree s t) {s' t' : σ} (hagree : agree s' t') {c : Nat}
    (hc : mine c = true) (task : Option (Task Tag Op Ret α)) :
    Alone mine agree ⟨s', Function.update s.tasks c task⟩ ⟨t', Function.update t.tasks c task⟩ := by
  refine ⟨hagree, ?_⟩
  intro c'
  by_cases hcc : c' = c
  · subst hcc
    simp [hc]
  · simpa [hcc] using h.tasks c'

/-- A step of another one. -/
theorem Alone.skip {s t : Sys σ Tag Op Ret α} (h : Alone mine agree s t) {s' : σ} (hagree : agree s' t.shared) {c : Nat}
    (hc : mine c = false) (task : Option (Task Tag Op Ret α)) :
    Alone mine agree ⟨s', Function.update s.tasks c task⟩ t := by
  refine ⟨hagree, ?_⟩
  intro c'
  rw [h.tasks]
  by_cases hcc : c' = c
  · subst hcc
    simp [hc]
  · simp [hcc]

/-- What the requests may do: those of `mine` are `own`, those of the others `other`. -/
def KeepsTo (R : Rules σ Tag Op Ret α ι) (own other : Op → Prop) (mine : Nat → Bool) (evs : List (Event Tag Op Ret α)) :
    Prop :=
  ∀ c tag answer, .began c tag answer ∈ evs →
    (R.progOf tag).All (if mine c then own else other) fun _ => True

theorem KeepsTo.task {evs : List (Event Tag Op Ret α)} {s : Sys σ Tag Op Ret α} (hkeeps : KeepsTo R own other mine evs)
    (htr : Trace R s₀ evs s) {c : Nat} {tag : Tag} {o : Op} {k : Ret o → Prog Op Ret α}
    (hc : s.tasks c = some ⟨tag, .op o k⟩) : (if mine c then own else other) o := by
  obtain ⟨answer, hmem⟩ := htr.task_began hc
  exact ((htr.task_reach hc).2.all (hkeeps c tag answer hmem)).1

theorem KeepsTo.of_append {evs evs' : List (Event Tag Op Ret α)} (h : KeepsTo R own other mine (evs ++ evs')) :
    KeepsTo R own other mine evs :=
  fun c tag answer hmem => h c tag answer (List.mem_append_left _ hmem)

theorem filter_concerns {evs : List (Event Tag Op Ret α)} {e : Event Tag Op Ret α} (h : e.concerns mine = true) :
    (evs ++ [e]).filter (Event.concerns mine) = evs.filter (Event.concerns mine) ++ [e] := by
  simp [List.filter_append, h]

theorem filter_not_concerns {evs : List (Event Tag Op Ret α)} {e : Event Tag Op Ret α} (h : e.concerns mine = false) :
    (evs ++ [e]).filter (Event.concerns mine) = evs.filter (Event.concerns mine) := by
  simp [List.filter_append, h]

/-- **Isolation.** -/
theorem Trace.alone (hapart : Apart R own other agree) (h₀ : agree s₀ t₀) {evs : List (Event Tag Op Ret α)}
    {s : Sys σ Tag Op Ret α} (h : Trace R s₀ evs s) (hkeeps : KeepsTo R own other mine evs) :
    ∃ t, Trace R t₀ (evs.filter (Event.concerns mine)) t ∧ Alone mine agree s t := by
  induction h with
  | start => exact ⟨_, .start, h₀, fun c => by simp⟩
  | @next evs s e s' htr hstep ih =>
    obtain ⟨t, ht, halone⟩ := ih hkeeps.of_append
    cases hmine : e.concerns mine with
    | true =>
      rw [filter_concerns hmine]
      cases hstep with
      | begin c tag hc hadm =>
        have hm : mine c = true := hmine
        exact ⟨_, ht.next (.begin t c tag (by rw [halone.task hm, hc]) hadm), halone.update halone.shared hm _⟩
      | op c tag o k i r s' hc hex =>
        have hm : mine c = true := hmine
        have hown := hkeeps.of_append.task htr hc
        rw [if_pos hm] at hown
        obtain ⟨hnone, -⟩ | ⟨r', s'', t', hs, ht', hagree⟩ := hapart.own i o _ _ hown halone.shared
        · rw [hnone] at hex
          cases hex
        · rw [hs, Option.some.injEq, Prod.mk.injEq] at hex
          obtain ⟨rfl, rfl⟩ := hex
          exact ⟨_, ht.next (.op t c tag o k i r' t' (by rw [halone.task hm, hc]) ht'), halone.update hagree hm _⟩
      | opFails c tag o k i hc hex =>
        have hm : mine c = true := hmine
        have hown := hkeeps.of_append.task htr hc
        rw [if_pos hm] at hown
        obtain ⟨-, hnone⟩ | ⟨r', s'', t', hs, -, -⟩ := hapart.own i o _ _ hown halone.shared
        · exact ⟨_, ht.next (.opFails t c tag o k i (by rw [halone.task hm, hc]) hnone),
            halone.update halone.shared hm _⟩
        · rw [hs] at hex
          cases hex
      | fails c tag hc =>
        have hm : mine c = true := hmine
        exact ⟨_, ht.next (.fails t c tag (by rw [halone.task hm, hc])), halone.update halone.shared hm _⟩
      | env s' henv =>
        obtain ⟨t', ht', hagree⟩ := hapart.env _ _ _ halone.shared henv
        exact ⟨_, ht.next (.env t t' ht'), hagree, halone.tasks⟩
    | false =>
      rw [filter_not_concerns hmine]
      refine ⟨t, ht, ?_⟩
      cases hstep with
      | begin c tag hc hadm => exact halone.skip halone.shared hmine _
      | op c tag o k i r s' hc hex =>
        have hm : mine c = false := hmine
        have hother := hkeeps.of_append.task htr hc
        rw [if_neg (by simp [hm])] at hother
        exact halone.skip (hapart.other i o _ _ r s' hother halone.shared hex) hm _
      | opFails c tag o k i hc hex => exact halone.skip halone.shared hmine _
      | fails c tag hc => exact halone.skip halone.shared hmine _
      | env s' henv => cases hmine

end RedisOps.Lib
