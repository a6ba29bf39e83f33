import RedisOps.Lib.Protocol

/-!
# Threads around one lock

Programs whose operations are `Act`s: an access to shared memory, the lock, starting a thread and waiting for one to
end. A thread has an identity, `Tid`: callers come from outside and perform one operation after another, forked threads
are numbered in the order they are started and perform one.

* `Act.alone` — one program by itself, the other threads out of sight;
* `Threads.Step`, `Threads.Reach` — any number of threads, one act at a time. The lock is not recursive and has an
  owner; an act that has to wait (a lock that is held, a thread that has not ended) is not enabled.
* `SelfBlocked` — a thread is about to take a lock it owns, or to join itself. Neither is ever enabled: the first waits
  forever, and the second is an error that ends the process, so that a run is one up to there.
* `goOn_forall` — what holds of every thread, when one of them goes on.

`lockRules` is the discipline that excludes this, as a protocol with the phases of `Held`. A run may be restricted by
`allowed` to some answers of memory; a program that has been given another answer is `astray` and owes nothing more.
`Reach.not_selfBlocked` is the rule: if all code keeps to the discipline, no thread blocks itself in such a run.
-/

namespace RedisOps.Lib

inductive Act (Op Kind Tag : Type)
  | mem (o : Op)
  | lock
  | unlock
  | fork (tag : Tag)
  | join (kind : Kind) (n : Nat)

/-- A fork answers the number of the new thread. -/
@[reducible] def Act.Ret {Op Kind Tag : Type} (Ret : Op → Type) : Act Op Kind Tag → Type
  | .mem o => Ret o
  | .fork _ => Nat
  | .lock => Unit
  | .unlock => Unit
  | .join _ _ => Unit

inductive Tid (Kind : Type)
  | caller (n : Nat)
  | forked (kind : Kind) (n : Nat)
  deriving DecidableEq

section Threads
variable {Op Kind Tag : Type} {Ret : Op → Type} {α σ ι : Type}

/-- `lock_guard` around `p`. -/
def locked (p : Prog (Act Op Kind Tag) (Act.Ret Ret) α) : Prog (Act Op Kind Tag) (Act.Ret Ret) α := do
  let _ ← Prog.call .lock
  let a ← p
  let _ ← Prog.call .unlock
  pure a

/-- A program by itself has nobody to join but itself. -/
def Act.alone (exec : (o : Op) → σ → Option (Ret o × σ)) : (a : Act Op Kind Tag) → σ → Option (Act.Ret Ret a × σ)
  | .mem o, s => exec o s
  | .fork _, s => some ((0 : Nat), s)
  | .lock, s => some ((), s)
  | .unlock, s => some ((), s)
  | .join _ _, _ => none

/-- `kind` is `none` for the operations that callers perform, and the kind of thread that performs any other. -/
structure ThreadRules (σ Op Kind Tag : Type) (Ret : Op → Type) (α ι : Type) where
  exec : ι → (o : Op) → σ → Option (Ret o × σ)
  kind : Tag → Option Kind
  code : Tag → Prog (Act Op Kind Tag) (Act.Ret Ret) α

structure Threads (σ Op Kind Tag : Type) (Ret : Op → Type) (α : Type) where
  mem : σ
  owner : Option (Tid Kind)
  /-- How many threads have been forked. -/
  forks : Nat
  running : Tid Kind → Option (Task Tag (Act Op Kind Tag) (Act.Ret Ret) α)

section Machine
variable [DecidableEq Kind]

/-- Thread `t` goes on with `p`. -/
def Threads.goOn (s : Threads σ Op Kind Tag Ret α) (t : Tid Kind) (tag : Tag)
    (p : Prog (Act Op Kind Tag) (Act.Ret Ret) α) : Threads σ Op Kind Tag Ret α :=
  { s with running := Function.update s.running t (settle tag p) }

/-- What holds of the others, and of `t` as it goes on, holds of every thread that then runs. -/
theorem goOn_forall {C : Tid Kind → Task Tag (Act Op Kind Tag) (Act.Ret Ret) α → Prop} {s : Threads σ Op Kind Tag Ret α}
    {t : Tid Kind} {tag : Tag} {p : Prog (Act Op Kind Tag) (Act.Ret Ret) α}
    (hothers : ∀ u task, u ≠ t → s.running u = some task → C u task) (ht : C t ⟨tag, p⟩) :
    ∀ u task, (s.goOn t tag p).running u = some task → C u task := by
  intro u task hu
  by_cases hut : u = t
  · subst hut
    have hsettle : settle tag p = some task := by simpa [Threads.goOn] using hu
    rw [settle_some hsettle]
    exact ht
  · exact hothers u task hut (by simpa [Threads.goOn, hut] using hu)

/-- A thread that does not run has ended, or did not run before. -/
theorem goOn_none {s : Threads σ Op Kind Tag Ret α} {t u : Tid Kind} {tag : Tag}
    {p : Prog (Act Op Kind Tag) (Act.Ret Ret) α} (hu : (s.goOn t tag p).running u = none) :
    (u = t ∧ ∃ a, p = .ret a) ∨ (u ≠ t ∧ s.running u = none) := by
  by_cases hut : u = t
  · subst hut
    have hsettle : settle tag p = none := by simpa [Threads.goOn] using hu
    cases p with
    | ret a => exact .inl ⟨rfl, a, rfl⟩
    | _ => cases hsettle
  · exact .inr ⟨hut, by simpa [Threads.goOn, hut] using hu⟩

namespace Threads

inductive Step (R : ThreadRules σ Op Kind Tag Ret α ι) (allowed : Tag → (o : Op) → Ret o → Bool) :
    Threads σ Op Kind Tag Ret α → Threads σ Op Kind Tag Ret α → Prop
  | call (s : Threads σ Op Kind Tag Ret α) (n : Nat) (tag : Tag) :
      R.kind tag = none → s.running (.caller n) = none → Step R allowed s (s.goOn (.caller n) tag (R.code tag))
  | mem (s : Threads σ Op Kind Tag Ret α) (t : Tid Kind) (tag : Tag) (o : Op)
      (k : Ret o → Prog (Act Op Kind Tag) (Act.Ret Ret) α) (i : ι) (r : Ret o) (m : σ) :
      s.running t = some ⟨tag, .op (.mem o) k⟩ → R.exec i o s.mem = some (r, m) → allowed tag o r →
      Step R allowed s ({ s with mem := m }.goOn t tag (k r))
  | lock (s : Threads σ Op Kind Tag Ret α) (t : Tid Kind) (tag : Tag)
      (k : Unit → Prog (Act Op Kind Tag) (Act.Ret Ret) α) :
      s.running t = some ⟨tag, .op .lock k⟩ → s.owner = none →
      Step R allowed s ({ s with owner := some t }.goOn t tag (k ()))
  | unlock (s : Threads σ Op Kind Tag Ret α) (t : Tid Kind) (tag : Tag)
      (k : Unit → Prog (Act Op Kind Tag) (Act.Ret Ret) α) :
      s.running t = some ⟨tag, .op .unlock k⟩ → s.owner = some t →
      Step R allowed s ({ s with owner := none }.goOn t tag (k ()))
  | fork (s : Threads σ Op Kind Tag Ret α) (t : Tid Kind) (tag tag' : Tag) (kind : Kind)
      (k : Nat → Prog (Act Op Kind Tag) (Act.Ret Ret) α) :
      s.running t = some ⟨tag, .op (.fork tag') k⟩ → R.kind tag' = some kind →
      Step R allowed s (({ s with forks := s.forks + 1 }.goOn t tag (k s.forks)).goOn (.forked kind s.forks) tag'
        (R.code tag'))
  | join (s : Threads σ Op Kind Tag Ret α) (t : Tid Kind) (tag : Tag) (kind : Kind) (n : Nat)
      (k : Unit → Prog (Act Op Kind Tag) (Act.Ret Ret) α) :
      s.running t = some ⟨tag, .op (.join kind n) k⟩ → s.running (.forked kind n) = none →
      Step R allowed s (s.goOn t tag (k ()))

/-- The states of the runs from `m` in which memory gives only `allowed` answers. -/
inductive Reach (R : ThreadRules σ Op Kind Tag Ret α ι) (allowed : Tag → (o : Op) → Ret o → Bool) (m : σ) :
    Threads σ Op Kind Tag Ret α → Prop
  | start : Reach R allowed m ⟨m, none, 0, fun _ => none⟩
  | next {s s' : Threads σ Op Kind Tag Ret α} : Reach R allowed m s → Step R allowed s s' → Reach R allowed m s'

/-- The thread is about to take the lock it owns, or to join itself. -/
def SelfBlocked (s : Threads σ Op Kind Tag Ret α) (t : Tid Kind) : Prop :=
  (∃ tag k, s.running t = some ⟨tag, .op .lock k⟩ ∧ s.owner = some t) ∨
    ∃ tag kind n k, s.running t = some ⟨tag, .op (.join kind n) k⟩ ∧ t = .forked kind n

end Threads

end Machine

/-! ## The discipline -/

inductive Held
  | free | held | astray
  deriving DecidableEq

/-- Lock only when free, unlock only when held, and join only threads of another kind than one's own. -/
def lockRules (kind : Option Kind) (allowed : (o : Op) → Ret o → Bool) :
    Protocol (Act Op Kind Tag) (Act.Ret Ret) Held where
  ok
    | .astray, _ => True
    | .free, .lock => True
    | .held, .lock => False
    | .free, .unlock => False
    | .held, .unlock => True
    | _, .join kind' _ => kind ≠ some kind'
    | _, _ => True
  next
    | .astray, _, _ => .astray
    | _, .lock, _ => .held
    | _, .unlock, _ => .free
    | h, .mem o, r => if allowed o r then h else .astray
    | h, _, _ => h

section Discipline
variable {kind : Option Kind} {allowed : (o : Op) → Ret o → Bool} {Q : Held → α → Prop} {h : Held}

theorem lockRules_mem (kind : Option Kind) (allowed : (o : Op) → Ret o → Bool) (h : Held) (o : Op) :
    (lockRules kind allowed).ok h (.mem o : Act Op Kind Tag) ∧
      ∀ r, (lockRules kind allowed).next h (.mem o : Act Op Kind Tag) r = if allowed o r then h else .astray := by
  cases h with
  | free => exact ⟨trivial, fun r => rfl⟩
  | held => exact ⟨trivial, fun r => rfl⟩
  | astray => exact ⟨trivial, fun r => (ite_self _).symm⟩

theorem obeys_astray (p : Prog (Act Op Kind Tag) (Act.Ret Ret) α) (hQ : ∀ a, Q .astray a) :
    Prog.Obeys (lockRules kind allowed) Q .astray p := by
  induction p with
  | ret a => exact hQ a
  | fail => trivial
  | op o k ih => exact ⟨trivial, ih⟩

/-- After a memory access only the allowed answers matter. -/
theorem obeys_mem {o : Op} {k : Ret o → Prog (Act Op Kind Tag) (Act.Ret Ret) α} (hQ : ∀ a, Q .astray a)
    (hk : ∀ r, allowed o r = true → Prog.Obeys (lockRules kind allowed) Q h (k r)) :
    Prog.Obeys (lockRules kind allowed) Q h (.op (.mem o) k) := by
  obtain ⟨hok, hnext⟩ := @lockRules_mem Op Kind Tag Ret kind allowed h o
  refine ⟨hok, ?_⟩
  intro r
  rw [hnext]
  split
  · rename_i hr
    exact hk r hr
  · exact obeys_astray _ hQ

/-- The program ends in the phase it began in, as long as memory answers as allowed. -/
def Keeps (kind : Option Kind) (allowed : (o : Op) → Ret o → Bool) (p : Prog (Act Op Kind Tag) (Act.Ret Ret) α) : Prop :=
  ∀ (h : Held) (Q : Held → α → Prop), (∀ a, Q h a) → (∀ a, Q .astray a) → Prog.Obeys (lockRules kind allowed) Q h p

theorem keeps_ret (a : α) : Keeps kind allowed (.ret a : Prog (Act Op Kind Tag) (Act.Ret Ret) α) := by
  intro h Q hQ _
  exact hQ a

theorem keeps_fail : Keeps kind allowed (.fail : Prog (Act Op Kind Tag) (Act.Ret Ret) α) := by
  intro h Q _ _
  trivial

theorem Keeps.bind {β : Type} {p : Prog (Act Op Kind Tag) (Act.Ret Ret) α}
    {f : α → Prog (Act Op Kind Tag) (Act.Ret Ret) β} (hp : Keeps kind allowed p) (hf : ∀ a, Keeps kind allowed (f a)) :
    Keeps kind allowed (p >>= f) := by
  intro h Q hQ hastray
  rw [Prog.obeys_bind]
  apply hp h
  · intro a
    exact hf a h Q hQ hastray
  · intro a
    exact obeys_astray _ hastray

theorem keeps_mem {o : Op} {k : Ret o → Prog (Act Op Kind Tag) (Act.Ret Ret) α}
    (hk : ∀ r, allowed o r = true → Keeps kind allowed (k r)) : Keeps kind allowed (.op (.mem o) k) := by
  intro h Q hQ hastray
  apply obeys_mem hastray
  intro r hr
  exact hk r hr h Q hQ hastray

theorem keeps_fork {tag : Tag} {k : Nat → Prog (Act Op Kind Tag) (Act.Ret Ret) α}
    (hk : ∀ n, Keeps kind allowed (k n)) : Keeps kind allowed (.op (.fork tag) k) := by
  intro h Q hQ hastray
  cases h with
  | free => exact ⟨trivial, fun n => hk n .free Q hQ hastray⟩
  | held => exact ⟨trivial, fun n => hk n .held Q hQ hastray⟩
  | astray => exact obeys_astray _ hastray

theorem keeps_join {kind' : Kind} {n : Nat} {k : Unit → Prog (Act Op Kind Tag) (Act.Ret Ret) α}
    (hne : kind ≠ some kind') (hk : Keeps kind allowed (k ())) : Keeps kind allowed (.op (.join kind' n) k) := by
  intro h Q hQ hastray
  cases h with
  | free => exact ⟨hne, fun _ => hk .free Q hQ hastray⟩
  | held => exact ⟨hne, fun _ => hk .held Q hQ hastray⟩
  | astray => exact obeys_astray _ hastray

/-- What an operation may end in: the lock is given back. -/
def Released (h : Held) (_ : α) : Prop := h ≠ .held

theorem released_astray (a : α) : Released .astray a := by
  intro h
  cases h

/-- A body under a `lock_guard`. -/
theorem obeys_locked {p : Prog (Act Op Kind Tag) (Act.Ret Ret) α} (hQ : ∀ a, Q .astray a)
    (hp : Prog.Obeys (lockRules kind allowed) (fun h a => h = .astray ∨ h = .held ∧ Q .free a) .held p) :
    Prog.Obeys (lockRules kind allowed) Q .free (locked p) := by
  have hbody : Prog.Obeys (lockRules kind allowed) Q .held (p >>= fun a => Prog.call .unlock >>= fun _ => pure a) := by
    rw [Prog.obeys_bind]
    refine hp.mono ?_
    rintro h a (rfl | ⟨rfl, ha⟩)
    · exact ⟨trivial, fun _ => hQ a⟩
    · exact ⟨trivial, fun _ => ha⟩
  exact ⟨trivial, fun _ => hbody⟩

theorem Keeps.locked {p : Prog (Act Op Kind Tag) (Act.Ret Ret) α} (hp : Keeps kind allowed p) :
    Prog.Obeys (lockRules kind allowed) Released .free (locked p) := by
  apply obeys_locked released_astray
  apply hp .held
  · intro a
    exact .inr ⟨rfl, by simp [Released]⟩
  · intro a
    exact .inl rfl

theorem Keeps.released {p : Prog (Act Op Kind Tag) (Act.Ret Ret) α} (hp : Keeps kind allowed p) :
    Prog.Obeys (lockRules kind allowed) Released .free p := by
  apply hp .free
  · intro a
    simp [Released]
  · exact released_astray

/-- One after another, each giving the lock back. -/
theorem obeys_seq {β : Type} {p : Prog (Act Op Kind Tag) (Act.Ret Ret) α}
    {f : α → Prog (Act Op Kind Tag) (Act.Ret Ret) β} (hp : Prog.Obeys (lockRules kind allowed) Released .free p)
    (hf : ∀ a, Prog.Obeys (lockRules kind allowed) Released .free (f a)) :
    Prog.Obeys (lockRules kind allowed) Released .free (p >>= f) := by
  rw [Prog.obeys_bind]
  apply hp.mono
  intro h a hreleased
  cases h with
  | free => exact hf a
  | held => exact absurd rfl hreleased
  | astray => exact obeys_astray _ released_astray

end Discipline

/-! ## Whole runs -/

section Run
variable [DecidableEq Kind] {R : ThreadRules σ Op Kind Tag Ret α ι} {allowed : Tag → (o : Op) → Ret o → Bool} {m : σ}

namespace Threads

/-- The kind of a thread is that of what it performs. -/
def Performs (kind : Tag → Option Kind) (tag : Tag) : Tid Kind → Prop
  | .caller _ => kind tag = none
  | .forked k _ => kind tag = some k

/-- A thread in some phase of the discipline: `held` exactly when it owns the lock. -/
def InPhase (R : ThreadRules σ Op Kind Tag Ret α ι) (allowed : Tag → (o : Op) → Ret o → Bool)
    (owner : Option (Tid Kind)) (t : Tid Kind) (task : Task Tag (Act Op Kind Tag) (Act.Ret Ret) α) : Prop :=
  Performs R.kind task.tag t ∧ ∃ h : Held, h ≠ .astray ∧ (h = .held ↔ owner = some t) ∧
    Prog.Obeys (lockRules (R.kind task.tag) (allowed task.tag)) Released h task.prog

structure Disciplined (R : ThreadRules σ Op Kind Tag Ret α ι) (allowed : Tag → (o : Op) → Ret o → Bool)
    (s : Threads σ Op Kind Tag Ret α) : Prop where
  phase : ∀ t task, s.running t = some task → InPhase R allowed s.owner t task
  idle : ∀ t, s.running t = none → s.owner ≠ some t
  fresh : ∀ kind n, s.forks ≤ n → s.running (.forked kind n) = none

/-- One thread goes on, in a phase that agrees with the owner; the others are not concerned. -/
theorem disciplined_goOn {s : Threads σ Op Kind Tag Ret α} {t : Tid Kind} {tag : Tag}
    {p : Prog (Act Op Kind Tag) (Act.Ret Ret) α}
    (hphase : ∀ u task, u ≠ t → s.running u = some task → InPhase R allowed s.owner u task)
    (hidle : ∀ u, u ≠ t → s.running u = none → s.owner ≠ some u)
    (hfresh : ∀ kind n, s.forks ≤ n → s.running (.forked kind n) = none)
    (hold : ∀ kind n, t = .forked kind n → n < s.forks) (ht : InPhase R allowed s.owner t ⟨tag, p⟩) :
    Disciplined R allowed (s.goOn t tag p) where
  phase := goOn_forall hphase ht
  idle u hu := by
    rcases goOn_none hu with ⟨rfl, a, rfl⟩ | ⟨hut, hrun⟩
    · obtain ⟨-, h, -, hown, hobeys⟩ := ht
      exact fun ho => hobeys (hown.2 ho)
    · exact hidle u hut hrun
  fresh kind n hn := by
    have hne : Tid.forked kind n ≠ t := by
      intro heq
      have hlt := hold kind n heq.symm
      exact absurd hn (by simpa [goOn] using hlt)
    simpa [goOn, hne] using hfresh kind n hn

variable {s s' : Threads σ Op Kind Tag Ret α}

omit [DecidableEq Kind] in
theorem Disciplined.lt_forks (hd : Disciplined R allowed s) {t : Tid Kind}
    {task : Task Tag (Act Op Kind Tag) (Act.Ret Ret) α} (ht : s.running t = some task) (kind : Kind) (n : Nat)
    (heq : t = .forked kind n) : n < s.forks := by
  subst heq
  by_contra hn
  rw [hd.fresh kind n (by omega)] at ht
  cases ht

/-- An act that neither takes nor gives back the lock. -/
theorem Disciplined.goOn_same (hd : Disciplined R allowed s) {t : Tid Kind} {tag : Tag}
    {p p' : Prog (Act Op Kind Tag) (Act.Ret Ret) α} (ht : s.running t = some ⟨tag, p⟩)
    (hp : ∀ h : Held, h ≠ .astray → Prog.Obeys (lockRules (R.kind tag) (allowed tag)) Released h p →
      Prog.Obeys (lockRules (R.kind tag) (allowed tag)) Released h p') (m : σ) :
    Disciplined R allowed ({ s with mem := m }.goOn t tag p') := by
  obtain ⟨hperf, h, hne, hown, hobeys⟩ := hd.phase t _ ht
  refine disciplined_goOn ?_ ?_ hd.fresh (hd.lt_forks ht) ⟨hperf, h, hne, hown, hp h hne hobeys⟩
  · intro u task _ hu
    exact hd.phase u task hu
  · intro u _ hu
    exact hd.idle u hu

/-- The lock goes from nobody to `t`, or back. -/
theorem Disciplined.goOn_handover (hd : Disciplined R allowed s) {t : Tid Kind} {tag : Tag}
    {p p' : Prog (Act Op Kind Tag) (Act.Ret Ret) α} {owner : Option (Tid Kind)}
    (ht : s.running t = some ⟨tag, p⟩) (hs : ∀ u, u ≠ t → s.owner ≠ some u) (howner : ∀ u, u ≠ t → owner ≠ some u)
    (hnew : InPhase R allowed owner t ⟨tag, p'⟩) :
    Disciplined R allowed ({ s with owner := owner }.goOn t tag p') := by
  refine disciplined_goOn ?_ ?_ hd.fresh (hd.lt_forks ht) hnew
  · intro u task hut hu
    obtain ⟨hperf, h, hne, hown, hobeys⟩ := hd.phase u task hu
    exact ⟨hperf, h, hne, iff_of_false (fun hh => hs u hut (hown.1 hh)) (howner u hut), hobeys⟩
  · intro u hut _
    exact howner u hut

theorem Step.disciplined (hcode : ∀ tag, Prog.Obeys (lockRules (R.kind tag) (allowed tag)) Released .free (R.code tag))
    (h : Step R allowed s s') (hd : Disciplined R allowed s) : Disciplined R allowed s' := by
  cases h with
  | call n tag hkind hc =>
    refine disciplined_goOn ?_ ?_ hd.fresh ?_ ⟨hkind, .free, by simp, ?_, hcode tag⟩
    · intro u task _ hu
      exact hd.phase u task hu
    · intro u _ hu
      exact hd.idle u hu
    · intro kind n heq
      cases heq
    · simpa using hd.idle _ hc
  | mem t tag o k i r m ht hex hr =>
    refine hd.goOn_same ht ?_ m
    intro h hne hobeys
    have hnext := (@lockRules_mem Op Kind Tag Ret (R.kind tag) (allowed tag) h o).2 r
    rw [if_pos hr] at hnext
    have hstay := hobeys.2 r
    rwa [hnext] at hstay
  | lock t tag k ht hfree =>
    obtain ⟨hperf, h, hne, hown, hobeys⟩ := hd.phase t _ ht
    have hh : h = .free := by cases h <;> simp_all
    subst hh
    refine hd.goOn_handover ht (by simp [hfree]) ?_ ⟨hperf, .held, by simp, by simp, hobeys.2 ()⟩
    intro u hut heq
    exact hut (Option.some.inj heq).symm
  | unlock t tag k ht hmine =>
    obtain ⟨hperf, h, hne, hown, hobeys⟩ := hd.phase t _ ht
    have hh : h = .held := hown.2 hmine
    subst hh
    refine hd.goOn_handover ht ?_ (by simp) ⟨hperf, .free, by simp, by simp, hobeys.2 ()⟩
    intro u hut heq
    exact hut (Option.some.inj (hmine.symm.trans heq)).symm
  | fork t tag tag' kind k ht hkind =>
    obtain ⟨hperf, h, hne, hown, hobeys⟩ := hd.phase t _ ht
    have hstay : Prog.Obeys (lockRules (R.kind tag) (allowed tag)) Released h (k s.forks) := by
      cases h with
      | free => exact hobeys.2 s.forks
      | held => exact hobeys.2 s.forks
      | astray => exact absurd rfl hne
    have hparent : Disciplined R allowed ({ s with forks := s.forks + 1 }.goOn t tag (k s.forks)) := by
      refine disciplined_goOn ?_ ?_ ?_ ?_ ⟨hperf, h, hne, hown, hstay⟩
      · intro u task _ hu
        exact hd.phase u task hu
      · intro u _ hu
        exact hd.idle u hu
      · intro kind n hn
        exact hd.fresh kind n (by simp at hn; omega)
      · intro kind n heq
        exact Nat.lt_succ_of_lt (hd.lt_forks ht kind n heq)
    have hnobody := hd.idle _ (hd.fresh kind s.forks (Nat.le_refl _))
    refine disciplined_goOn ?_ ?_ hparent.fresh ?_ ⟨hkind, .free, by simp, ?_, hcode tag'⟩
    · intro u task _ hu
      exact hparent.phase u task hu
    · intro u _ hu
      exact hparent.idle u hu
    · intro kind' n heq
      cases heq
      simp [goOn]
    · simpa [goOn] using hnobody
  | join t tag kind n k ht hdone =>
    refine hd.goOn_same ht ?_ s.mem
    intro h hne hobeys
    cases h with
    | free => exact hobeys.2 ()
    | held => exact hobeys.2 ()
    | astray => exact absurd rfl hne

theorem Reach.disciplined
    (hcode : ∀ tag, Prog.Obeys (lockRules (R.kind tag) (allowed tag)) Released .free (R.code tag))
    (h : Reach R allowed m s) : Disciplined R allowed s := by
  induction h with
  | start => exact ⟨by simp, by simp, by simp⟩
  | next _ hstep ih => exact hstep.disciplined hcode ih

/-- **Lock rule.** If all code keeps to the discipline, no thread ever blocks itself. -/
theorem Reach.not_selfBlocked
    (hcode : ∀ tag, Prog.Obeys (lockRules (R.kind tag) (allowed tag)) Released .free (R.code tag))
    (h : Reach R allowed m s) (t : Tid Kind) : ¬ SelfBlocked s t := by
  have hd := h.disciplined hcode
  rintro (⟨tag, k, ht, hmine⟩ | ⟨tag, kind, n, k, ht, rfl⟩)
  · obtain ⟨-, h, -, hown, hobeys⟩ := hd.phase t _ ht
    have hh : h = .held := hown.2 hmine
    subst hh
    exact hobeys.1
  · obtain ⟨hperf, h, hne, -, hobeys⟩ := hd.phase _ _ ht
    cases h with
    | free => exact hobeys.1 hperf
    | held => exact hobeys.1 hperf
    | astray => exact hne rfl

/-! ## Runs that are played -/

/-- A caller begins an operation, or a thread performs its next act. -/
inductive Move (Tag Kind ι : Type)
  | call (n : Nat) (tag : Tag)
  | act (t : Tid Kind) (i : ι)

/-- The next act of thread `t`, if it does not have to wait. -/
def act? (R : ThreadRules σ Op Kind Tag Ret α ι) (allowed : Tag → (o : Op) → Ret o → Bool)
    (s : Threads σ Op Kind Tag Ret α) (t : Tid Kind) (i : ι) : Option (Threads σ Op Kind Tag Ret α) :=
  match s.running t with
  | some ⟨tag, .op (.mem o) k⟩ =>
    (R.exec i o s.mem).bind fun x => if allowed tag o x.1 then some ({ s with mem := x.2 }.goOn t tag (k x.1)) else none
  | some ⟨tag, .op .lock k⟩ => if s.owner = none then some ({ s with owner := some t }.goOn t tag (k ())) else none
  | some ⟨tag, .op .unlock k⟩ => if s.owner = some t then some ({ s with owner := none }.goOn t tag (k ())) else none
  | some ⟨tag, .op (.fork tag') k⟩ =>
    (R.kind tag').map fun kind => ({ s with forks := s.forks + 1 }.goOn t tag (k s.forks)).goOn
      (.forked kind s.forks) tag' (R.code tag')
  | some ⟨tag, .op (.join kind n) k⟩ =>
    if (s.running (.forked kind n)).isNone then some (s.goOn t tag (k ())) else none
  | _ => none

/-- What thread `t` has done. -/
inductive Acted (R : ThreadRules σ Op Kind Tag Ret α ι) (allowed : Tag → (o : Op) → Ret o → Bool)
    (s : Threads σ Op Kind Tag Ret α) (t : Tid Kind) (i : ι) : Threads σ Op Kind Tag Ret α → Prop
  | mem (tag : Tag) (o : Op) (k : Ret o → Prog (Act Op Kind Tag) (Act.Ret Ret) α) (r : Ret o) (m : σ) :
      s.running t = some ⟨tag, .op (.mem o) k⟩ → R.exec i o s.mem = some (r, m) → allowed tag o r →
      Acted R allowed s t i ({ s with mem := m }.goOn t tag (k r))
  | lock (tag : Tag) (k : Unit → Prog (Act Op Kind Tag) (Act.Ret Ret) α) :
      s.running t = some ⟨tag, .op .lock k⟩ → s.owner = none →
      Acted R allowed s t i ({ s with owner := some t }.goOn t tag (k ()))
  | unlock (tag : Tag) (k : Unit → Prog (Act Op Kind Tag) (Act.Ret Ret) α) :
      s.running t = some ⟨tag, .op .unlock k⟩ → s.owner = some t →
      Acted R allowed s t i ({ s with owner := none }.goOn t tag (k ()))
  | fork (tag tag' : Tag) (kind : Kind) (k : Nat → Prog (Act Op Kind Tag) (Act.Ret Ret) α) :
      s.running t = some ⟨tag, .op (.fork tag') k⟩ → R.kind tag' = some kind →
      Acted R allowed s t i (({ s with forks := s.forks + 1 }.goOn t tag (k s.forks)).goOn (.forked kind s.forks) tag'
        (R.code tag'))
  | join (tag : Tag) (kind : Kind) (n : Nat) (k : Unit → Prog (Act Op Kind Tag) (Act.Ret Ret) α) :
      s.running t = some ⟨tag, .op (.join kind n) k⟩ → s.running (.forked kind n) = none →
      Acted R allowed s t i (s.goOn t tag (k ()))

theorem acted_of_act? {t : Tid Kind} {i : ι} (h : act? R allowed s t i = some s') : Acted R allowed s t i s' := by
  unfold act? at h
  split at h
  · rename_i tag o k ht
    obtain ⟨⟨r, m⟩, hex, hgo⟩ := Option.bind_eq_some_iff.1 h
    simp only at hgo
    split at hgo
    · rename_i hr
      cases hgo
      exact .mem tag o k r m ht hex hr
    · cases hgo
  · rename_i tag k ht
    split at h
    · rename_i hfree
      cases h
      exact .lock tag k ht hfree
    · cases h
  · rename_i tag k ht
    split at h
    · rename_i hmine
      cases h
      exact .unlock tag k ht hmine
    · cases h
  · rename_i tag tag' k ht
    obtain ⟨kind, hkind, rfl⟩ := Option.map_eq_some_iff.1 h
    exact .fork tag tag' kind k ht hkind
  · rename_i tag kind n k ht
    split at h
    · rename_i hdone
      cases h
      exact .join tag kind n k ht (by simpa using hdone)
    · cases h
  · cases h

theorem Acted.step {t : Tid Kind} {i : ι} (h : Acted R allowed s t i s') : Step R allowed s s' := by
  cases h with
  | mem tag o k r m ht hex hr => exact .mem s t tag o k i r m ht hex hr
  | lock tag k ht hfree => exact .lock s t tag k ht hfree
  | unlock tag k ht hmine => exact .unlock s t tag k ht hmine
  | fork tag tag' kind k ht hkind => exact .fork s t tag tag' kind k ht hkind
  | join tag kind n k ht hdone => exact .join s t tag kind n k ht hdone

def play (R : ThreadRules σ Op Kind Tag Ret α ι) (allowed : Tag → (o : Op) → Ret o → Bool)
    (s : Threads σ Op Kind Tag Ret α) : Move Tag Kind ι → Option (Threads σ Op Kind Tag Ret α)
  | .call n tag =>
    if (R.kind tag).isNone && (s.running (.caller n)).isNone then some (s.goOn (.caller n) tag (R.code tag)) else none
  | .act t i => act? R allowed s t i

theorem step_of_play {move : Move Tag Kind ι} (h : play R allowed s move = some s') : Step R allowed s s' := by
  cases move with
  | call n tag =>
    simp only [play] at h
    split at h
    · rename_i hcall
      cases h
      obtain ⟨hkind, hidle⟩ : R.kind tag = none ∧ s.running (.caller n) = none := by simpa using hcall
      exact .call s n tag hkind hidle
    · cases h
  | act t i => exact (acted_of_act? h).step

def playAll (R : ThreadRules σ Op Kind Tag Ret α ι) (allowed : Tag → (o : Op) → Ret o → Bool)
    (s : Threads σ Op Kind Tag Ret α) : List (Move Tag Kind ι) → Option (Threads σ Op Kind Tag Ret α)
  | [] => some s
  | move :: moves => (play R allowed s move).bind fun s => playAll R allowed s moves

theorem reach_of_playAll : ∀ {moves : List (Move Tag Kind ι)} {s s' : Threads σ Op Kind Tag Ret α},
    Reach R allowed m s → playAll R allowed s moves = some s' → Reach R allowed m s'
  | [], s, s', h, hp => by
    cases hp
    exact h
  | move :: moves, s, s', h, hp => by
    obtain ⟨s₁, hmove, hmoves⟩ := Option.bind_eq_some_iff.1 hp
    exact reach_of_playAll (h.next (step_of_play hmove)) hmoves

/-- `SelfBlocked`, as a test. -/
def selfBlocked? (t : Tid Kind) (s : Threads σ Op Kind Tag Ret α) : Bool :=
  match s.running t with
  | some ⟨_, .op .lock _⟩ => decide (s.owner = some t)
  | some ⟨_, .op (.join kind n) _⟩ => decide (t = .forked kind n)
  | _ => false

theorem selfBlocked_of_test {t : Tid Kind} (h : selfBlocked? t s = true) : SelfBlocked s t := by
  unfold selfBlocked? at h
  split at h
  · rename_i tag k ht
    exact .inl ⟨tag, k, ht, by simpa using h⟩
  · rename_i tag kind n k ht
    exact .inr ⟨tag, kind, n, k, ht, by simpa using h⟩
  · cases h

theorem exists_selfBlocked (moves : List (Move Tag Kind ι)) {t : Tid Kind}
    (h : (playAll R allowed ⟨m, none, 0, fun _ => none⟩ moves).any (selfBlocked? t) = true) :
    ∃ s, Reach R allowed m s ∧ SelfBlocked s t := by
  obtain ⟨s, hplay, htest⟩ := (Option.any_eq_true _ _).1 h
  exact ⟨s, reach_of_playAll .start hplay, selfBlocked_of_test htest⟩

end Threads

end Run

end Threads

end RedisOps.Lib
