import RedisOps.Supervisor.Process

/-!
# Who waits for whom

`processes_mutex_` is not recursive, and `spawn_process` joins the monitor thread of the process before it starts another.
Two call chains come back to their own thread:

* `remove_process` of a running process calls `stop`, which takes the lock that `remove_process` holds
  (`process_supervisor.cpp:38`, `:43`, `:220`);
* `handle_exit` on a monitor thread calls `spawn_process` for a restart, which joins that very thread (`:207`, `:120`).

`allowed` excludes the two answers that lead there. In the runs that remain no thread waits for itself
(`supervisor_not_selfBlocked`), whatever the callers, the monitors and the watchdog do in between.
-/

namespace RedisOps.Supervisor

open Lib

/-- `remove_process` does not find its process running, and `spawn_process` on a monitor thread does not find
    `monitor_thread` joinable. -/
def allowed : Tag → (o : Op) → o.Ret → Bool
  | .removeProcess _ _, .get _, entry => entry.state.status != .running
  | .monitorProcess _ _, .monitorThread _, thread => thread.isNone
  | _, _, _ => true

/-! ## What keeps the lock as it is -/

section Keeps
variable {kind : Option Kind} {ok : (o : Op) → o.Ret → Bool} {α : Type}

theorem keeps_mem_bind {o : Op} {k : o.Ret → Code α} (hk : ∀ r, ok o r = true → Keeps kind ok (k r)) :
    Keeps kind ok (mem o >>= k) := keeps_mem hk

theorem keeps_do {o : Op} : Keeps kind ok (mem o) := by
  apply keeps_mem
  intro r _
  exact keeps_ret r

/-- A thread that is not a monitor, or never finds a monitor to join. -/
def JoinsNoMonitor (kind : Option Kind) (ok : (o : Op) → o.Ret → Bool) : Prop :=
  kind ≠ some .monitor ∨ ∀ name n, ok (.monitorThread name) (some n) = false

theorem keeps_joinMonitor (hjoin : JoinsNoMonitor kind ok) (name : String) : Keeps kind ok (joinMonitor name) := by
  apply keeps_mem_bind
  intro thread hthread
  cases thread with
  | none => exact keeps_ret ()
  | some n =>
    rcases hjoin with hkind | hnone
    · exact keeps_join hkind keeps_do
    · rw [hnone] at hthread
      cases hthread

theorem keeps_spawnProcess (hjoin : JoinsNoMonitor kind ok) (name : String) (rounds : Nat) :
    Keeps kind ok (spawnProcess name rounds) := by
  iterate 2
    apply keeps_mem_bind
    intro _ _
  apply keeps_mem_bind
  intro forked _
  cases forked with
  | error err =>
    iterate 2
      apply keeps_mem_bind
      intro _ _
    exact keeps_ret false
  | ok pid =>
    iterate 5
      apply keeps_mem_bind
      intro _ _
    apply (keeps_joinMonitor hjoin name).bind
    intro _
    apply keeps_fork
    intro n
    iterate 2
      apply keeps_mem_bind
      intro _ _
    exact keeps_ret true

theorem keeps_attemptRestart (hjoin : JoinsNoMonitor kind ok) (name : String) (rounds : Nat) :
    Keeps kind ok (attemptRestart name rounds) := by
  iterate 4
    apply keeps_mem_bind
    intro _ _
  apply (keeps_spawnProcess hjoin name rounds).bind
  intro _
  exact keeps_ret ()

theorem keeps_giveUp (name : String) : Keeps kind ok (giveUp name) := by
  iterate 2
    apply keeps_mem_bind
    intro _ _
  exact keeps_do

theorem keeps_handleExit (hjoin : JoinsNoMonitor kind ok) (name : String) (status rounds : Nat) :
    Keeps kind ok (handleExit name status rounds) := by
  iterate 6
    apply keeps_mem_bind
    intro _ _
  split
  · exact keeps_ret ()
  · split
    · exact keeps_ret ()
    · apply keeps_mem_bind
      intro due _
      split
      · exact keeps_attemptRestart hjoin name rounds
      · exact keeps_giveUp name

theorem keeps_monitorProcess (hjoin : JoinsNoMonitor kind ok) (name : String) (rounds : Nat) :
    Keeps kind ok (monitorProcess name rounds) := by
  induction rounds with
  | zero => exact keeps_fail
  | succ rounds ih =>
    apply keeps_mem_bind
    intro entry _
    split
    · exact keeps_ret ()
    · apply keeps_mem_bind
      intro entry _
      apply keeps_mem_bind
      intro waited _
      cases waited with
      | some status => exact keeps_handleExit hjoin name status rounds
      | none =>
        iterate 2
          apply keeps_mem_bind
          intro _ _
        split
        · exact keeps_do
        · exact ih

theorem keeps_awaitStopped (name : String) (timeoutMs : UInt32) (begun : UInt64) (rounds : Nat) :
    Keeps kind ok (awaitStopped name timeoutMs begun rounds) := by
  induction rounds with
  | zero => exact keeps_fail
  | succ rounds ih =>
    apply keeps_mem_bind
    intro entry _
    split
    · exact keeps_ret ()
    · apply keeps_mem_bind
      intro clock _
      split
      · exact keeps_do
      · exact ih

theorem keeps_forEach {body : String → Code Unit} (hbody : ∀ name, Keeps kind ok (body name)) :
    ∀ names, Keeps kind ok (forEach body names)
  | [] => keeps_ret ()
  | name :: names => (hbody name).bind fun _ => keeps_forEach hbody names

theorem keeps_terminate (name : String) : Keeps kind ok (terminate name) := by
  apply keeps_mem_bind
  intro entry _
  split
  · exact keeps_ret ()
  · apply keeps_mem_bind
    intro _ _
    exact keeps_do

theorem keeps_reap (hjoin : JoinsNoMonitor kind ok) (rounds : Nat) (name : String) : Keeps kind ok (reap rounds name) := by
  apply keeps_mem_bind
  intro entry _
  split
  · exact keeps_ret ()
  · apply keeps_mem_bind
    intro waited _
    cases waited with
    | none => exact keeps_ret ()
    | some status => exact keeps_handleExit hjoin name (WEXITSTATUS status) rounds

end Keeps

/-! ## The operations give the lock back -/

section Obeys
variable {kind : Option Kind} {ok : (o : Op) → o.Ret → Bool} {α : Type}

theorem obeys_void {p : Code α} (hp : Prog.Obeys (lockRules kind ok) Released .free p) :
    Prog.Obeys (lockRules kind ok) Released .free ((fun _ => ()) <$> p) := by
  rw [Prog.map_eq_bind, Prog.obeys_bind]
  exact hp.mono fun _ _ h => h

theorem obeys_addProcess (config : ProcessConfig) :
    Prog.Obeys (lockRules kind ok) Released .free (addProcess config) := by
  apply Keeps.locked
  apply keeps_mem_bind
  intro found _
  split
  · exact keeps_ret false
  · apply keeps_mem_bind
    intro _ _
    exact keeps_ret true

/-- `remove_process`, if it does not find the process running. -/
theorem obeys_removeProcess (name : String) (rounds : Nat) :
    Prog.Obeys (lockRules kind (allowed (.removeProcess name rounds))) Released .free (removeProcess name rounds) := by
  apply Keeps.locked
  apply keeps_mem_bind
  intro found _
  split
  · exact keeps_ret false
  · apply keeps_mem_bind
    intro entry hentry
    have hdown : entry.state.status ≠ .running := by simpa [allowed] using hentry
    rw [if_neg hdown]
    apply keeps_mem_bind
    intro _ _
    exact keeps_ret true

theorem obeys_start (hjoin : JoinsNoMonitor kind ok) (name : String) (rounds : Nat) :
    Prog.Obeys (lockRules kind ok) Released .free (start name rounds) := by
  apply Keeps.locked
  apply keeps_mem_bind
  intro found _
  split
  · exact keeps_ret false
  · apply keeps_mem_bind
    intro entry _
    split
    · exact keeps_ret false
    · exact keeps_spawnProcess hjoin name rounds

theorem obeys_stop (name : String) (timeoutMs : UInt32) (rounds : Nat) :
    Prog.Obeys (lockRules kind ok) Released .free (stop name timeoutMs rounds) := by
  apply Keeps.locked
  apply keeps_mem_bind
  intro found _
  split
  · exact keeps_ret false
  · apply keeps_mem_bind
    intro entry _
    split
    · exact keeps_ret false
    · iterate 4
        apply keeps_mem_bind
        intro _ _
      apply (keeps_awaitStopped name timeoutMs _ rounds).bind
      intro _
      apply keeps_mem_bind
      intro _ _
      exact keeps_ret true

/-- Between the two halves of `restart` the lock is free. -/
theorem obeys_restart (hjoin : JoinsNoMonitor kind ok) (name : String) (rounds : Nat) :
    Prog.Obeys (lockRules kind ok) Released .free (restart name rounds) :=
  obeys_seq (obeys_stop name stopTimeout rounds) fun _ => obeys_start hjoin name rounds

theorem obeys_stopAll : Prog.Obeys (lockRules kind ok) Released .free stopAll := by
  apply Keeps.locked
  apply keeps_mem_bind
  intro names _
  apply (keeps_forEach keeps_terminate names).bind
  intro _
  exact keeps_ret true

theorem obeys_watchdog (hjoin : JoinsNoMonitor kind ok) (rounds : Nat) :
    Prog.Obeys (lockRules kind ok) Released .free (watchdog rounds) := by
  induction rounds with
  | zero => trivial
  | succ rounds ih =>
    apply obeys_mem released_astray
    intro running _
    rw [Prog.ret_bind']
    split
    · simp [Released]
    · apply obeys_seq
      · apply Keeps.locked
        apply keeps_mem_bind
        intro names _
        exact keeps_forEach (keeps_reap hjoin rounds) names
      · exact fun _ => ih

theorem obeys_startWatchdog (rounds : Nat) : Prog.Obeys (lockRules kind ok) Released .free (startWatchdog rounds) := by
  apply Keeps.released
  apply keeps_mem_bind
  intro running _
  split
  · exact keeps_ret false
  · apply keeps_mem_bind
    intro _ _
    apply keeps_fork
    intro n
    apply keeps_mem_bind
    intro _ _
    exact keeps_ret true

theorem obeys_stopWatchdog (hkind : kind ≠ some .watchdog) :
    Prog.Obeys (lockRules kind ok) Released .free stopWatchdog := by
  apply Keeps.released
  apply keeps_mem_bind
  intro _ _
  apply keeps_mem_bind
  intro thread _
  cases thread with
  | none => exact keeps_ret true
  | some n =>
    apply keeps_join hkind
    apply keeps_mem_bind
    intro _ _
    exact keeps_ret true

end Obeys

theorem obeys_code (tag : Tag) : Prog.Obeys (lockRules (rules.kind tag) (allowed tag)) Released .free (rules.code tag) := by
  have hcaller : ∀ {ok : (o : Op) → o.Ret → Bool}, JoinsNoMonitor none ok := .inl (by simp)
  cases tag with
  | addProcess config => exact obeys_void (obeys_addProcess config)
  | removeProcess name rounds => exact obeys_void (obeys_removeProcess name rounds)
  | start name rounds => exact obeys_void (obeys_start hcaller name rounds)
  | stop name timeoutMs rounds => exact obeys_void (obeys_stop name timeoutMs rounds)
  | restart name rounds => exact obeys_void (obeys_restart hcaller name rounds)
  | stopAll => exact obeys_void obeys_stopAll
  | startWatchdog rounds => exact obeys_void (obeys_startWatchdog rounds)
  | stopWatchdog => exact obeys_void (obeys_stopWatchdog (by simp [rules, Tag.kind]))
  | monitorProcess name rounds => exact (keeps_monitorProcess (.inr fun _ _ => rfl) name rounds).released
  | watchdog rounds => exact obeys_watchdog (.inl (by simp [rules, Tag.kind])) rounds

/-- **No thread waits for itself**, in every run in which `remove_process` never finds its process running and
    `spawn_process` on a monitor thread never finds a thread to join. -/
theorem supervisor_not_selfBlocked {s : Threads Shared Op Kind Tag Op.Ret Unit}
    (h : Threads.Reach rules allowed .empty s) (t : Tid Kind) : ¬ Threads.SelfBlocked s t :=
  h.not_selfBlocked obeys_code t

/-! ## The two ways into a self-wait -/

/-- Every answer of memory. -/
def anything : Tag → (o : Op) → o.Ret → Bool := fun _ _ _ => true

/-- Thread `t` performs its next `n` acts. -/
def go (n : Nat) (t : Tid Kind) (env : Env) : List (Threads.Move Tag Kind Env) := List.replicate n (.act t env)

/-- `add_process` and `start`, by caller 0. -/
def launch : List (Threads.Move Tag Kind Env) :=
  .call 0 (.addProcess { name := "w" }) :: go 4 (.caller 0) {} ++ .call 0 (.start "w" 2) :: go 16 (.caller 0) {}

/-- A process exits with code 0, its monitor handles that, and `remove_process` finds it stopped. -/
theorem supervisor_not_selfBlocked_stopped :
    ∃ s, Threads.Reach rules allowed .empty s ∧ ¬ Threads.SelfBlocked s (.caller 0) := by
  obtain ⟨s, hs⟩ := Option.isSome_iff_exists.1 (show (Threads.playAll rules allowed ⟨.empty, none, 0, fun _ => none⟩
    (launch ++ go 9 (.forked .monitor 0) { waited := some 0 } ++
      .call 0 (.removeProcess "w" 0) :: go 3 (.caller 0) {})).isSome from rfl)
  have h := Threads.reach_of_playAll .start hs
  exact ⟨s, h, supervisor_not_selfBlocked h (.caller 0)⟩

/-- `remove_process` of a process that runs is about to take the lock it holds; the monitor of a process that has failed
    is about to join itself. -/
theorem supervisor_selfBlocked :
    (∃ s, Threads.Reach rules anything .empty s ∧ Threads.SelfBlocked s (.caller 0)) ∧
      ∃ s, Threads.Reach rules anything .empty s ∧ Threads.SelfBlocked s (.forked .monitor 0) := by
  constructor
  · apply Threads.exists_selfBlocked (launch ++ .call 0 (.removeProcess "w" 0) :: go 3 (.caller 0) {})
    rfl
  · apply Threads.exists_selfBlocked (launch ++ go 23 (.forked .monitor 0) { waited := some 256 })
    rfl

end RedisOps.Supervisor
