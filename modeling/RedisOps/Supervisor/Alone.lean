import RedisOps.Supervisor.Process

/-!
# The supervisor, one operation at a time

`alone` runs an operation by itself. `alone_spawnProcess` and `alone_handleExit` say what is left of an entry and which
events are emitted. A restart on the monitor thread that is in the entry ends at its `join`: `std::thread::join` throws there,
nobody catches it, and the process is over.
-/

namespace RedisOps.Supervisor

open Lib

section Shared
variable (s : Shared) (name : String) (entry entry' : ProcessEntry) (events events' : List ProcessEvent)

@[simp] theorem entry_put : (s.put name entry).entry name = some entry := AList.lookup_insert _

theorem entry_put_of_ne {other : String} (h : other ≠ name) : (s.put name entry).entry other = s.entry other :=
  AList.lookup_insert_ne h

@[simp] theorem put_put : (s.put name entry).put name entry' = s.put name entry' := by
  simp only [Shared.put, AList.insert_insert]

@[simp] theorem entry_log : (s.log events).entry name = s.entry name := rfl

@[simp] theorem put_log : (s.log events).put name entry = (s.put name entry).log events := rfl

@[simp] theorem log_log : (s.log events).log events' = s.log (events ++ events') := by
  simp [Shared.log]

@[simp] theorem log_nil : s.log [] = s := by
  simp [Shared.log]

end Shared

/-- One operation by itself. -/
def alone {α : Type} (env : Env) (p : Code α) (s : Shared) : Option α × Shared := Prog.run (Act.alone (exec env)) p s

/-- The entry once `spawn_process` is through, or at the thread that is to be joined. -/
def spawned (env : Env) (entry : ProcessEntry) : ProcessEntry :=
  match env.forked with
  | .error err =>
    { entry with state := { entry.state with status := .failed, restartCount := 0, lastError := err } }
  | .ok pid =>
    { entry with
      state := { entry.state with status := .running, restartCount := 0, pid := pid, startTime := env.clock }
      running := true
      monitorThread := entry.monitorThread.or (some 0) }

def spawnEvents (env : Env) (name : String) (monitorThread : Option Nat) : List ProcessEvent :=
  match env.forked, monitorThread with
  | .ok pid, none => [{ type := .started, processName := name, pid := pid, exitCode := 0 }]
  | _, _ => []

variable {env : Env} {s : Shared} {name : String} {entry : ProcessEntry}

theorem alone_spawnProcess (h : s.entry name = some entry) (rounds : Nat) :
    ∃ b, alone env (spawnProcess name rounds) s =
      (b, (s.put name (spawned env entry)).log (spawnEvents env name entry.monitorThread)) := by
  unfold alone spawned spawnEvents
  cases hf : env.forked with
  | error err =>
    refine ⟨some false, ?_⟩
    simp [spawnProcess, mem, setState, Prog.run, Act.alone, exec, h, hf]
  | ok pid =>
    cases hm : entry.monitorThread with
    | none =>
      refine ⟨some true, ?_⟩
      simp [spawnProcess, mem, setState, joinMonitor, startThread, emitEvent, Prog.run, Act.alone, exec, h, hf, hm]
    | some n =>
      refine ⟨none, ?_⟩
      simp [spawnProcess, mem, setState, joinMonitor, joinThread, startThread, emitEvent, Prog.run, Act.alone, exec,
        h, hf, hm]

/-- The entry of a process that is no longer there. -/
def down (entry : ProcessEntry) (exitCode : Nat) : ProcessEntry :=
  { entry with running := false, state := { entry.state with status := .stopped, exitCode := exitCode } }

/-- The entry with one more restart on its count. -/
def restarting (entry : ProcessEntry) : ProcessEntry :=
  { entry with state :=
      { entry.state with status := .restarting, restartCount := entry.state.restartCount + 1 } }

def exceeded (entry : ProcessEntry) : ProcessEntry :=
  { entry with state :=
      { entry.state with status := .failed, lastError := exceededMessage entry.config.maxRestarts } }

/-- Is the process to be started again? -/
def restartDue (entry : ProcessEntry) (exitCode : Nat) : Prop :=
  exitCode ≠ 0 ∧ entry.config.restartPolicy ≠ .never ∧ entry.state.restartCount < entry.config.maxRestarts.toNat

instance (entry : ProcessEntry) (exitCode : Nat) : Decidable (restartDue entry exitCode) :=
  inferInstanceAs (Decidable (_ ∧ _ ∧ _))

/-- The entry once `handle_exit` is through. -/
def afterExit (env : Env) (entry : ProcessEntry) (exitCode : Nat) : ProcessEntry :=
  if restartDue entry exitCode then spawned env (restarting (down entry exitCode))
  else if exitCode = 0 ∨ entry.config.restartPolicy = .never then down entry exitCode
  else exceeded (down entry exitCode)

def exitEvents (env : Env) (name : String) (entry : ProcessEntry) (exitCode : Nat) : List ProcessEvent :=
  { type := if exitCode = 0 then .stopped else .crashed, processName := name, pid := entry.state.pid,
    exitCode := exitCode } ::
    if restartDue entry exitCode then
      { type := .restarted, processName := name, pid := -1, exitCode := 0,
        message := restartMessage (entry.state.restartCount + 1) } :: spawnEvents env name entry.monitorThread
    else []

theorem alone_attemptRestart (h : s.entry name = some entry) (rounds : Nat) :
    (alone env (attemptRestart name rounds) s).2 =
      (s.put name (spawned env (restarting entry))).log
        ({ type := .restarted, processName := name, pid := -1, exitCode := 0,
           message := restartMessage (entry.state.restartCount + 1) } :: spawnEvents env name entry.monitorThread) := by
  obtain ⟨b, hspawn⟩ := @alone_spawnProcess env ((s.put name (restarting entry)).log
    [{ type := .restarted, processName := name, pid := -1, exitCode := 0,
       message := restartMessage (entry.state.restartCount + 1) }]) name (restarting entry)
    (by simp) rounds
  unfold alone at hspawn
  simp only [restarting, put_log, put_put, log_log, List.cons_append, List.nil_append] at hspawn
  cases b with
  | none =>
    simp [alone, attemptRestart, mem, setState, emitEvent, Prog.run, Act.alone, exec, h, Prog.run_bind, hspawn, restarting,
      spawnEvents]
  | some b =>
    simp [alone, attemptRestart, mem, setState, emitEvent, Prog.run, Act.alone, exec, h, Prog.run_bind, hspawn, restarting,
      spawnEvents]

theorem alone_giveUp (h : s.entry name = some entry) :
    (alone env (giveUp name) s).2 = s.put name (exceeded entry) := by
  simp [alone, giveUp, mem, setState, Prog.run, Act.alone, exec, h, exceeded]

theorem alone_belowMax {α : Type} (h : s.entry name = some entry) (p q : Code α) :
    (alone env (do
      let due : Bool ← mem (.belowMax name)
      if due then p else q) s).2 =
      if entry.state.restartCount < entry.config.maxRestarts.toNat then (alone env p s).2 else (alone env q s).2 := by
  by_cases hmax : entry.state.restartCount < entry.config.maxRestarts.toNat
  · simp [alone, mem, Prog.run, Act.alone, exec, h, hmax]
  · simp [alone, mem, Prog.run, Act.alone, exec, h, hmax]

theorem alone_handleExit (h : s.entry name = some entry) (status rounds : Nat) :
    (alone env (handleExit name status rounds) s).2 =
      (s.put name (afterExit env entry (WEXITSTATUS status))).log
        (exitEvents env name entry (WEXITSTATUS status)) := by
  generalize hcode : WEXITSTATUS status = code
  have hdown : ((s.put name (down entry code)).log
      [{ type := if code = 0 then .stopped else .crashed, processName := name, pid := entry.state.pid,
         exitCode := code }]).entry name = some (down entry code) := by simp
  have hhead : alone env (handleExit name status rounds) s =
      alone env (if code = 0 then pure () else if entry.config.restartPolicy = .never then pure () else do
        let due : Bool ← mem (.belowMax name)
        if due then attemptRestart name rounds else giveUp name)
        ((s.put name (down entry code)).log
          [{ type := if code = 0 then .stopped else .crashed, processName := name, pid := entry.state.pid,
             exitCode := code }]) := by
    simp [alone, handleExit, mem, setState, emitEvent, Prog.run, Act.alone, exec, h, hcode, down]
  rw [hhead]
  unfold afterExit exitEvents restartDue
  by_cases hzero : code = 0
  · simp [alone, hzero]
  · by_cases hnever : entry.config.restartPolicy = .never
    · simp [alone, hzero, hnever]
    · rw [if_neg hzero, if_neg hnever, alone_belowMax hdown, alone_attemptRestart hdown, alone_giveUp hdown]
      by_cases hmax : entry.state.restartCount < entry.config.maxRestarts.toNat
      · simp [hzero, hnever, hmax, down]
      · simp [hzero, hnever, hmax, down]

theorem alone_monitorProcess (h : s.entry name = some entry) (hrun : entry.running = true) {status : Nat}
    (hw : env.waited = some status) (rounds : Nat) :
    alone env (monitorProcess name (rounds + 1)) s = alone env (handleExit name status rounds) s := by
  simp [alone, monitorProcess, mem, Prog.run, Act.alone, exec, h, hrun, hw]

theorem alone_reap (h : s.entry name = some entry) (hrun : entry.state.status = .running) (hpid : 0 < entry.state.pid)
    {status : Nat} (hw : env.waited = some status) (rounds : Nat) :
    alone env (reap rounds name) s = alone env (handleExit name (WEXITSTATUS status) rounds) s := by
  simp [alone, reap, mem, Prog.run, Act.alone, exec, h, hrun, not_le.2 hpid, hw]

/-- A process with the number 7 that is up. -/
def worker : ProcessEntry where
  config := { name := "w", maxRestarts := 1 }
  state := { status := .running, pid := 7 }
  running := true

end RedisOps.Supervisor
