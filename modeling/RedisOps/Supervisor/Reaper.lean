import RedisOps.Supervisor.Alone

/-!
# One exit, either reaper

A process that has ended is found by its monitor thread or by the watchdog, whoever calls `waitpid` first. Both hand the
status to `handle_exit`, which decodes it with `WEXITSTATUS`; the watchdog has already decoded it once
(`process_supervisor.cpp:336`), and neither looks at the signal. `Sandbox::run` does (`sandbox.cpp:176-182`).

`reapers_agree_iff`: they treat a process alike only if it exited with code 0.
-/

namespace RedisOps.Supervisor

open Lib

variable {env : Env} {s : Shared} {name : String} {entry : ProcessEntry}

/-- How a process ended. -/
inductive WaitStatus
  | exited (code : UInt8)
  | signaled (signal : Nat) (h : 0 < signal ∧ signal < 127) (core : Bool)

/-- The status word of POSIX: the exit code in the second byte, or the signal in the first with the core flag. -/
def WaitStatus.word : WaitStatus → Nat
  | .exited code => code.toNat * 256
  | .signaled signal _ core => signal + if core then 128 else 0

def WTERMSIG (status : Nat) : Nat := status % 128
def WIFEXITED (status : Nat) : Bool := WTERMSIG status == 0
def WIFSIGNALED (status : Nat) : Bool := 0 < WTERMSIG status && WTERMSIG status < 127

/-- The exit code `Sandbox::run` makes of a status (`sandbox.cpp:176-182`). -/
def sandboxExitCode (status : Nat) : Int :=
  if WIFEXITED status then WEXITSTATUS status
  else if WIFSIGNALED status then 128 + WTERMSIG status
  else -1

/-- Was it a failure? -/
def WaitStatus.Failed : WaitStatus → Prop
  | .exited code => code ≠ 0
  | .signaled _ _ _ => True

/-- `Sandbox::run` reports a failure exactly for a failure, and `128 + s` for a signal. -/
theorem sandboxExitCode_word (st : WaitStatus) : (sandboxExitCode st.word ≠ 0 ↔ st.Failed) ∧
    ∀ signal h core, st = .signaled signal h core → sandboxExitCode st.word = 128 + signal := by
  cases st with
  | exited code =>
    have hlt := code.toNat_lt
    have hlow : code.toNat * 256 % 128 = 0 := by omega
    have hzero : code.toNat = 0 ↔ code = 0 := by rw [← UInt8.toNat_inj]; rfl
    simp [sandboxExitCode, WaitStatus.word, WaitStatus.Failed, WIFEXITED, WTERMSIG, WEXITSTATUS, hlow,
      hzero]
  | signaled signal h core =>
    obtain ⟨hpos, hlt⟩ := h
    have hlow : (signal + if core then 128 else 0) % 128 = signal := by
      split <;> omega
    simp [sandboxExitCode, WaitStatus.word, WaitStatus.Failed, WIFEXITED, WIFSIGNALED, WTERMSIG, hlow, hpos, hlt,
      hpos.ne']
    omega

theorem WEXITSTATUS_exited (code : UInt8) : WEXITSTATUS (WaitStatus.exited code).word = code.toNat := by
  have := code.toNat_lt
  simp only [WEXITSTATUS, WaitStatus.word]
  omega

/-- Decoding twice leaves nothing. -/
theorem WEXITSTATUS_WEXITSTATUS (status : Nat) : WEXITSTATUS (WEXITSTATUS status) = 0 := by
  simp only [WEXITSTATUS]
  omega

/-- What shows of an exit: the recorded exit code, the type of the event, and whether there is a restart. -/
structure Reaction where
  exitCode : Option Nat
  event : Option EventType
  restarted : Bool
  deriving DecidableEq

def reaction (name : String) (s : Shared) : Reaction where
  exitCode := (s.entry name).map (·.state.exitCode)
  event := s.events.head?.map (·.type)
  restarted := s.events.any (·.type == .restarted)

/-- The monitor thread of a process finds it gone. -/
def reapedByMonitor (env : Env) (name : String) (st : WaitStatus) (s : Shared) : Reaction :=
  reaction name (alone { env with waited := some st.word } (monitorProcess name 1) { s with events := [] }).2

/-- The watchdog does. -/
def reapedByWatchdog (env : Env) (name : String) (st : WaitStatus) (s : Shared) : Reaction :=
  reaction name (alone { env with waited := some st.word } (reap 0 name) { s with events := [] }).2

/-- The process is up, for either reaper. -/
structure Up (entry : ProcessEntry) : Prop where
  running : entry.running = true
  status : entry.state.status = .running
  pid : 0 < entry.state.pid

theorem spawned_exitCode (env : Env) (entry : ProcessEntry) :
    (spawned env entry).state.exitCode = entry.state.exitCode := by
  unfold spawned
  split <;> rfl

theorem afterExit_exitCode (env : Env) (entry : ProcessEntry) (code : Nat) :
    (afterExit env entry code).state.exitCode = code := by
  unfold afterExit
  split
  · exact spawned_exitCode env _
  · split <;> rfl

/-- The reaction to an exit is decided by the code `handle_exit` comes to. -/
theorem reaction_handleExit (h : s.entry name = some entry) (status rounds : Nat) :
    reaction name (alone env (handleExit name status rounds) { s with events := [] }).2 =
      ⟨some (WEXITSTATUS status), some (if WEXITSTATUS status = 0 then .stopped else .crashed),
        decide (restartDue entry (WEXITSTATUS status))⟩ := by
  have h' : Shared.entry { s with events := [] } name = some entry := h
  rw [alone_handleExit h']
  generalize WEXITSTATUS status = code
  have hrestart : (exitEvents env name entry code).any (·.type == .restarted) = decide (restartDue entry code) := by
    by_cases hdue : restartDue entry code
    · simp [exitEvents, hdue]
    · have htype : (if code = 0 then EventType.stopped else .crashed) ≠ .restarted := by split <;> simp
      simp [exitEvents, hdue, htype]
  have hevent : (exitEvents env name entry code).head?.map (·.type) =
      some (if code = 0 then .stopped else .crashed) := by
    simp [exitEvents]
  have hevents : ((Shared.put { s with events := [] } name (afterExit env entry code)).log
      (exitEvents env name entry code)).events = exitEvents env name entry code := by
    simp [Shared.log, Shared.put]
  simp only [reaction, entry_log, entry_put, hevents, hrestart, hevent, Option.map_some, afterExit_exitCode]

theorem reapedByMonitor_eq (h : s.entry name = some entry) (hup : Up entry) (env : Env) (st : WaitStatus) :
    reapedByMonitor env name st s =
      ⟨some (WEXITSTATUS st.word), some (if WEXITSTATUS st.word = 0 then .stopped else .crashed),
        decide (restartDue entry (WEXITSTATUS st.word))⟩ := by
  have h' : Shared.entry { s with events := [] } name = some entry := h
  unfold reapedByMonitor
  rw [alone_monitorProcess h' hup.running rfl, reaction_handleExit h]

theorem reapedByWatchdog_eq (h : s.entry name = some entry) (hup : Up entry) (env : Env) (st : WaitStatus) :
    reapedByWatchdog env name st s = ⟨some 0, some .stopped, false⟩ := by
  have h' : Shared.entry { s with events := [] } name = some entry := h
  unfold reapedByWatchdog
  rw [alone_reap h' hup.status hup.pid rfl, reaction_handleExit h, WEXITSTATUS_WEXITSTATUS]
  simp [restartDue]

/-- The exit is handled alike by both, and a death by signal counts as a crash. -/
def ReaperIndependent (env : Env) (name : String) (st : WaitStatus) (s : Shared) : Prop :=
  reapedByMonitor env name st s = reapedByWatchdog env name st s ∧
    ∀ signal h core, st = .signaled signal h core → (reapedByMonitor env name st s).event = some .crashed ∧
      (reapedByWatchdog env name st s).event = some .crashed

/-- **Reapers.** Which of the two reaps a process makes no difference, and signals are crashes, for exactly one way to
    end: exit code 0. -/
theorem reapers_agree_iff (env : Env) (s : Shared) (name : String) (entry : ProcessEntry) (st : WaitStatus)
    (h : s.entry name = some entry) (hup : Up entry) : ReaperIndependent env name st s ↔ st = .exited 0 := by
  unfold ReaperIndependent
  rw [reapedByMonitor_eq h hup, reapedByWatchdog_eq h hup]
  cases st with
  | exited code =>
    rw [WEXITSTATUS_exited]
    constructor
    · rintro ⟨hsame, -⟩
      have hcode : code.toNat = 0 := by simpa using congrArg Reaction.exitCode hsame
      rw [UInt8.toNat_inj.1 (show code.toNat = (0 : UInt8).toNat from hcode)]
    · intro hcode
      cases hcode
      simp [restartDue]
  | signaled signal hs core =>
    refine iff_of_false ?_ (by simp)
    rintro ⟨-, hcrash⟩
    simpa using (hcrash signal hs core rfl).2

theorem entry_worker : (Shared.empty.put "w" worker).entry "w" = some worker := entry_put _ _ _

theorem up_worker : Up worker := ⟨rfl, rfl, by decide⟩

theorem reapers_agree_exit_zero : (Shared.empty.put "w" worker).entry "w" = some worker ∧ Up worker ∧
    (ReaperIndependent {} "w" (.exited 0) (Shared.empty.put "w" worker) ↔ WaitStatus.exited 0 = .exited 0) :=
  ⟨entry_worker, up_worker, reapers_agree_iff {} _ "w" worker (.exited 0) entry_worker up_worker⟩

/-- Exit code 1: a crash that is restarted for the monitor, a clean exit for the watchdog. A death by `SIGKILL` is a clean
    exit for both. -/
theorem reapers_disagree :
    reapedByMonitor {} "w" (.exited 1) (Shared.empty.put "w" worker) = ⟨some 1, some .crashed, true⟩ ∧
      reapedByWatchdog {} "w" (.exited 1) (Shared.empty.put "w" worker) = ⟨some 0, some .stopped, false⟩ ∧
      reapedByMonitor {} "w" (.signaled SIGKILL (by decide) false) (Shared.empty.put "w" worker) =
        ⟨some 0, some .stopped, false⟩ ∧
      ¬ ∀ st, ReaperIndependent {} "w" st (Shared.empty.put "w" worker) := by
  have hmonitor : reapedByMonitor {} "w" (.exited 1) (Shared.empty.put "w" worker) = ⟨some 1, some .crashed, true⟩ := by
    rw [reapedByMonitor_eq entry_worker up_worker]
    simp [WEXITSTATUS, WaitStatus.word, restartDue, worker]
  have hkilled : reapedByMonitor {} "w" (.signaled SIGKILL (by decide) false) (Shared.empty.put "w" worker) =
      ⟨some 0, some .stopped, false⟩ := by
    rw [reapedByMonitor_eq entry_worker up_worker]
    decide
  have hwatchdog := reapedByWatchdog_eq entry_worker up_worker {} (.exited 1)
  refine ⟨hmonitor, hwatchdog, hkilled, ?_⟩
  intro h
  have hsame := (h (.exited 1)).1
  rw [hmonitor, hwatchdog] at hsame
  cases hsame

end RedisOps.Supervisor
