import Mathlib.Data.List.AList
import RedisOps.Lib.Threads

/-!
# The process supervisor

| here | there |
| --- | --- |
| `ProcessConfig`, `ProcessState`, `ProcessEvent`, `ProcessEntry` | `sandbox/include/devops/process_supervisor.hpp:16-60`, `:108-114` |
| `Op`, `exec` | one access to `processes_`, to a field of an entry or to `watchdog_thread_`, or one system call |
| `spawnProcess`, `monitorProcess`, `handleExit` | `sandbox/src/process_supervisor.cpp:63-217` |
| `addProcess` … `stopWatchdog` | the public operations (`:22-61`, `:219-264`, `:324-350`) |

The operations are programs over `Act`: fields are read and written one access at a time, `processes_mutex_` is the
lock, and `std::thread` is `fork` and `join`. What the system answers (`fork`, `waitpid`, the clock) is given by an
`Env`. A use of an entry that is not there, and the ends of the program by `std::terminate` (a joinable `std::thread`
destroyed or assigned to), have no answer.

A loop takes `rounds` rounds at most and is then left where it is (`fail`): every finite run of the source is a run
here with enough rounds. Left out: sleeping, printing, what the child does before `execvp`, and the fields that no
operation here reads (`cpu_time_ms`, `memory_bytes`, `logs`, the timestamps of events).
-/

namespace RedisOps.Supervisor

open Lib

inductive RestartPolicy | never | onFailure | always
  deriving DecidableEq, Repr

structure ProcessConfig where
  name : String
  restartPolicy : RestartPolicy := .onFailure
  maxRestarts : UInt32 := 3
  timeoutSeconds : UInt32 := 300

inductive Status | stopped | starting | running | restarting | failed
  deriving DecidableEq, Repr

structure ProcessState where
  status : Status := .stopped
  pid : Int := -1
  exitCode : Nat := 0
  startTime : UInt64 := 0
  restartCount : Nat := 0
  lastError : String := ""

inductive EventType | started | stopped | crashed | restarted | healthCheckFailed
  deriving DecidableEq, Repr

structure ProcessEvent where
  type : EventType
  processName : String
  pid : Int
  exitCode : Nat
  message : String := ""
  deriving DecidableEq

/-- `monitorThread` is the number of the thread, if the `std::thread` is joinable. -/
structure ProcessEntry where
  config : ProcessConfig
  state : ProcessState := {}
  monitorThread : Option Nat := none
  running : Bool := false

/-- The members of `ProcessSupervisor`, and the events handed to its callback. -/
structure Shared where
  processes : AList fun _ : String => ProcessEntry
  watchdogThread : Option Nat
  watchdogRunning : Bool
  events : List ProcessEvent

def Shared.empty : Shared := ⟨∅, none, false, []⟩

/-! ## Single accesses -/

inductive Op
  | find (name : String)
  | insert (config : ProcessConfig)
  | erase (name : String)
  | names
  | get (name : String)
  | set (name : String) (f : ProcessEntry → ProcessEntry)
  /-- `entry->state.restart_count < entry->config.max_restarts`. -/
  | belowMax (name : String)
  /-- `entry->monitor_thread.joinable()`, with the thread if it is. -/
  | monitorThread (name : String)
  /-- `entry->monitor_thread = std::thread(…)`. -/
  | assignMonitor (name : String) (n : Nat)
  | emit (event : ProcessEvent)
  | isWatchdogRunning
  | setWatchdogRunning (b : Bool)
  | watchdogThread
  | assignWatchdog (n : Nat)
  | clearWatchdog
  | forkProcess
  | waitpid (pid : Int)
  | kill (pid : Int) (signal : Nat)
  | now

/-- `forkProcess`: the new pid, or the text of `errno`. `waitpid`: the status word, if the process was reaped. -/
@[reducible] def Op.Ret : Op → Type
  | .find _ => Bool
  | .names => List String
  | .get _ => ProcessEntry
  | .belowMax _ => Bool
  | .monitorThread _ => Option Nat
  | .isWatchdogRunning => Bool
  | .watchdogThread => Option Nat
  | .forkProcess => Except String Nat
  | .waitpid _ => Option Nat
  | .now => UInt64
  | _ => Unit

structure Env where
  forked : Except String Nat := .ok 1
  waited : Option Nat := none
  clock : UInt64 := 0

/-- `entry->` through the map; `processes_[name]` of a missing name is a null pointer. -/
def Shared.entry (s : Shared) (name : String) : Option ProcessEntry := s.processes.lookup name

def Shared.put (s : Shared) (name : String) (entry : ProcessEntry) : Shared :=
  { s with processes := s.processes.insert name entry }

/-- The callback of `on_event` is told. -/
def Shared.log (s : Shared) (events : List ProcessEvent) : Shared := { s with events := s.events ++ events }

def exec (env : Env) : (o : Op) → Shared → Option (o.Ret × Shared)
  | .find name, s => some ((s.entry name).isSome, s)
  | .insert config, s => some ((), s.put config.name { config := config })
  | .erase name, s =>
    -- the entry is destroyed with its `std::thread`
    match (s.entry name).bind (·.monitorThread) with
    | none => some ((), { s with processes := s.processes.erase name })
    | some _ => none
  | .names, s => some (s.processes.keys, s)
  | .get name, s => (s.entry name).map fun entry => (entry, s)
  | .set name f, s => (s.entry name).map fun entry => ((), s.put name (f entry))
  | .belowMax name, s =>
    (s.entry name).map fun entry => (decide (entry.state.restartCount < entry.config.maxRestarts.toNat), s)
  | .monitorThread name, s => (s.entry name).map fun entry => (entry.monitorThread, s)
  | .assignMonitor name n, s =>
    (s.entry name).bind fun entry =>
      match entry.monitorThread with
      | none => some ((), s.put name { entry with monitorThread := some n })
      | some _ => none
  | .emit event, s => some ((), s.log [event])
  | .isWatchdogRunning, s => some (s.watchdogRunning, s)
  | .setWatchdogRunning b, s => some ((), { s with watchdogRunning := b })
  | .watchdogThread, s => some (s.watchdogThread, s)
  | .assignWatchdog n, s =>
    match s.watchdogThread with
    | none => some ((), { s with watchdogThread := some n })
    | some _ => none
  | .clearWatchdog, s => some ((), { s with watchdogThread := none })
  | .forkProcess, s => some (env.forked, s)
  | .waitpid _, s => some (env.waited, s)
  | .kill _ _, s => some ((), s)
  | .now, s => some (env.clock, s)

/-! ## The operations -/

inductive Kind | monitor | watchdog
  deriving DecidableEq, Repr

/-- What a thread can be given to do. The last two are done by threads of their own. -/
inductive Tag
  | addProcess (config : ProcessConfig)
  | removeProcess (name : String) (rounds : Nat)
  | start (name : String) (rounds : Nat)
  | stop (name : String) (timeoutMs : UInt32) (rounds : Nat)
  | restart (name : String) (rounds : Nat)
  | stopAll
  | startWatchdog (rounds : Nat)
  | stopWatchdog
  | monitorProcess (name : String) (rounds : Nat)
  | watchdog (rounds : Nat)

abbrev Code (α : Type) := Prog (Act Op Kind Tag) (Act.Ret Op.Ret) α

def mem (o : Op) : Code o.Ret := .op (.mem o) .ret

/-- `std::thread(…)`. -/
def startThread (tag : Tag) : Code Nat := .op (.fork tag) .ret

def joinThread (kind : Kind) (n : Nat) : Code Unit := .op (.join kind n) .ret

def setState (name : String) (f : ProcessState → ProcessState) : Code Unit :=
  mem (.set name fun entry => { entry with state := f entry.state })

/-- `emit_event` (`:290-303`). -/
def emitEvent (type : EventType) (name : String) (pid : Int) (exitCode : Nat) (msg : String) : Code Unit :=
  mem (.emit { type := type, processName := name, pid := pid, exitCode := exitCode, message := msg })

def addProcess (config : ProcessConfig) : Code Bool := locked do
  let found : Bool ← mem (.find config.name)
  if found then pure false else do
  let _ ← mem (.insert config)
  pure true

/-- `if (entry->monitor_thread.joinable()) entry->monitor_thread.join();` (`:119-121`). -/
def joinMonitor (name : String) : Code Unit := do
  let thread : Option Nat ← mem (.monitorThread name)
  match thread with
  | none => pure ()
  | some n => do
    joinThread .monitor n
    mem (.set name fun entry => { entry with monitorThread := none })

def spawnProcess (name : String) (rounds : Nat) : Code Bool := do
  setState name fun state => { state with status := .starting }
  setState name fun state => { state with restartCount := 0 }
  let forked : Except String Nat ← mem .forkProcess
  match forked with
  | .error err => do
    setState name fun state => { state with status := .failed }
    setState name fun state => { state with lastError := err }
    pure false
  | .ok pid => do
    setState name fun state => { state with pid := pid }
    setState name fun state => { state with status := .running }
    let clock : UInt64 ← mem .now
    setState name fun state => { state with startTime := clock }
    mem (.set name fun entry => { entry with running := true })
    joinMonitor name
    let n ← startThread (.monitorProcess name rounds)
    mem (.assignMonitor name n)
    emitEvent .started name pid 0 ""
    pure true

/-- `WEXITSTATUS`: `(status & 0xff00) >> 8`. -/
def WEXITSTATUS (status : Nat) : Nat := status / 256 % 256

def restartMessage (attempt : Nat) : String := "Restart attempt " ++ toString attempt

def exceededMessage (maxRestarts : UInt32) : String := "Exceeded max restarts (" ++ toString maxRestarts ++ ")"

/-- The restart branch of `handle_exit` (`:195-208`). -/
def attemptRestart (name : String) (rounds : Nat) : Code Unit := do
  setState name fun state => { state with restartCount := state.restartCount + 1 }
  setState name fun state => { state with status := .restarting }
  let entry : ProcessEntry ← mem (.get name)
  emitEvent .restarted name (-1) 0 (restartMessage entry.state.restartCount)
  let _ ← spawnProcess name rounds
  pure ()

/-- The other branch (`:209-215`). -/
def giveUp (name : String) : Code Unit := do
  setState name fun state => { state with status := .failed }
  let entry : ProcessEntry ← mem (.get name)
  setState name fun state => { state with lastError := exceededMessage entry.config.maxRestarts }

def handleExit (name : String) (status : Nat) (rounds : Nat) : Code Unit := do
  mem (.set name fun entry => { entry with running := false })
  setState name fun state => { state with exitCode := WEXITSTATUS status }
  setState name fun state => { state with status := .stopped }
  let entry : ProcessEntry ← mem (.get name)
  let success := entry.state.exitCode == 0
  let exited : ProcessEntry ← mem (.get name)
  emitEvent (if success then .stopped else .crashed) name exited.state.pid exited.state.exitCode ""
  if success then pure () else do
  if entry.config.restartPolicy = .never then pure () else do
  let due : Bool ← mem (.belowMax name)
  if due then attemptRestart name rounds else giveUp name

/-- `uptime > entry->config.timeout_seconds * 1000`; the product is a `uint32_t` (`:147-152`). -/
def timedOut (entry : ProcessEntry) (clock : UInt64) : Bool :=
  entry.config.timeoutSeconds > 0 && clock - entry.state.startTime > (entry.config.timeoutSeconds * 1000).toUInt64

def SIGKILL : Nat := 9
def SIGTERM : Nat := 15

/-- The loop of `monitor_process`. -/
def monitorProcess (name : String) : Nat → Code Unit
  | 0 => .fail
  | rounds + 1 => do
    let entry : ProcessEntry ← mem (.get name)
    if entry.running = false then pure () else do
    let entry : ProcessEntry ← mem (.get name)
    let waited : Option Nat ← mem (.waitpid entry.state.pid)
    match waited with
    | some status => handleExit name status rounds
    | none => do
      let clock : UInt64 ← mem .now
      let entry : ProcessEntry ← mem (.get name)
      if timedOut entry clock then mem (.kill entry.state.pid SIGKILL) else monitorProcess name rounds

def start (name : String) (rounds : Nat) : Code Bool := locked do
  let found : Bool ← mem (.find name)
  if found = false then pure false else do
  let entry : ProcessEntry ← mem (.get name)
  if entry.state.status = .running then pure false else spawnProcess name rounds

/-- The loop that waits for the process to leave `RUNNING` (`:235-244`). -/
def awaitStopped (name : String) (timeoutMs : UInt32) (begun : UInt64) : Nat → Code Unit
  | 0 => .fail
  | rounds + 1 => do
    let entry : ProcessEntry ← mem (.get name)
    if entry.state.status ≠ .running then pure () else do
    let clock : UInt64 ← mem .now
    if clock - begun > timeoutMs.toUInt64 then mem (.kill entry.state.pid SIGKILL) else
      awaitStopped name timeoutMs begun rounds

def stop (name : String) (timeoutMs : UInt32) (rounds : Nat) : Code Bool := locked do
  let found : Bool ← mem (.find name)
  if found = false then pure false else do
  let entry : ProcessEntry ← mem (.get name)
  if entry.state.status ≠ .running then pure false else do
  mem (.set name fun entry => { entry with running := false })
  let entry : ProcessEntry ← mem (.get name)
  mem (.kill entry.state.pid SIGTERM)
  let begun : UInt64 ← mem .now
  awaitStopped name timeoutMs begun rounds
  setState name fun state => { state with status := .stopped }
  pure true

/-- The default timeout of `stop`. -/
def stopTimeout : UInt32 := 5000

def removeProcess (name : String) (rounds : Nat) : Code Bool := locked do
  let found : Bool ← mem (.find name)
  if found = false then pure false else do
  let entry : ProcessEntry ← mem (.get name)
  let _ ← if entry.state.status = .running then stop name stopTimeout rounds else pure false
  mem (.erase name)
  pure true

def restart (name : String) (rounds : Nat) : Code Bool := do
  let _ ← stop name stopTimeout rounds
  start name rounds

/-- A range-based `for` over `processes_`. -/
def forEach (body : String → Code Unit) : List String → Code Unit
  | [] => pure ()
  | name :: names => do
    body name
    forEach body names

/-- The body of the loop in `stop_all` (`:258-261`). -/
def terminate (name : String) : Code Unit := do
  let entry : ProcessEntry ← mem (.get name)
  if entry.state.status ≠ .running then pure () else do
  mem (.set name fun entry => { entry with running := false })
  mem (.kill entry.state.pid SIGTERM)

def stopAll : Code Bool := locked do
  let names : List String ← mem .names
  forEach terminate names
  pure true

/-- The body of the watchdog's loop over the processes (`:332-338`). -/
def reap (rounds : Nat) (name : String) : Code Unit := do
  let entry : ProcessEntry ← mem (.get name)
  if entry.state.status ≠ .running ∨ entry.state.pid ≤ 0 then pure () else do
  let waited : Option Nat ← mem (.waitpid entry.state.pid)
  match waited with
  | some status => handleExit name (WEXITSTATUS status) rounds
  | none => pure ()

/-- The loop of the watchdog thread (`:328-341`). -/
def watchdog : Nat → Code Unit
  | 0 => .fail
  | rounds + 1 => do
    let running : Bool ← mem .isWatchdogRunning
    if running = false then pure () else do
    locked do
      let names : List String ← mem .names
      forEach (reap rounds) names
    watchdog rounds

def startWatchdog (rounds : Nat) : Code Bool := do
  let running : Bool ← mem .isWatchdogRunning
  if running then pure false else do
  mem (.setWatchdogRunning true)
  let n ← startThread (.watchdog rounds)
  mem (.assignWatchdog n)
  pure true

def stopWatchdog : Code Bool := do
  mem (.setWatchdogRunning false)
  let thread : Option Nat ← mem .watchdogThread
  match thread with
  | none => pure true
  | some n => do
    joinThread .watchdog n
    mem .clearWatchdog
    pure true

/-! ## The supervisor as a system of threads -/

def code : Tag → Code Unit
  | .addProcess config => (fun _ => ()) <$> addProcess config
  | .removeProcess name rounds => (fun _ => ()) <$> removeProcess name rounds
  | .start name rounds => (fun _ => ()) <$> start name rounds
  | .stop name timeoutMs rounds => (fun _ => ()) <$> stop name timeoutMs rounds
  | .restart name rounds => (fun _ => ()) <$> restart name rounds
  | .stopAll => (fun _ => ()) <$> stopAll
  | .startWatchdog rounds => (fun _ => ()) <$> startWatchdog rounds
  | .stopWatchdog => (fun _ => ()) <$> stopWatchdog
  | .monitorProcess name rounds => monitorProcess name rounds
  | .watchdog rounds => watchdog rounds

def Tag.kind : Tag → Option Kind
  | .monitorProcess _ _ => some .monitor
  | .watchdog _ => some .watchdog
  | _ => none

def rules : ThreadRules Shared Op Kind Tag Op.Ret Unit Env := ⟨exec, Tag.kind, code⟩

end RedisOps.Supervisor
