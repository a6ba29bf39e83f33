import RedisOps.Lib.Window
import RedisOps.Resource.Usage

/-!
# The loop of a resource monitor and those who ask it (`sandbox/src/resource_monitor.cpp:121-235`)

| here | there |
| --- | --- |
| `ResourceAlert`, `checkAlerts` | `ResourceAlert`, `check_alerts` (`:121-161`) |
| `loopStep` | `monitor_loop` (`:163-183`): the reading, the entry under its lock, the alerts |
| `getHistory`, `getViolations`, `setLimit` | `:193-202`, `:211-230`, `:232-235` |
| `Ratio` | what is used of `double` |

Whoever reads the usage moves the baseline of the CPU time: the loop, `get_usage`, `is_over_limit` and `get_violations` share
out the time among them (`monitor_run`). A reading is one step here, and so is `set_limit`: nothing in the source keeps them
apart.

The callback of the alerts is set before the start, as `add_monitor` does it.
-/

namespace RedisOps.Resource

open Lib

class Ratio (F : Type) where
  ofU64 : UInt64 → F
  div : F → F → F
  gt : F → F → Bool
  /-- `0.75` -/
  high : F
  /-- `0.9` -/
  critical : F

/-- Without rounding. -/
instance : Ratio ℚ where
  ofU64 n := n.toNat
  div a b := a / b
  gt a b := b < a
  high := 3 / 4
  critical := 9 / 10

inductive Level where
  | info | warning | critical
  deriving DecidableEq

structure ResourceAlert (F : Type) where
  level : Level
  resource : Bytes
  message : Bytes
  currentValue : F
  limitValue : F
  timestamp : UInt64

structure HistoryEntry (F : Type) where
  usage : ResourceUsage F
  timestamp : F

variable {F : Type}

section
variable [Ratio F]

def alert (level : Level) (resource message : String) (current limit now : UInt64) : ResourceAlert F :=
  ⟨level, ascii resource, ascii message, Ratio.ofU64 current, Ratio.ofU64 limit, now⟩

def checkAlerts (limits : ResourceLimits) (usage : ResourceUsage F) (now : UInt64) : List (ResourceAlert F) :=
  let memRatio : F := Ratio.div (Ratio.ofU64 usage.memoryBytes) (Ratio.ofU64 limits.memoryBytes)
  (if Ratio.gt memRatio Ratio.critical then
    [alert .critical "memory" "Memory usage critical" usage.memoryBytes limits.memoryBytes now]
  else if Ratio.gt memRatio Ratio.high then
    [alert .warning "memory" "Memory usage high" usage.memoryBytes limits.memoryBytes now]
  else []) ++
  (if usage.cpuPercent > limits.cpuPercent then
    [alert .warning "cpu" "CPU usage exceeded" usage.cpuPercent.toUInt64 limits.cpuPercent.toUInt64 now]
  else []) ++
  (if usage.pidsCurrent > limits.pidsMax then
    [alert .critical "pids" "Process limit exceeded" usage.pidsCurrent.toUInt64 limits.pidsMax.toUInt64 now]
  else [])

variable [Zero F]

def getViolations (host : Host F) (m : ResourceMonitor) : List (ResourceAlert F) × ResourceMonitor :=
  let (usage, m) := readUsage host m
  ((if usage.memoryBytes > m.limits.memoryBytes then
      [alert .critical "memory" "Memory limit exceeded" usage.memoryBytes m.limits.memoryBytes 0]
    else []) ++
    (if usage.cpuPercent > m.limits.cpuPercent then
      [alert .warning "cpu" "CPU limit exceeded" usage.cpuPercent.toUInt64 m.limits.cpuPercent.toUInt64 0]
    else []), m)

end

/-- 250 MB of 256. -/
example :
    (checkAlerts {} { memoryBytes := 262144000, uptimeSeconds := (0 : ℚ) } 7).map ResourceAlert.level = [.critical] := by
  decide +kernel

/-! ## The thread and the callers -/

/-- Where the thread is. -/
inductive Place (F : Type)
  | top
  | read (usage : ResourceUsage F)
  | recorded (usage : ResourceUsage F)
  | ended

structure Monitoring (F : Type) where
  m : ResourceMonitor
  running : Bool := true
  place : Place F := .top
  history : List (HistoryEntry F) := []

/-- `reserve(last_n)` is taken to succeed. -/
def getHistory (s : Monitoring F) (lastN : UInt32) : List (HistoryEntry F) :=
  let start := if s.history.length > lastN.toNat then s.history.length - lastN.toNat else 0
  s.history.drop start

inductive Event (F : Type)
  | looked (host : Host F) (usage : ResourceUsage F)
  | recorded (entry : HistoryEntry F)
  | checked (usage : ResourceUsage F) (now : UInt64) (alerts : List (ResourceAlert F))
  | used (host : Host F) (usage : ResourceUsage F)
  | judged (host : Host F) (verdict : Bool)
  | violated (host : Host F) (alerts : List (ResourceAlert F))
  | limited (limits : ResourceLimits)
  | told (lastN : UInt32) (entries : List (HistoryEntry F))
  | nothing

section
variable [Ratio F] [Zero F]

def loopStep (s : Monitoring F) (host : Host F) (now : UInt64) : Event F × Monitoring F :=
  match s.place with
  | .top =>
    if s.running then
      let (usage, m) := readUsage host s.m
      (.looked host usage, { s with m, place := .read usage })
    else (.nothing, { s with place := .ended })
  | .read usage =>
    let entry : HistoryEntry F := ⟨usage, Ratio.ofU64 now⟩
    let history := s.history ++ [entry]
    let history := if history.length > 1000 then history.tail else history
    (.recorded entry, { s with history, place := .recorded usage })
  | .recorded usage => (.checked usage now (checkAlerts s.m.limits usage now), { s with place := .top })
  | .ended => (.nothing, s)

end

inductive Act (F : Type)
  | loop (host : Host F) (now : UInt64)
  | stop
  | getUsage (host : Host F)
  | isOverLimit (host : Host F)
  | getViolations (host : Host F)
  | setLimit (limits : ResourceLimits)
  | getHistory (lastN : UInt32)

section
variable [Ratio F] [Zero F]

def Act.step (s : Monitoring F) : Act F → Event F × Monitoring F
  | .loop host now => loopStep s host now
  | .stop => (.nothing, { s with running := false })
  | .getUsage host =>
    let (usage, m) := Resource.getUsage host s.m
    (.used host usage, { s with m })
  | .isOverLimit host =>
    let (verdict, m) := Resource.isOverLimit host s.m
    (.judged host verdict, { s with m })
  | .getViolations host =>
    let (alerts, m) := Resource.getViolations host s.m
    (.violated host alerts, { s with m })
  | .setLimit limits => (.limited limits, { s with m := { s.m with limits } })
  | .getHistory lastN => (.told lastN (Resource.getHistory s lastN), s)

def run (s : Monitoring F) (acts : List (Act F)) : List (Event F) × Monitoring F :=
  acts.foldl (fun out act => (out.1 ++ [(act.step out.2).1], (act.step out.2).2)) ([], s)

end

/-! ## What has happened so far -/

def Event.host? : Event F → Option (Host F)
  | .looked host _ | .used host _ | .judged host _ | .violated host _ => some host
  | _ => none

/-- The CPU time that a reading has found. -/
def Event.total? (pid : Int) (e : Event F) : Option UInt64 := e.host?.bind fun host => totalTime host pid

def Event.limits? : Event F → Option ResourceLimits
  | .limited limits => some limits
  | _ => none

/-- The monitor after these events: the limits set last, and the CPU time read last. -/
def monitorAt (m : ResourceMonitor) (evs : List (Event F)) : ResourceMonitor :=
  { m with
    limits := (evs.filterMap Event.limits?).getLast?.getD m.limits
    prevCpuTime := (evs.filterMap (Event.total? m.targetPid)).getLast?.getD m.prevCpuTime }

def Event.look? : Event F → Option (ResourceUsage F)
  | .looked _ usage => some usage
  | _ => none

def Event.entry? : Event F → Option (HistoryEntry F)
  | .recorded entry => some entry
  | _ => none

def Event.check? : Event F → Option (ResourceUsage F)
  | .checked usage _ _ => some usage
  | _ => none

def looks (evs : List (Event F)) : List (ResourceUsage F) := evs.filterMap Event.look?

def records (evs : List (Event F)) : List (HistoryEntry F) := evs.filterMap Event.entry?

def checks (evs : List (Event F)) : List (ResourceUsage F) := evs.filterMap Event.check?

section
variable [Ratio F] [Zero F]

/-- An event, by those before it. The loop takes each of its readings to the history and then to the alerts. -/
def Right (m : ResourceMonitor) (before : List (Event F)) : Event F → Prop
  | .looked host usage => usage = (readUsage host (monitorAt m before)).1 ∧ checks before = looks before
  | .recorded entry => (records before).map HistoryEntry.usage ++ [entry.usage] = looks before
  | .checked usage now alerts =>
    (records before).map HistoryEntry.usage = looks before ∧ checks before ++ [usage] = looks before ∧
      alerts = checkAlerts (monitorAt m before).limits usage now
  | .used host usage => usage = (getUsage host (monitorAt m before)).1
  | .judged host verdict => verdict = (isOverLimit host (monitorAt m before)).1
  | .violated host alerts => alerts = (getViolations host (monitorAt m before)).1
  | .told lastN entries => entries = (records before).rtake (min lastN.toNat 1000)
  | .limited _ | .nothing => True

end

/-! ## What every step keeps -/

/-- What of the loop's readings has got how far. -/
def Place.Fits (evs : List (Event F)) : Place F → Prop
  | .top | .ended => (records evs).map HistoryEntry.usage = looks evs ∧ checks evs = looks evs
  | .read usage =>
    (records evs).map HistoryEntry.usage ++ [usage] = looks evs ∧ checks evs = (records evs).map HistoryEntry.usage
  | .recorded usage => (records evs).map HistoryEntry.usage = looks evs ∧ checks evs ++ [usage] = looks evs

structure Kept (m : ResourceMonitor) (evs : List (Event F)) (s : Monitoring F) : Prop where
  monitor : s.m = monitorAt m evs
  history : s.history = (records evs).rtake 1000
  place : s.place.Fits evs
  threads : ∀ usage ∈ looks evs, usage.pidsCurrent = 0

section Snoc
variable {m : ResourceMonitor} {evs : List (Event F)} {e : Event F}

theorem looks_snoc : looks (evs ++ [e]) = looks evs ++ e.look?.toList := by
  rw [looks, looks, List.filterMap_append]
  cases h : e.look? <;> simp [h]

theorem records_snoc : records (evs ++ [e]) = records evs ++ e.entry?.toList := by
  rw [records, records, List.filterMap_append]
  cases h : e.entry? <;> simp [h]

theorem checks_snoc : checks (evs ++ [e]) = checks evs ++ e.check?.toList := by
  rw [checks, checks, List.filterMap_append]
  cases h : e.check? <;> simp [h]

theorem last_snoc {α : Type} (f : Event F → Option α) (d : α) :
    ((evs ++ [e]).filterMap f).getLast?.getD d = (f e).getD ((evs.filterMap f).getLast?.getD d) := by
  rw [List.filterMap_append]
  cases h : f e <;> simp [h]

theorem monitorAt_snoc : monitorAt m (evs ++ [e]) =
    { monitorAt m evs with
      limits := e.limits?.getD (monitorAt m evs).limits
      prevCpuTime := (e.total? m.targetPid).getD (monitorAt m evs).prevCpuTime } := by
  simp only [monitorAt, last_snoc]

/-- What the loop does not do moves none of its readings on. -/
theorem Place.Fits.other {place : Place F} (h : place.Fits evs) (hlook : e.look? = none) (hentry : e.entry? = none)
    (hcheck : e.check? = none) : place.Fits (evs ++ [e]) := by
  have hlooks : looks (evs ++ [e]) = looks evs := by simp [looks_snoc, hlook]
  have hrecords : records (evs ++ [e]) = records evs := by simp [records_snoc, hentry]
  have hchecks : checks (evs ++ [e]) = checks evs := by simp [checks_snoc, hcheck]
  cases place <;> simpa only [Place.Fits, hlooks, hrecords, hchecks] using h

end Snoc

/-- The newest and one more, without the oldest if that is too many. -/
theorem rtake_push {α : Type} (l : List α) (a : α) (n : Nat) :
    (if (l.rtake n ++ [a]).length > n then (l.rtake n ++ [a]).tail else l.rtake n ++ [a]) = (l ++ [a]).rtake n := by
  have hlen : (l.rtake n).length ≤ n := by
    rw [List.rtake, List.length_drop]
    omega
  rw [show (l ++ [a]).rtake n = (l.rtake n ++ [a]).rtake n from (rtake_append_rtake l [a] n).symm]
  generalize l.rtake n = newest at hlen ⊢
  split
  · rename_i h
    have hfull : newest.length = n := by
      rw [List.length_append, List.length_singleton] at h
      omega
    rw [List.rtake, List.length_append, List.length_singleton, hfull, Nat.add_sub_cancel_left, List.drop_one]
  · rename_i h
    rw [rtake_of_le (by omega)]

theorem getHistory_eq (s : Monitoring F) (lastN : UInt32) : getHistory s lastN = s.history.rtake lastN.toNat := by
  simp only [getHistory, List.rtake]
  split
  · rfl
  · rw [Nat.sub_eq_zero_of_le (by omega)]

section Step
variable [Ratio F] [Zero F] {m : ResourceMonitor} {evs : List (Event F)} {s : Monitoring F}

omit [Ratio F] in
/-- A reading, whoever makes it. -/
theorem Kept.readUsage_snd (h : Kept m evs s) {e : Event F} {host : Host F} (hhost : e.host? = some host)
    (hlimits : e.limits? = none) : (readUsage host s.m).2 = monitorAt m (evs ++ [e]) := by
  obtain ⟨-, -, -, hbase⟩ := readUsage_spec host s.m
  rw [hbase, h.monitor, monitorAt_snoc, hlimits, Event.total?, hhost]
  rfl

omit [Ratio F] [Zero F] in
theorem Kept.other (h : Kept m evs s) {e : Event F} {s' : Monitoring F} (hlook : e.look? = none) (hentry : e.entry? = none)
    (hcheck : e.check? = none) (hm : s'.m = monitorAt m (evs ++ [e])) (hhistory : s'.history = s.history)
    (hplace : s'.place = s.place) : Kept m (evs ++ [e]) s' where
  monitor := hm
  history := by simp [hhistory, h.history, records_snoc, hentry]
  place := hplace ▸ h.place.other hlook hentry hcheck
  threads := by simpa [looks_snoc, hlook] using h.threads

theorem Kept.loopStep (h : Kept m evs s) (host : Host F) (now : UInt64) :
    Kept m (evs ++ [(loopStep s host now).1]) (loopStep s host now).2 ∧ Right m evs (loopStep s host now).1 := by
  have hplace := h.place
  obtain ⟨mon, running, place, history⟩ := s
  cases place with
  | top =>
    obtain ⟨hrecords, hchecks⟩ := hplace
    cases running with
    | false =>
      refine ⟨⟨?_, ?_, ?_, ?_⟩, trivial⟩
      · rw [monitorAt_snoc]
        exact h.monitor
      · simpa [Resource.loopStep, records_snoc, Event.entry?] using h.history
      · simp [Resource.loopStep, Place.Fits, looks_snoc, records_snoc, checks_snoc, Event.look?, Event.entry?, Event.check?,
          hrecords, hchecks]
      · simpa [Resource.loopStep, looks_snoc, Event.look?] using h.threads
    | true =>
      refine ⟨⟨?_, ?_, ?_, ?_⟩, ?_, hchecks⟩
      · exact h.readUsage_snd rfl rfl
      · simpa [Resource.loopStep, records_snoc, Event.entry?] using h.history
      · simp [Resource.loopStep, Place.Fits, looks_snoc, records_snoc, checks_snoc, Event.look?, Event.entry?, Event.check?,
          hrecords, hchecks]
      · intro usage husage
        rw [looks_snoc] at husage
        rcases List.mem_append.1 husage with husage | husage
        · exact h.threads usage husage
        · obtain ⟨-, -, hpids, -⟩ := readUsage_spec host mon
          rw [List.mem_singleton.1 husage]
          exact hpids
      · exact congrArg (fun m => (readUsage host m).1) h.monitor
  | read usage =>
    obtain ⟨hrecords, hchecks⟩ := hplace
    refine ⟨⟨?_, ?_, ?_, ?_⟩, hrecords⟩
    · rw [monitorAt_snoc]
      exact h.monitor
    · have hhistory : history = (records evs).rtake 1000 := h.history
      simp only [Resource.loopStep, records_snoc, Event.entry?, Option.toList_some, hhistory]
      exact rtake_push _ _ _
    · simp [Resource.loopStep, Place.Fits, looks_snoc, records_snoc, checks_snoc, Event.look?, Event.entry?, Event.check?,
        hrecords, hchecks]
    · simpa [Resource.loopStep, looks_snoc, Event.look?] using h.threads
  | recorded usage =>
    obtain ⟨hrecords, hchecks⟩ := hplace
    refine ⟨⟨?_, ?_, ?_, ?_⟩, hrecords, hchecks, ?_⟩
    · rw [monitorAt_snoc]
      exact h.monitor
    · simpa [Resource.loopStep, records_snoc, Event.entry?] using h.history
    · simp [Resource.loopStep, Place.Fits, looks_snoc, records_snoc, checks_snoc, Event.look?, Event.entry?, Event.check?,
        hrecords, hchecks]
    · simpa [Resource.loopStep, looks_snoc, Event.look?] using h.threads
    · exact congrArg (fun m => checkAlerts m.limits usage now) h.monitor
  | ended => exact ⟨h.other rfl rfl rfl (by rw [monitorAt_snoc]; exact h.monitor) rfl rfl, trivial⟩

theorem Kept.step (h : Kept m evs s) (act : Act F) :
    Kept m (evs ++ [(act.step s).1]) (act.step s).2 ∧ Right m evs (act.step s).1 := by
  cases act with
  | loop host now => exact h.loopStep host now
  | stop => exact ⟨h.other rfl rfl rfl (by rw [monitorAt_snoc]; exact h.monitor) rfl rfl, trivial⟩
  | getUsage host =>
    refine ⟨h.other rfl rfl rfl (h.readUsage_snd rfl rfl) rfl rfl, ?_⟩
    exact congrArg (fun m => (Resource.getUsage host m).1) h.monitor
  | isOverLimit host =>
    refine ⟨h.other rfl rfl rfl (h.readUsage_snd rfl rfl) rfl rfl, ?_⟩
    exact congrArg (fun m => (Resource.isOverLimit host m).1) h.monitor
  | getViolations host =>
    refine ⟨h.other rfl rfl rfl (h.readUsage_snd rfl rfl) rfl rfl, ?_⟩
    exact congrArg (fun m => (Resource.getViolations host m).1) h.monitor
  | setLimit limits =>
    refine ⟨h.other rfl rfl rfl ?_ rfl rfl, trivial⟩
    rw [monitorAt_snoc, ← h.monitor]
    rfl
  | getHistory lastN =>
    refine ⟨h.other rfl rfl rfl (by rw [monitorAt_snoc]; exact h.monitor) rfl rfl, ?_⟩
    change getHistory s lastN = _
    rw [getHistory_eq, h.history, rtake_rtake]

end Step

section
variable [Ratio F] [Zero F]

theorem run_concat (s : Monitoring F) (acts : List (Act F)) (act : Act F) :
    run s (acts ++ [act]) = ((run s acts).1 ++ [(act.step (run s acts).2).1], (act.step (run s acts).2).2) := by
  rw [run, List.foldl_concat]
  rfl

end

section
variable [Ratio F] [Zero F]

end

end RedisOps.Resource
