import RedisOps.Lib.Istream

/-!
# What a resource monitor reads (`sandbox/src/resource_monitor.cpp:43-119`)

| here | there |
| --- | --- |
| `ResourceLimits`, `ResourceUsage`, `ResourceMonitor` | `sandbox/include/devops/resource_monitor.hpp:15-33`, `:44-96` |
| `readStatus`, `readStat`, `readIo` | the loops of `read_usage` over the files of `/proc/<pid>` (`:50-63`, `:69-87`, `:93-105`) |
| `readUsage`, `getUsage`, `isOverLimit` | `:43-119`, `:185-187`, `:204-209` |
| `Host` | the files, whether each opens, and `sysconf(_SC_CLK_TCK)` |

`readUsage` is `const`, but it moves the baseline of the CPU time: it also answers the monitor afterwards. The prefix of
`"Threads:"` is cut to four characters, so that line is never found: `status_read_iff` says that the parser is right exactly
for a process of 0 threads.

Left out: the limits of disk and network, which nothing reads. Thread, history and alerts: `RedisOps/Resource/Monitor.lean`.
-/

namespace RedisOps.Resource

open Lib

structure ResourceLimits where
  memoryBytes : UInt64 := 268435456
  cpuPercent : UInt32 := 50
  pidsMax : UInt32 := 64
  deriving DecidableEq

/-- The uptime is a `double`, taken as it is read. -/
structure ResourceUsage (F : Type) where
  memoryBytes : UInt64 := 0
  cpuPercent : UInt32 := 0
  pidsCurrent : UInt32 := 0
  diskReadBytes : UInt64 := 0
  diskWriteBytes : UInt64 := 0
  networkRxBytes : UInt64 := 0
  networkTxBytes : UInt64 := 0
  uptimeSeconds : F

structure ResourceMonitor where
  targetPid : Int
  limits : ResourceLimits
  prevCpuTime : UInt64 := 0

/-- The files of one process; `none` does not open. -/
structure ProcFiles where
  status : Option Bytes
  stat : Option Bytes
  io : Option Bytes

structure Host (F : Type) where
  proc : Int → ProcFiles
  uptime : Option F
  clkTck : UInt64
  clkTck_pos : 0 < clkTck

variable {F : Type}

/-! ## Parsing -/

/-- `iss >> field` on what follows the name of the field. -/
def field64 (old : UInt64) (text : Bytes) : UInt64 := UInt64.ofNat (IStream.unsigned 64 old.toNat ⟨text, true⟩).1

def field32 (old : UInt32) (text : Bytes) : UInt32 := UInt32.ofNat (IStream.unsigned 32 old.toNat ⟨text, true⟩).1

/-- The second comparison is as it stands there, with four characters. -/
def statusLine (usage : ResourceUsage F) (line : Bytes) : ResourceUsage F :=
  if line.take 6 = ascii "VmRSS:" then
    { usage with memoryBytes := field64 usage.memoryBytes (line.drop 6) * 1024 }
  else if line.take 4 = ascii "Threads:" then
    { usage with pidsCurrent := field32 usage.pidsCurrent (line.drop 4) }
  else usage

def readStatus (text : Option Bytes) (usage : ResourceUsage F) : ResourceUsage F :=
  ((text.map getlines).getD []).foldl statusLine usage

/-- `utime + stime`: the fields 14 and 15. -/
def cpuTime (line : Bytes) : UInt64 :=
  let iss := IStream.word^[13] ⟨line, true⟩
  let (utime, iss) := iss.unsigned 64 0
  let (stime, _) := iss.unsigned 64 0
  UInt64.ofNat utime + UInt64.ofNat stime

/-- Percent of a CPU since the baseline; the cast keeps the low 32 bits. -/
def cpuPercent (host : Host F) (prev total : UInt64) : UInt32 := ((total - prev) * 100 / host.clkTck).toUInt32

/-- The total time of `/proc/<pid>/stat`, if it opens. -/
def totalTime (host : Host F) (pid : Int) : Option UInt64 :=
  (host.proc pid).stat.map fun text => cpuTime ((getlines text).headD [])

def readStat (host : Host F) (m : ResourceMonitor) (usage : ResourceUsage F) : ResourceUsage F × ResourceMonitor :=
  match totalTime host m.targetPid with
  | none => (usage, m)
  | some total =>
    ({ usage with cpuPercent := cpuPercent host m.prevCpuTime total }, { m with prevCpuTime := total })

def ioLine (usage : ResourceUsage F) (line : Bytes) : ResourceUsage F :=
  if line.take 11 = ascii "read_bytes:" then
    { usage with diskReadBytes := field64 usage.diskReadBytes (line.drop 11) }
  else if line.take 12 = ascii "write_bytes:" then
    { usage with diskWriteBytes := field64 usage.diskWriteBytes (line.drop 12) }
  else usage

def readIo (text : Option Bytes) (usage : ResourceUsage F) : ResourceUsage F :=
  ((text.map getlines).getD []).foldl ioLine usage

/-! ## The monitor -/

section
variable [Zero F] (host : Host F) (m : ResourceMonitor)

def readUsage : ResourceUsage F × ResourceMonitor :=
  let files := host.proc m.targetPid
  let usage : ResourceUsage F := readStatus files.status { uptimeSeconds := 0 }
  let (usage, m) := readStat host m usage
  let usage := readIo files.io usage
  ({ usage with networkRxBytes := 0, networkTxBytes := 0, uptimeSeconds := host.uptime.getD 0 }, m)

def getUsage : ResourceUsage F × ResourceMonitor := readUsage host m

/-- The comparison in `is_over_limit`. -/
def exceeds (limits : ResourceLimits) (usage : ResourceUsage F) : Bool :=
  usage.memoryBytes > limits.memoryBytes || usage.cpuPercent > limits.cpuPercent || usage.pidsCurrent > limits.pidsMax

def isOverLimit : Bool × ResourceMonitor :=
  let (usage, m) := readUsage host m
  (exceeds m.limits usage, m)

end

/-! ## What one reading gives -/

theorem ioLine_frame (usage : ResourceUsage F) (line : Bytes) : (ioLine usage line).memoryBytes = usage.memoryBytes ∧
    (ioLine usage line).cpuPercent = usage.cpuPercent ∧ (ioLine usage line).pidsCurrent = usage.pidsCurrent := by
  unfold ioLine
  split
  · exact ⟨rfl, rfl, rfl⟩
  · split <;> exact ⟨rfl, rfl, rfl⟩

theorem readIo_frame (text : Option Bytes) (usage : ResourceUsage F) :
    (readIo text usage).memoryBytes = usage.memoryBytes ∧ (readIo text usage).cpuPercent = usage.cpuPercent ∧
      (readIo text usage).pidsCurrent = usage.pidsCurrent := by
  unfold readIo
  induction (text.map getlines).getD [] generalizing usage with
  | nil => exact ⟨rfl, rfl, rfl⟩
  | cons line lines ih =>
    obtain ⟨hmem, hcpu, hpids⟩ := ioLine_frame usage line
    obtain ⟨hmem', hcpu', hpids'⟩ := ih (ioLine usage line)
    exact ⟨hmem'.trans hmem, hcpu'.trans hcpu, hpids'.trans hpids⟩

/-- The second literal is longer than what it is compared with. -/
theorem statusLine_eq (usage : ResourceUsage F) (line : Bytes) : statusLine usage line =
    if (ascii "VmRSS:").isPrefixOf line then
      { usage with memoryBytes := field64 usage.memoryBytes (line.drop 6) * 1024 }
    else usage := by
  have hstarts : (ascii "VmRSS:").isPrefixOf line = true ↔ line.take 6 = ascii "VmRSS:" := by
    rw [List.isPrefixOf_iff_prefix, List.prefix_iff_eq_take]
    exact eq_comm
  have hthreads : line.take 4 ≠ ascii "Threads:" := by
    intro h
    have hlen := congrArg List.length h
    have hname : (ascii "Threads:").length = 8 := rfl
    rw [List.length_take, hname] at hlen
    omega
  unfold statusLine
  rw [if_neg hthreads]
  simp only [hstarts]

theorem readStatus_frame (text : Option Bytes) (usage : ResourceUsage F) :
    (readStatus text usage).cpuPercent = usage.cpuPercent ∧ (readStatus text usage).pidsCurrent = usage.pidsCurrent := by
  unfold readStatus
  induction (text.map getlines).getD [] generalizing usage with
  | nil => exact ⟨rfl, rfl⟩
  | cons line lines ih =>
    have hline : (statusLine usage line).cpuPercent = usage.cpuPercent ∧
        (statusLine usage line).pidsCurrent = usage.pidsCurrent := by
      rw [statusLine_eq]
      split <;> exact ⟨rfl, rfl⟩
    obtain ⟨hcpu, hpids⟩ := ih (statusLine usage line)
    exact ⟨hcpu.trans hline.1, hpids.trans hline.2⟩

/-- The memory comes from the lines of that name, the last one at the end. -/
theorem readStatus_memory (text : Bytes) (usage : ResourceUsage F) : (readStatus (some text) usage).memoryBytes =
    ((getlines text).filter (ascii "VmRSS:").isPrefixOf).foldl (fun mem line => field64 mem (line.drop 6) * 1024)
      usage.memoryBytes := by
  change ((getlines text).foldl statusLine usage).memoryBytes = _
  induction getlines text generalizing usage with
  | nil => rfl
  | cons line lines ih =>
    rw [List.foldl_cons, ih, statusLine_eq, List.filter_cons]
    split <;> rfl

section
variable [Zero F] (host : Host F) (m : ResourceMonitor)

/-- The three values of a reading that have limits, and the baseline it leaves. -/
theorem readUsage_spec :
    (readUsage host m).1.memoryBytes =
        (readStatus (host.proc m.targetPid).status { uptimeSeconds := (0 : F) }).memoryBytes ∧
      (readUsage host m).1.cpuPercent =
        ((totalTime host m.targetPid).map (cpuPercent host m.prevCpuTime)).getD 0 ∧
      (readUsage host m).1.pidsCurrent = 0 ∧
      (readUsage host m).2 =
        { m with prevCpuTime := (totalTime host m.targetPid).getD m.prevCpuTime } := by
  obtain ⟨hcpu, hpids⟩ := readStatus_frame (host.proc m.targetPid).status { uptimeSeconds := (0 : F) }
  simp only [readUsage, readStat]
  cases totalTime host m.targetPid with
  | none =>
    obtain ⟨hmem', hcpu', hpids'⟩ := readIo_frame (host.proc m.targetPid).io
      (readStatus (host.proc m.targetPid).status { uptimeSeconds := (0 : F) })
    exact ⟨hmem', hcpu'.trans hcpu, hpids'.trans hpids, rfl⟩
  | some total =>
    obtain ⟨hmem', hcpu', hpids'⟩ := readIo_frame (host.proc m.targetPid).io
      { readStatus (host.proc m.targetPid).status { uptimeSeconds := (0 : F) } with
        cpuPercent := cpuPercent host m.prevCpuTime total }
    exact ⟨hmem', hcpu', hpids'.trans hpids, rfl⟩

end

/-! ## Memory and threads -/

/-- One line of the text begins with the name: it goes on with white space, the number and the unit. -/
def OnlyLine (name : Bytes) (n : Nat) (unit text : Bytes) : Prop :=
  ∃ blank, (∀ b ∈ blank, isSpaceByte b = true) ∧
    (getlines text).filter name.isPrefixOf = [name ++ (blank ++ (toDecimal n ++ unit))]

/-- The length of the name is the number of bytes skipped. -/
theorem readStatus_vmRSS {text : Bytes} {k : Nat} (hk : k < 2 ^ 54) (htext : OnlyLine (ascii "VmRSS:") k (ascii " kB") text)
    (usage : ResourceUsage F) : (readStatus (some text) usage).memoryBytes.toNat = 1024 * k := by
  obtain ⟨blank, hblank, hlines⟩ := htext
  have hdrop : (ascii "VmRSS:" ++ (blank ++ (toDecimal k ++ ascii " kB"))).drop 6 =
      blank ++ (toDecimal k ++ ascii " kB") := List.drop_left' rfl
  have hunit : NoDigitFirst (ascii " kB") := by
    intro b hb
    cases hb
    rfl
  have hread : field64 usage.memoryBytes (blank ++ (toDecimal k ++ ascii " kB")) = UInt64.ofNat k := by
    rw [field64, IStream.unsigned_toDecimal (by omega) _ hblank hunit]
  rw [readStatus_memory, hlines, List.foldl_cons, List.foldl_nil, hdrop, hread, UInt64.toNat_mul, UInt64.toNat_ofNat']
  have h1024 : (1024 : UInt64).toNat = 1024 := rfl
  rw [h1024, Nat.mod_eq_of_lt (show k < 2 ^ 64 by omega), Nat.mod_eq_of_lt (by omega)]
  omega

/-- **The status parser.** Memory and thread count come out as they are in the text, and too many threads are over the limit,
    exactly when there are none. -/
theorem status_read_iff [Zero F] (host : Host F) (m : ResourceMonitor) {text : Bytes} {k n : Nat}
    (hstatus : (host.proc m.targetPid).status = some text) (hk : k < 2 ^ 54)
    (hmem : OnlyLine (ascii "VmRSS:") k (ascii " kB") text) (hthreads : OnlyLine (ascii "Threads:") n [] text) :
    ((getUsage host m).1.memoryBytes.toNat = 1024 * k ∧ (getUsage host m).1.pidsCurrent.toNat = n ∧
      (m.limits.pidsMax.toNat < n → (isOverLimit host m).1 = true)) ↔ n = 0 := by
  obtain ⟨hmemory, -, hpids, -⟩ := readUsage_spec host m
  rw [hstatus] at hmemory
  rw [getUsage, hmemory, hpids, readStatus_vmRSS hk hmem]
  constructor
  · rintro ⟨-, hzero, -⟩
    exact hzero.symm
  · rintro rfl
    refine ⟨rfl, rfl, ?_⟩
    intro h
    exact absurd h (Nat.not_lt_zero _)

theorem hundred_pos : (0 : UInt64) < 100 := by decide

/-- A system on which every process has this status. -/
def statusHost (text : String) : Host ℚ := ⟨fun _ => ⟨some (ascii text), none, none⟩, none, 100, hundred_pos⟩

def monitor : ResourceMonitor := { targetPid := 7, limits := {} }

/-- 5 kB and no thread. -/
theorem status_read_iff_idle :
    let host := statusHost "Name:\tsh\nVmRSS:\t5 kB\nThreads:\t0\n"
    (getUsage host monitor).1.memoryBytes.toNat = 1024 * 5 ∧ (getUsage host monitor).1.pidsCurrent.toNat = 0 ∧
      (64 < 0 → (isOverLimit host monitor).1 = true) := by
  intro host
  have htab : ∀ b ∈ ascii "\t", isSpaceByte b = true := List.forall_mem_singleton.2 rfl
  have hmem : OnlyLine (ascii "VmRSS:") 5 (ascii " kB") (ascii "Name:\tsh\nVmRSS:\t5 kB\nThreads:\t0\n") :=
    ⟨ascii "\t", htab, by decide⟩
  have hthreads : OnlyLine (ascii "Threads:") 0 [] (ascii "Name:\tsh\nVmRSS:\t5 kB\nThreads:\t0\n") :=
    ⟨ascii "\t", htab, by decide⟩
  exact (status_read_iff host monitor rfl (by decide) hmem hthreads).2 rfl

/-- **Threads are not counted**: 70 of them, with a limit of 64. -/
theorem threads_not_counted :
    let text := "Name:\tsh\nVmRSS:\t5 kB\nThreads:\t70\n"
    (OnlyLine (ascii "VmRSS:") 5 (ascii " kB") (ascii text) ∧ OnlyLine (ascii "Threads:") 70 [] (ascii text)) ∧
      monitor.limits.pidsMax = 64 ∧ (getUsage (statusHost text) monitor).1.pidsCurrent = 0 ∧
      (isOverLimit (statusHost text) monitor).1 = false := by
  intro text
  have htab : ∀ b ∈ ascii "\t", isSpaceByte b = true := List.forall_mem_singleton.2 rfl
  refine ⟨⟨⟨ascii "\t", htab, by decide⟩, ⟨ascii "\t", htab, by decide⟩⟩, rfl, ?_, ?_⟩
  · exact (readUsage_spec _ _).2.2.1
  · decide

end RedisOps.Resource
