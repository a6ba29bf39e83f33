import RedisOps.Resource.Usage

/-!
# Usage and verdict of a monitor (`sandbox/src/resource_monitor.cpp:273-300`)

`get_all_usage` and `get_global_stats` read every monitor twice in a row, once for the usage and once for the verdict. The first
reading moves the baseline of the CPU time, so in the second one no time has passed: the verdict never sees the CPU
(`isOverLimit_again`). `verdicts_agree_iff`: usage and verdict agree exactly when no monitor is over its CPU limit alone.
-/

namespace RedisOps.Resource

open Lib

variable {F : Type}

/-- `std::unordered_map`: the monitors in the order in which it gives them. -/
structure ResourceManager where
  monitors : List (Bytes × ResourceMonitor)
  nodup : (monitors.map Prod.fst).Nodup

structure SandboxUsage (F : Type) where
  sandboxId : Bytes
  usage : ResourceUsage F
  overLimit : Bool

structure GlobalStats where
  totalMemoryUsed : UInt64 := 0
  totalCpuPercent : UInt32 := 0
  totalPids : UInt32 := 0
  totalSandboxes : UInt64 := 0
  sandboxesOverLimit : UInt64 := 0

/-- One round over the map: what `f` gives for each monitor, and the monitors as it leaves them. -/
def ResourceManager.visit {β : Type} (f : ResourceMonitor → β × ResourceMonitor) (mgr : ResourceManager) :
    List (Bytes × β) × ResourceManager :=
  (mgr.monitors.map fun x => (x.1, (f x.2).1),
    { monitors := mgr.monitors.map fun x => (x.1, (f x.2).2)
      nodup := by
        rw [List.map_map]
        exact mgr.nodup })

section
variable [Zero F] (host : Host F)

/-- `monitor->get_usage()`, then `monitor->is_over_limit()`. -/
def readTwice (m : ResourceMonitor) : (ResourceUsage F × Bool) × ResourceMonitor :=
  let (usage, m) := getUsage host m
  let (verdict, m) := isOverLimit host m
  ((usage, verdict), m)

def getAllUsage (mgr : ResourceManager) : List (SandboxUsage F) × ResourceManager :=
  let (read, mgr) := mgr.visit (readTwice host)
  (read.map fun x => ⟨x.1, x.2.1, x.2.2⟩, mgr)

/-- The body of the loop, for one reading. -/
def GlobalStats.add (stats : GlobalStats) (read : ResourceUsage F × Bool) : GlobalStats where
  totalMemoryUsed := stats.totalMemoryUsed + read.1.memoryBytes
  totalCpuPercent := stats.totalCpuPercent + read.1.cpuPercent
  totalPids := stats.totalPids + read.1.pidsCurrent
  totalSandboxes := stats.totalSandboxes + 1
  sandboxesOverLimit := if read.2 then stats.sandboxesOverLimit + 1 else stats.sandboxesOverLimit

def getGlobalStats (mgr : ResourceManager) : GlobalStats × ResourceManager :=
  let (read, mgr) := mgr.visit (readTwice host)
  (read.foldl (fun stats x => stats.add x.2) {}, mgr)

/-! ## The second reading -/

/-- The CPU time since the baseline is over the limit. -/
def CpuOver (m : ResourceMonitor) : Prop :=
  ∃ total, totalTime host m.targetPid = some total ∧ m.limits.cpuPercent < cpuPercent host m.prevCpuTime total

/-- The memory in `/proc/<pid>/status` is over the limit. -/
def MemoryOver (m : ResourceMonitor) : Prop :=
  m.limits.memoryBytes < (readStatus (host.proc m.targetPid).status { uptimeSeconds := (0 : F) }).memoryBytes

variable {host} {m : ResourceMonitor}

omit [Zero F] in
theorem cpuPercent_self (total : UInt64) : cpuPercent host total total = 0 := by
  simp [cpuPercent]

theorem exceeds_getUsage : exceeds m.limits (getUsage host m).1 = true ↔ MemoryOver host m ∨ CpuOver host m := by
  obtain ⟨hmem, hcpu, hpids, -⟩ := readUsage_spec host m
  rw [getUsage, exceeds, hmem, hcpu, hpids]
  cases htotal : totalTime host m.targetPid with
  | none => simp [MemoryOver, CpuOver, htotal]
  | some total => simp [MemoryOver, CpuOver, htotal]

/-- No time has passed since the reading before. -/
theorem isOverLimit_again : (isOverLimit host (getUsage host m).2).1 = true ↔ MemoryOver host m := by
  obtain ⟨-, -, -, hbase⟩ := readUsage_spec host m
  obtain ⟨hmem, hcpu, hpids, hbase'⟩ := readUsage_spec host (getUsage host m).2
  rw [getUsage, hbase] at hmem hcpu hpids hbase'
  rw [isOverLimit, getUsage, hbase]
  simp only [exceeds, hmem, hcpu, hpids, hbase']
  cases htotal : totalTime host m.targetPid with
  | none => simp [MemoryOver]
  | some total => simp [MemoryOver, cpuPercent_self]

theorem readTwice_agrees_iff : (readTwice host m).1.2 = exceeds m.limits (readTwice host m).1.1 ↔
    (CpuOver host m → MemoryOver host m) := by
  have hverdict : (readTwice host m).1.2 = true ↔ MemoryOver host m := isOverLimit_again
  have husage : exceeds m.limits (readTwice host m).1.1 = true ↔ MemoryOver host m ∨ CpuOver host m := exceeds_getUsage
  rw [Bool.eq_iff_iff, hverdict, husage]
  tauto

omit [Zero F] in
theorem overLimit_foldl (read : List (Bytes × (ResourceUsage F × Bool))) (stats : GlobalStats) :
    (read.foldl (fun stats x => stats.add x.2) stats).sandboxesOverLimit =
      stats.sandboxesOverLimit + UInt64.ofNat (read.countP fun x => x.2.2) := by
  induction read generalizing stats with
  | nil => simp
  | cons x read ih =>
    rw [List.foldl_cons, ih, List.countP_cons, UInt64.ofNat_add]
    cases hx : x.2.2 with
    | false => simp [GlobalStats.add, hx]
    | true =>
      have hone : UInt64.ofNat 1 = 1 := rfl
      simp only [GlobalStats.add, hx, if_true, hone]
      rw [UInt64.add_assoc, UInt64.add_comm 1]

/-- **Usage and verdict.** Every verdict of `get_all_usage` is the one that the usage beside it gives, and `get_global_stats`
    counts the monitors whose usage exceeds a limit, exactly when no monitor is over its CPU limit and not over that of the
    memory. -/
theorem verdicts_agree_iff (host : Host F) (mgr : ResourceManager) :
    ((∀ e ∈ (getAllUsage host mgr).1, ∀ m, (e.sandboxId, m) ∈ mgr.monitors → e.overLimit = exceeds m.limits e.usage) ∧
      (getGlobalStats host mgr).1.sandboxesOverLimit =
        UInt64.ofNat (mgr.monitors.countP fun x => exceeds x.2.limits (getUsage host x.2).1)) ↔
      ∀ x ∈ mgr.monitors, CpuOver host x.2 → MemoryOver host x.2 := by
  have hentries : (getAllUsage host mgr).1 =
      mgr.monitors.map fun x => ⟨x.1, (readTwice host x.2).1.1, (readTwice host x.2).1.2⟩ := by
    simp [getAllUsage, ResourceManager.visit]
  have hcount : (getGlobalStats host mgr).1.sandboxesOverLimit =
      UInt64.ofNat (mgr.monitors.countP fun x => (readTwice host x.2).1.2) := by
    simp only [getGlobalStats, ResourceManager.visit, overLimit_foldl, List.countP_map]
    exact UInt64.zero_add _
  rw [hentries, hcount]
  constructor
  · rintro ⟨h, -⟩ ⟨id, m⟩ hx
    exact readTwice_agrees_iff.1 (h _ (List.mem_map_of_mem hx) m hx)
  · intro h
    constructor
    · intro e he m hm
      obtain ⟨⟨id, m'⟩, hx, rfl⟩ := List.mem_map.1 he
      have hsame : m = m' := congrArg Prod.snd (List.inj_on_of_nodup_map mgr.nodup hm hx rfl)
      subst hsame
      exact readTwice_agrees_iff.2 (h _ hx)
    · congr 1
      apply List.countP_congr
      intro x hx
      have hagree : (readTwice host x.2).1.2 = exceeds x.2.limits (getUsage host x.2).1 := readTwice_agrees_iff.2 (h x hx)
      rw [hagree]

end

/-- A system on which every process has used 9000 ticks. -/
def busyHost : Host ℚ :=
  ⟨fun _ => ⟨none, some (ascii "7 (sh) R 1 7 7 0 -1 0 0 0 0 0 8000 1000"), none⟩, none, 100, hundred_pos⟩

/-- **A busy process is not over its limit**: 9000 percent of a CPU are reported, of which 50 are allowed. -/
theorem busy_not_over_limit :
    let mgr : ResourceManager := ⟨[(ascii "job", { targetPid := 7, limits := {} })], by decide⟩
    ((getAllUsage busyHost mgr).1.map fun e => (e.usage.cpuPercent, e.overLimit)) = [(9000, false)] ∧
      (getGlobalStats busyHost mgr).1.totalCpuPercent = 9000 ∧
      (getGlobalStats busyHost mgr).1.sandboxesOverLimit = 0 := by
  decide

end RedisOps.Resource
