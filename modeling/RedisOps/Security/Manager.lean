import RedisOps.Lib.Window
import RedisOps.Security

/-!
# Profiles, limits and the audit log

| here | there |
| --- | --- |
| `Profile` | `SecurityProfile` (`sandbox/include/devops/security.hpp:11-50`), what `apply_profile` reads of it |
| `Manager`, `Call.perform` | `create_profile` … `apply_profile`, `log_audit` (`sandbox/src/security.cpp:54-102`, `:187-205`) |
| `getAuditLog` | `get_audit_log` (`:207-216`) |
| `Process` | the process the manager is in: its limits, `fs.nr_open`, and what it has given to `system` |

`apply_profile` has a `pid`, but `setrlimit` is about the process that calls it, and its result is not looked at. It sets the soft
and the hard limit to one value, which the kernel compares with the hard limit: without privilege the first call may still
raise a soft limit up to the hard one, and from there on both only go down (`profiles_applied`). The size of files is
multiplied in 32 bits, and with 4096 megabytes the limit is zero (`fsize_zero_iff`).

Left out: printing, security modules of the kernel, and the fields of a profile that nothing reads.
-/

namespace RedisOps.Security

open Lib

structure Profile extends SecurityProfile where
  readonlyPaths : List Bytes := []
  allowNetwork : Bool := false
  maxMemoryBytes : UInt64 := 256 * 1024 * 1024
  maxProcesses : UInt32 := 64
  maxOpenFiles : UInt32 := 1024
  maxFileSizeMb : UInt32 := 100

inductive Resource | as | nproc | nofile | fsize
  deriving DecidableEq, Repr

/-- The limit that is asked for, soft and hard. -/
def Profile.limit (p : Profile) : Resource → Nat
  | .as => p.maxMemoryBytes.toNat
  | .nproc => p.maxProcesses.toNat
  | .nofile => p.maxOpenFiles.toNat
  | .fsize => (p.maxFileSizeMb * 1024 * 1024).toNat

theorem fsize_zero_iff (p : Profile) : p.limit .fsize = 0 ↔ 4096 ∣ p.maxFileSizeMb.toNat := by
  simp only [Profile.limit, UInt32.toNat_mul]
  change p.maxFileSizeMb.toNat * 1024 % 2 ^ 32 * 1024 % 2 ^ 32 = 0 ↔ _
  omega

/-! ## The process -/

structure Rlimit where
  cur : Nat
  max : Nat
  deriving DecidableEq

/-- `privileged`: with `CAP_SYS_RESOURCE`. `nrOpen`: `fs.nr_open`. -/
structure Process where
  privileged : Bool
  nrOpen : Nat
  limits : Resource → Rlimit
  commands : List Bytes

/-- No hard limit on open files is above `fs.nr_open`, whoever asks. -/
def Process.admits (proc : Process) (r : Resource) (limit : Nat) : Bool := r ≠ .nofile ∨ limit ≤ proc.nrOpen

/-- Only a privileged process raises a hard limit. -/
def Process.setrlimit (proc : Process) (r : Resource) (limit : Nat) : Process :=
  if proc.admits r limit ∧ (proc.privileged ∨ limit ≤ (proc.limits r).max) then
    { proc with limits := Function.update proc.limits r ⟨limit, limit⟩ }
  else proc

def Process.system (proc : Process) (command : Bytes) : Process := { proc with commands := proc.commands ++ [command] }

structure AuditEntry where
  timestamp : Nat
  pid : Nat
  profile : Bytes
  action : Bytes
  details : Bytes
  allowed : Bool
  deriving DecidableEq

structure Manager where
  profiles : Bytes → Option Profile
  auditLog : List AuditEntry
  proc : Process

def mountCmd (path : Bytes) : Bytes := ascii "mount -o bind,remount,ro " ++ path ++ ascii " " ++ path

/-- `apply_filesystem_restrictions` -/
def applyFilesystem (proc : Process) (profile : Profile) : Process :=
  profile.readonlyPaths.foldl (fun proc path => proc.system (mountCmd path)) proc

def linkCmd (pid : Nat) : Bytes := ascii "nsenter -t " ++ toDecimal pid ++ ascii " -n ip link set lo down"

/-- `apply_network_restrictions` -/
def applyNetwork (proc : Process) (pid : Nat) (profile : Profile) : Process :=
  if profile.allowNetwork then proc
  else proc.system (linkCmd pid)

/-- `log_audit` -/
def logAudit (log : List AuditEntry) (entry : AuditEntry) : List AuditEntry :=
  let log := log ++ [entry]
  if log.length > 10000 then log.tail else log

namespace Manager

def createProfile (m : Manager) (profile : Profile) : Bool × Manager :=
  (true, { m with profiles := Function.update m.profiles profile.name (some profile) })

def deleteProfile (m : Manager) (name : Bytes) : Bool × Manager :=
  ((m.profiles name).isSome, { m with profiles := Function.update m.profiles name none })

/-- The filters and capabilities are printed and nothing else, so `success` stays. -/
def applyProfile (m : Manager) (pid : Nat) (name : Bytes) (now : Nat) : Bool × Manager :=
  match m.profiles name with
  | none => (false, m)
  | some profile =>
    let proc := if profile.readonlyPaths ≠ [] ∨ profile.blockedPaths ≠ [] then applyFilesystem m.proc profile else m.proc
    let proc := if profile.allowNetwork then proc else applyNetwork proc pid profile
    let proc := proc.setrlimit .as (profile.limit .as)
    let proc := proc.setrlimit .nproc (profile.limit .nproc)
    let proc := proc.setrlimit .nofile (profile.limit .nofile)
    let proc := proc.setrlimit .fsize (profile.limit .fsize)
    (true, { m with
      proc := proc
      auditLog := logAudit m.auditLog ⟨now, pid, name, ascii "apply", ascii "Profile applied", true⟩ })

/-- `reserve`: whether there is memory for that many entries; where there is none it throws. -/
def getAuditLog (reserve : Nat → Bool) (m : Manager) (lastN : UInt32) : Option (List AuditEntry) :=
  let start := if m.auditLog.length > lastN.toNat then m.auditLog.length - lastN.toNat else 0
  if reserve lastN.toNat then some (m.auditLog.drop start) else none

end Manager

/-! ## Calls -/

inductive Call where
  | create (profile : Profile)
  | delete (name : Bytes)
  | apply (pid : Nat) (name : Bytes) (now : Nat)

def Call.perform (m : Manager) : Call → Manager
  | .create profile => (m.createProfile profile).2
  | .delete name => (m.deleteProfile name).2
  | .apply pid name now => (m.applyProfile pid name now).2

def performAll (m : Manager) (calls : List Call) : Manager := calls.foldl Call.perform m

structure Applied where
  pid : Nat
  name : Bytes
  now : Nat
  profile : Profile

/-- The profiles that the calls apply, each as it was then. -/
def applied : (Bytes → Option Profile) → List Call → List Applied
  | _, [] => []
  | profiles, .create profile :: calls => applied (Function.update profiles profile.name (some profile)) calls
  | profiles, .delete name :: calls => applied (Function.update profiles name none) calls
  | profiles, .apply pid name now :: calls =>
    match profiles name with
    | none => applied profiles calls
    | some profile => ⟨pid, name, now, profile⟩ :: applied profiles calls

def Applied.entry (a : Applied) : AuditEntry := ⟨a.now, a.pid, a.name, ascii "apply", ascii "Profile applied", true⟩

/-- What `system` is given. -/
def Applied.commands (a : Applied) : List Bytes :=
  a.profile.readonlyPaths.map mountCmd ++ if a.profile.allowNetwork then [] else [linkCmd a.pid]

/-- The limit behind a `setrlimit` that the kernel does not refuse for `fs.nr_open`. -/
def replaced (privileged : Bool) (limit : Rlimit) (asked : Nat) : Rlimit :=
  if privileged ∨ asked ≤ limit.max then ⟨asked, asked⟩ else limit

/-! ## What they leave -/

/-- What a `setrlimit` leaves alone. -/
theorem Process.setrlimit_frame (proc : Process) (r : Resource) (limit : Nat) :
    (proc.setrlimit r limit).privileged = proc.privileged ∧ (proc.setrlimit r limit).nrOpen = proc.nrOpen ∧
      (proc.setrlimit r limit).commands = proc.commands ∧
      ∀ r', r' ≠ r → (proc.setrlimit r limit).limits r' = proc.limits r' := by
  rw [setrlimit]
  split
  · exact ⟨rfl, rfl, rfl, fun r' hne => Function.update_of_ne hne _ _⟩
  · exact ⟨rfl, rfl, rfl, fun _ _ => rfl⟩

@[simp] theorem Process.setrlimit_privileged (proc : Process) (r : Resource) (limit : Nat) :
    (proc.setrlimit r limit).privileged = proc.privileged := (proc.setrlimit_frame r limit).1

@[simp] theorem Process.setrlimit_nrOpen (proc : Process) (r : Resource) (limit : Nat) :
    (proc.setrlimit r limit).nrOpen = proc.nrOpen := (proc.setrlimit_frame r limit).2.1

@[simp] theorem Process.setrlimit_commands (proc : Process) (r : Resource) (limit : Nat) :
    (proc.setrlimit r limit).commands = proc.commands := (proc.setrlimit_frame r limit).2.2.1

@[simp] theorem Process.setrlimit_ne (proc : Process) {r r' : Resource} (hne : r' ≠ r) (limit : Nat) :
    (proc.setrlimit r limit).limits r' = proc.limits r' := (proc.setrlimit_frame r limit).2.2.2 r' hne

theorem Process.setrlimit_self (proc : Process) (r : Resource) (limit : Nat) :
    (proc.setrlimit r limit).limits r =
      if proc.admits r limit then replaced proc.privileged (proc.limits r) limit else proc.limits r := by
  rw [setrlimit, replaced]
  by_cases hadm : proc.admits r limit = true
  · by_cases hmay : proc.privileged = true ∨ limit ≤ (proc.limits r).max
    · rw [if_pos ⟨hadm, hmay⟩, if_pos hadm, if_pos hmay]
      exact Function.update_self ..
    · rw [if_neg (fun h => hmay h.2), if_pos hadm, if_neg hmay]
  · rw [if_neg (fun h => hadm h.1), if_neg hadm]

@[simp] theorem Process.setrlimit_admits (proc : Process) (r r' : Resource) (limit limit' : Nat) :
    (proc.setrlimit r limit).admits r' limit' = proc.admits r' limit' := by
  simp [admits]

theorem applyFilesystem_eq (proc : Process) (profile : Profile) :
    applyFilesystem proc profile = { proc with commands := proc.commands ++ profile.readonlyPaths.map mountCmd } := by
  rw [applyFilesystem]
  induction profile.readonlyPaths generalizing proc with
  | nil => rw [List.map_nil, List.append_nil, List.foldl_nil]
  | cons path rest ih =>
    rw [List.foldl_cons, ih, List.map_cons, ← List.singleton_append, ← List.append_assoc]
    rfl

theorem logAudit_eq {log : List AuditEntry} (h : log.length ≤ 10000) (entry : AuditEntry) :
    logAudit log entry = (log ++ [entry]).rtake 10000 := by
  rw [logAudit]
  split
  · rename_i hfull
    have hone : (log ++ [entry]).length - 10000 = 1 := by
      rw [List.length_append, List.length_singleton] at hfull ⊢
      omega
    rw [List.rtake, hone, List.drop_one]
  · rename_i hroom
    rw [rtake_of_le (Nat.le_of_not_lt hroom)]

/-- The four limits are asked for one after another, each once. -/
theorem setrlimit_all (proc : Process) (profile : Profile) (r : Resource) :
    ((((proc.setrlimit .as (profile.limit .as)).setrlimit .nproc (profile.limit .nproc)).setrlimit .nofile
      (profile.limit .nofile)).setrlimit .fsize (profile.limit .fsize)).limits r =
    if proc.admits r (profile.limit r) then replaced proc.privileged (proc.limits r) (profile.limit r) else proc.limits r := by
  cases r with
  | as => simp [Process.setrlimit_self]
  | nproc => simp [Process.setrlimit_self]
  | nofile => simp [Process.setrlimit_self]
  | fsize => simp [Process.setrlimit_self]

/-- With no path to write out the loop over the paths is empty, so that the test in front of it decides nothing. -/
theorem restrictions_eq (proc : Process) (a : Applied) :
    (if a.profile.allowNetwork then
      (if a.profile.readonlyPaths ≠ [] ∨ a.profile.blockedPaths ≠ [] then applyFilesystem proc a.profile else proc)
    else applyNetwork
      (if a.profile.readonlyPaths ≠ [] ∨ a.profile.blockedPaths ≠ [] then applyFilesystem proc a.profile else proc)
      a.pid a.profile) = { proc with commands := proc.commands ++ a.commands } := by
  have hpaths : (if a.profile.readonlyPaths ≠ [] ∨ a.profile.blockedPaths ≠ [] then applyFilesystem proc a.profile else proc) =
      applyFilesystem proc a.profile := by
    split
    · rfl
    · rename_i h
      rw [applyFilesystem, Classical.not_not.1 (not_or.1 h).1, List.foldl_nil]
  rw [hpaths, applyFilesystem_eq, Applied.commands]
  cases hn : a.profile.allowNetwork with
  | true => rw [if_pos rfl, if_pos rfl, List.append_nil]
  | false =>
    rw [if_neg Bool.false_ne_true, if_neg Bool.false_ne_true, applyNetwork, hn, if_neg Bool.false_ne_true, Process.system,
      List.append_assoc]

theorem applyProfile_some {m : Manager} {name : Bytes} {profile : Profile} (h : m.profiles name = some profile)
    (pid now : Nat) :
    (∀ r, (m.applyProfile pid name now).2.proc.limits r =
      if m.proc.admits r (profile.limit r) then replaced m.proc.privileged (m.proc.limits r) (profile.limit r)
      else m.proc.limits r) ∧
      (m.applyProfile pid name now).2.proc.privileged = m.proc.privileged ∧
      (m.applyProfile pid name now).2.proc.nrOpen = m.proc.nrOpen ∧
      (m.applyProfile pid name now).2.proc.commands = m.proc.commands ++ (Applied.mk pid name now profile).commands ∧
      (m.applyProfile pid name now).2.auditLog = logAudit m.auditLog (Applied.mk pid name now profile).entry ∧
      (m.applyProfile pid name now).2.profiles = m.profiles := by
  have hproc := restrictions_eq m.proc ⟨pid, name, now, profile⟩
  dsimp only at hproc
  simp only [Manager.applyProfile, h, hproc]
  refine ⟨?_, ?_, ?_, ?_, rfl, trivial⟩
  · intro r
    rw [setrlimit_all]
    rfl
  · simp only [Process.setrlimit_privileged]
  · simp only [Process.setrlimit_nrOpen]
  · simp only [Process.setrlimit_commands]

/-- What the applied profiles ask for, but for what no process gets. -/
def asks (proc : Process) (as : List Applied) (r : Resource) : List Nat :=
  (as.map fun a => a.profile.limit r).filter (proc.admits r)

theorem asks_cons (proc : Process) (a : Applied) (as : List Applied) (r : Resource) :
    asks proc (a :: as) r = (if proc.admits r (a.profile.limit r) then [a.profile.limit r] else []) ++ asks proc as r := by
  rw [asks, List.map_cons, List.filter_cons]
  split <;> rfl

theorem asks_congr {proc proc' : Process} (h : proc'.nrOpen = proc.nrOpen) (as : List Applied) (r : Resource) :
    asks proc' as r = asks proc as r := by
  have hadm : proc'.admits r = proc.admits r := by
    funext limit
    rw [Process.admits, Process.admits, h]
  rw [asks, asks, hadm]

/-- The audit log is a window of 10000 entries, and it is pushed to once for each profile that is applied. -/
theorem performAll_eq (calls : List Call) (m : Manager) (hlog : m.auditLog.length ≤ 10000) :
    (∀ r, (performAll m calls).proc.limits r =
      (asks m.proc (applied m.profiles calls) r).foldl (replaced m.proc.privileged) (m.proc.limits r)) ∧
    (performAll m calls).proc.commands = m.proc.commands ++ (applied m.profiles calls).flatMap Applied.commands ∧
    (performAll m calls).auditLog =
      (Window.run ⟨m.auditLog, 10000⟩ (((applied m.profiles calls).map Applied.entry).map .push)).items := by
  induction calls generalizing m with
  | nil => exact ⟨fun r => rfl, (List.append_nil _).symm, rfl⟩
  | cons call calls ih =>
    cases call with
    | create profile => exact ih (m.createProfile profile).2 hlog
    | delete name => exact ih (m.deleteProfile name).2 hlog
    | apply pid name now =>
      change (∀ r, (performAll (m.applyProfile pid name now).2 calls).proc.limits r = _) ∧
        (performAll (m.applyProfile pid name now).2 calls).proc.commands = _ ∧
        (performAll (m.applyProfile pid name now).2 calls).auditLog = _
      cases h : m.profiles name with
      | none =>
        have hsame : m.applyProfile pid name now = (false, m) := by simp only [Manager.applyProfile, h]
        rw [hsame, applied, h]
        exact ih m hlog
      | some profile =>
        obtain ⟨hlimits, hprivileged, hnrOpen, hcommands, haudit, hprofiles⟩ := applyProfile_some h pid now
        rw [logAudit_eq hlog] at haudit
        have hlen : (m.applyProfile pid name now).2.auditLog.length ≤ 10000 := by
          rw [haudit, List.rtake, List.length_drop]
          omega
        obtain ⟨ihl, ihc, iha⟩ := ih _ hlen
        rw [applied, h]
        refine ⟨?_, ?_, ?_⟩
        · intro r
          rw [ihl, hlimits, hprivileged, hprofiles, asks_congr hnrOpen, asks_cons, List.foldl_append]
          split <;> rfl
        · rw [ihc, hcommands, hprofiles, List.flatMap_cons, List.append_assoc]
        · rw [iha, haudit, hprofiles, List.map_cons, List.map_cons, Window.run_cons, Window.step]

theorem le_foldl_min {asked : List Nat} {limit n : Nat} (hlimit : n ≤ limit) (h : ∀ a ∈ asked, n ≤ a) :
    n ≤ asked.foldl min limit := by
  induction asked generalizing limit with
  | nil => exact hlimit
  | cons a asked ih =>
    obtain ⟨ha, hrest⟩ := List.forall_mem_cons.1 h
    exact ih (Nat.le_min.2 ⟨hlimit, ha⟩) hrest

/-- **The run of one limit.** The hard limit is the last one asked for, or the least where the process may not raise it; the soft
    one is that too from the first time that the kernel has agreed. -/
theorem foldl_replaced (privileged : Bool) (asked : List Nat) (limit : Rlimit) :
    (asked.foldl (replaced privileged) limit).max =
        (if privileged then asked.getLastD limit.max else asked.foldl min limit.max) ∧
      (asked.foldl (replaced privileged) limit).cur =
        if ∃ a ∈ asked, privileged = true ∨ a ≤ limit.max then (asked.foldl (replaced privileged) limit).max
        else limit.cur := by
  induction asked using List.reverseRecOn with
  | nil => simp
  | append_singleton asked a ih =>
    obtain ⟨ihmax, ihcur⟩ := ih
    rw [List.foldl_append, List.foldl_cons, List.foldl_nil]
    generalize asked.foldl (replaced privileged) limit = l at ihmax ihcur
    cases privileged with
    | true =>
      simp only [if_true] at ihmax
      simp [replaced]
    | false =>
      simp only [Bool.false_eq_true, if_false, false_or] at ihmax ihcur
      have hle : asked.foldl min limit.max ≤ limit.max := by
        rw [List.foldl_min]
        exact Nat.min_le_left _ _
      by_cases hmay : a ≤ l.max
      · have hagreed : ∃ b ∈ asked ++ [a], b ≤ limit.max := ⟨a, by simp, (hmay.trans_eq ihmax).trans hle⟩
        simp only [replaced, Bool.false_eq_true, false_or, if_pos hmay, if_pos hagreed, if_false, List.foldl_append,
          List.foldl_cons, List.foldl_nil, ← ihmax, Nat.min_eq_right hmay, and_self]
      · have hmin : min l.max a = l.max := Nat.min_eq_left (Nat.le_of_not_le hmay)
        simp only [replaced, Bool.false_eq_true, false_or, if_neg hmay, if_false, List.foldl_append, List.foldl_cons,
          List.foldl_nil, ← ihmax, hmin, true_and]
        -- where the kernel has refused them all, the hard limit is the first one
        rw [ihcur]
        by_cases hagreed : ∃ b ∈ asked, b ≤ limit.max
        · obtain ⟨b, hb, hle'⟩ := hagreed
          rw [if_pos ⟨b, hb, hle'⟩, if_pos ⟨b, List.mem_append_left _ hb, hle'⟩]
        · have hnone : ¬ ∃ b ∈ asked ++ [a], b ≤ limit.max := by
            rintro ⟨b, hb, hle'⟩
            rcases List.mem_append.1 hb with hb | hb
            · exact hagreed ⟨b, hb, hle'⟩
            · rw [List.mem_singleton.1 hb] at hle'
              push Not at hagreed
              have hfirst : l.max = limit.max := by
                rw [ihmax]
                exact le_antisymm hle (le_foldl_min le_rfl fun b hb => (hagreed b hb).le)
              exact hmay (hfirst ▸ hle')
          rw [if_neg hagreed, if_neg hnone]

theorem getAuditLog_eq (reserve : Nat → Bool) (m : Manager) (n : UInt32) :
    m.getAuditLog reserve n = if reserve n.toNat then some (m.auditLog.rtake n.toNat) else none := by
  rw [Manager.getAuditLog, List.rtake]
  congr 3
  split
  · rfl
  · rename_i h
    rw [Nat.sub_eq_zero_of_le (Nat.le_of_not_lt h)]

/-- **The hard limits of an unprivileged process only ever go down**, to the least that an applied profile has asked for;
    those of a privileged one are what the last profile asks for, `fs.nr_open` permitting. The soft limit stays until the
    kernel agrees to a profile's for the first time, and is the hard limit from then on. `system` gets the commands of the
    profiles applied and no others, and the log has the last 10000 of the profiles, `getAuditLog` the last of these where
    there is memory for as many as it is asked for. -/
theorem profiles_applied (reserve : Nat → Bool) (profiles : Bytes → Option Profile) (proc : Process) (calls : List Call)
    (r : Resource) (n : UInt32) :
    let m := performAll ⟨profiles, [], proc⟩ calls
    let asked := asks proc (applied profiles calls) r
    (m.proc.limits r).max =
        (if proc.privileged then asked.getLastD (proc.limits r).max else asked.foldl min (proc.limits r).max) ∧
      (m.proc.limits r).cur =
        (if ∃ a ∈ asked, proc.privileged = true ∨ a ≤ (proc.limits r).max then (m.proc.limits r).max
        else (proc.limits r).cur) ∧
      m.proc.commands = proc.commands ++ (applied profiles calls).flatMap Applied.commands ∧
      m.auditLog = ((applied profiles calls).map Applied.entry).rtake 10000 ∧
      m.getAuditLog reserve n =
        if reserve n.toNat then some (((applied profiles calls).map Applied.entry).rtake (min n.toNat 10000)) else none := by
  intro m asked
  obtain ⟨hlimits, hcommands, haudit⟩ := performAll_eq calls ⟨profiles, [], proc⟩ (Nat.zero_le _)
  have hlog : m.auditLog = ((applied profiles calls).map Applied.entry).rtake 10000 := by
    rw [Window.run_push _ (by simp), List.nil_append] at haudit
    exact haudit
  obtain ⟨hmax, hcur⟩ := foldl_replaced proc.privileged asked (proc.limits r)
  refine ⟨?_, ?_, hcommands, hlog, ?_⟩
  · rw [hlimits r]
    exact hmax
  · rw [hlimits r]
    exact hcur
  · rw [getAuditLog_eq, hlog, rtake_rtake]

/-- A soft limit of 1024 open files goes up to 4096, and then down to 64 for good. -/
example :
    let proc : Process := ⟨false, 1048576, fun _ => ⟨1024, 4096⟩, []⟩
    let ask (limit : Nat) (proc : Process) := proc.setrlimit .nofile limit
    ((ask 4096 proc).limits .nofile, (ask 4096 (ask 64 proc)).limits .nofile) = (⟨4096, 4096⟩, ⟨64, 64⟩) := by
  decide

end RedisOps.Security
