import RedisOps.Netns.Namespace

/-!
# The addresses of the namespaces (`sandbox/src/netns.cpp:58-107`, `:218-239`)

Any calls of `create_namespace` and `remove_namespace` on one manager, with all commands succeeding (`performAll`). What a call
does is said once, by `perform_create` and `perform_remove`; the rest follows from it by induction on the calls.

The address that is recorded ends in the number of the namespace (`recorded_of_few`), the one that is configured is that of the
subnet itself, every time. So `addresses_iff`: all is well exactly while no namespace is there.
-/

namespace RedisOps.Netns

open Lib

inductive Call
  | create (sandboxId : Bytes)
  | remove (sandboxId : Bytes)
  deriving DecidableEq

/-- A manager and the commands that were given. -/
structure Session where
  manager : NetworkManager
  log : List IpCmd := []

/-- A command succeeds. -/
def succeed (cmd : IpCmd) (log : List IpCmd) : Option (Bool × List IpCmd) := some (true, log ++ [cmd])

def Session.after {α : Type} (s : Session) (p : NetProg (α × NetworkManager)) : Session :=
  match p.run succeed s.log with
  | (some (_, manager), log) => { manager, log }
  | (none, log) => { s with log }

def Call.perform (s : Session) : Call → Session
  | .create sandboxId => s.after (s.manager.createNamespace sandboxId)
  | .remove sandboxId => s.after (s.manager.removeNamespace sandboxId)

def performAll (baseConfig : NetnsConfig) (calls : List Call) : Session :=
  calls.foldl Call.perform { manager := { baseConfig } }

/-- The addresses that were added in a namespace. -/
def addrsAt (name : Bytes) (log : List IpCmd) : List Bytes :=
  log.filterMap fun
    | .addrAdd name' addr _ => if name' = name then some addr else none
    | _ => none

/-! ## What a call does -/

/-- The commands of a creation. -/
def NetworkNamespace.creation (ns : NetworkNamespace) : List IpCmd :=
  [.netnsAdd ns.state.name, .linkAdd ns.state.vethHost ns.state.vethNs, .linkSetNetns ns.state.vethNs ns.state.name,
   .addrAdd ns.state.name (configured ns.config) ns.state.vethNs, .execLinkUp ns.state.name ns.state.vethNs,
   .execLinkUp ns.state.name (ascii "lo"), .routeAdd ns.state.name (upToLast 46 ns.config.subnet ++ ascii ".1"),
   .linkSetMaster ns.state.vethHost ns.config.bridge, .linkUp ns.state.vethHost]

def NetworkNamespace.destruction (ns : NetworkNamespace) : List IpCmd :=
  if ns.state.active then [.linkNomaster ns.state.vethHost, .linkDelete ns.state.vethHost, .netnsDelete ns.state.name] else []

theorem run_create (ns : NetworkNamespace) (log : List IpCmd) : ns.create.run succeed log =
    (some (true, { ns with
      state := { ns.state with active := true, ipAddr := NetworkNamespace.recorded ns.config } }), log ++ ns.creation) := by
  have hcmds : ns.creation.foldl (fun log cmd => log ++ [cmd]) log = log ++ ns.creation := by
    simp [NetworkNamespace.creation]
  rw [← hcmds]
  rfl

theorem run_destroy (ns : NetworkNamespace) (log : List IpCmd) : ∃ ns',
    ns.destroy.run succeed log = (some (true, ns'), log ++ ns.destruction) := by
  cases hactive : ns.state.active <;>
    simp [NetworkNamespace.destroy, NetworkNamespace.destruction, hactive, runCmdOk, Prog.run, succeed]

theorem run_destruct_ok (ns : NetworkNamespace) (log : List IpCmd) :
    ns.destruct.run succeed log = (some (), log ++ ns.destruction) := by
  unfold NetworkNamespace.destruct
  split
  · obtain ⟨ns', hdestroy⟩ := run_destroy ns log
    rw [Prog.run_bind, hdestroy]
    rfl
  · rename_i hactive
    rw [NetworkNamespace.destruction, if_neg hactive, List.append_nil]
    rfl

theorem addrsAt_creation (ns : NetworkNamespace) (name : Bytes) : addrsAt name ns.creation =
    if ns.state.name = name then [NetworkNamespace.configured ns.config] else [] := by
  unfold addrsAt NetworkNamespace.creation
  by_cases h : ns.state.name = name <;> simp [h]

theorem addrsAt_destruction (ns : NetworkNamespace) (name : Bytes) : addrsAt name ns.destruction = [] := by
  unfold NetworkNamespace.destruction
  split <;> rfl

theorem addrsAt_append (name : Bytes) (log cmds : List IpCmd) : addrsAt name (log ++ cmds) = addrsAt name log ++ addrsAt name cmds :=
  List.filterMap_append

/-- One address is added, in the new namespace. -/
theorem perform_create (s : Session) (sandboxId : Bytes) : ∃ ns cmds,
    (Call.create sandboxId).perform s =
      { manager := { s.manager with
          nextIp := s.manager.nextIp + 1
          namespaces := s.manager.namespaces.insert sandboxId ns }
        log := s.log ++ cmds } ∧
    ns.state.active = true ∧ ns.state.name = nsName sandboxId ∧
    ns.state.ipAddr = NetworkNamespace.recorded (s.manager.nsConfig sandboxId) ∧
    ∀ name, addrsAt name cmds =
      if nsName sandboxId = name then [NetworkNamespace.configured (s.manager.nsConfig sandboxId)] else [] := by
  have hcreate := run_create (.new (s.manager.nsConfig sandboxId)) s.log
  have haddrs := addrsAt_creation (.new (s.manager.nsConfig sandboxId))
  rw [Call.perform, Session.after, NetworkManager.createNamespace, Prog.run_bind, hcreate]
  simp only [Bool.not_true, Bool.false_eq_true, if_false]
  cases s.manager.namespaces.lookup sandboxId with
  | none => exact ⟨_, _, rfl, rfl, rfl, rfl, haddrs⟩
  | some old =>
    simp only [Prog.run_bind, run_destruct_ok, List.append_assoc]
    refine ⟨_, _, rfl, rfl, rfl, rfl, ?_⟩
    intro name
    rw [addrsAt_append, haddrs, addrsAt_destruction, List.append_nil]
    rfl

theorem perform_remove (s : Session) (sandboxId : Bytes) : ∃ cmds,
    (Call.remove sandboxId).perform s =
      { manager := { s.manager with namespaces := s.manager.namespaces.erase sandboxId }
        log := s.log ++ cmds } ∧
    ∀ name, addrsAt name cmds = [] := by
  rw [Call.perform, Session.after, NetworkManager.removeNamespace]
  cases hlookup : s.manager.namespaces.lookup sandboxId with
  | none =>
    have herase : s.manager.namespaces.erase sandboxId = s.manager.namespaces :=
      AList.ext (List.kerase_of_notMem_keys (AList.lookup_eq_none.1 hlookup))
    refine ⟨[], ?_, fun _ => rfl⟩
    rw [herase, List.append_nil]
    rfl
  | some ns =>
    obtain ⟨ns', hdestroy⟩ := run_destroy ns s.log
    simp only [Prog.run_bind, hdestroy]
    exact ⟨_, rfl, addrsAt_destruction ns⟩

/-! ## Addresses of a subnet -/

/-- `a.b.c.x`. -/
def hostAddress (a b c : UInt8) (x : Nat) : Bytes :=
  toDecimal a.toNat ++ 46 :: (toDecimal b.toNat ++ 46 :: (toDecimal c.toNat ++ 46 :: toDecimal x))

/-- `a.b.c.0/24`. -/
def subnet24 (a b c : UInt8) : Bytes := hostAddress a b c 0 ++ ascii "/24"

variable {a b c : UInt8}

theorem hostAddress_injective {x y : Nat} (h : hostAddress a b c x = hostAddress a b c y) : x = y := by
  simp only [hostAddress, List.append_cancel_left_eq, List.cons.injEq, true_and] at h
  exact toDecimal_injective h

theorem slash_not_mem_hostAddress (x : Nat) : 47 ∉ hostAddress a b c x := by
  have hdigit : isDigitByte 47 = false := rfl
  simp [hostAddress, not_mem_toDecimal hdigit]

theorem configured_eq {config : NetnsConfig} (h : config.subnet = subnet24 a b c) :
    NetworkNamespace.configured config = hostAddress a b c 0 := by
  rw [NetworkNamespace.configured, h, subnet24]
  exact upTo_append (slash_not_mem_hostAddress 0) _

theorem recorded_eq {config : NetnsConfig} (h : config.subnet = subnet24 a b c) :
    NetworkNamespace.recorded config = hostAddress a b c config.nextIp.toNat := by
  have hdot : 46 ∉ toDecimal 0 := not_mem_toDecimal rfl 0
  have hnet : upToLast 46 (hostAddress a b c 0) =
      toDecimal a.toNat ++ 46 :: (toDecimal b.toNat ++ 46 :: toDecimal c.toNat) := by
    have hsplit : hostAddress a b c 0 =
        (toDecimal a.toNat ++ 46 :: (toDecimal b.toNat ++ 46 :: toDecimal c.toNat)) ++ 46 :: toDecimal 0 := by
      simp [hostAddress]
    rw [hsplit, upToLast_append _ hdot]
  rw [NetworkNamespace.recorded, ← NetworkNamespace.configured, configured_eq h, hnet]
  simp [hostAddress, ascii, charByte]

/-! ## Every run -/

/-- The namespace of a sandbox, after one was put in or taken out. -/
theorem lookup_insert_some {map : Namespaces} {id sandboxId : Bytes} {ns ns' : NetworkNamespace}
    (h : (map.insert sandboxId ns).lookup id = some ns') :
    (id = sandboxId ∧ ns' = ns) ∨ (id ≠ sandboxId ∧ map.lookup id = some ns') := by
  by_cases hid : id = sandboxId
  · subst hid
    rw [AList.lookup_insert] at h
    cases h
    exact .inl ⟨rfl, rfl⟩
  · rw [AList.lookup_insert_ne hid] at h
    exact .inr ⟨hid, h⟩

theorem lookup_erase_some {map : Namespaces} {id sandboxId : Bytes} {ns : NetworkNamespace}
    (h : (map.erase sandboxId).lookup id = some ns) : map.lookup id = some ns := by
  by_cases hid : id = sandboxId
  · subst hid
    rw [AList.lookup_erase] at h
    cases h
  · rwa [AList.lookup_erase_ne hid] at h

/-- Every namespace is active under its name, has a recorded address of the subnet, and the address of the subnet itself was
    added in it last. -/
structure SubnetInv (a b c : UInt8) (s : Session) : Prop where
  subnet : s.manager.baseConfig.subnet = subnet24 a b c
  namespaces : ∀ id ns, s.manager.namespaces.lookup id = some ns → ns.state.active = true ∧ ns.state.name = nsName id ∧
    (∃ n : UInt32, ns.state.ipAddr = hostAddress a b c n.toNat) ∧
    (addrsAt (nsName id) s.log).getLast? = some (hostAddress a b c 0)

theorem subnetInv_perform {s : Session} (h : SubnetInv a b c s) (call : Call) : SubnetInv a b c (call.perform s) := by
  cases call with
  | create sandboxId =>
    obtain ⟨ns, cmds, hperform, hactive, hname, hip, haddrs⟩ := perform_create s sandboxId
    rw [hperform]
    refine ⟨h.subnet, ?_⟩
    intro id ns' hlookup
    rcases lookup_insert_some hlookup with ⟨rfl, rfl⟩ | ⟨hid, hold⟩
    · refine ⟨hactive, hname, ⟨_, hip.trans (recorded_eq h.subnet)⟩, ?_⟩
      have hconfigured : NetworkNamespace.configured (s.manager.nsConfig id) = hostAddress a b c 0 := configured_eq h.subnet
      rw [addrsAt_append, haddrs, if_pos rfl, hconfigured]
      exact List.getLast?_concat ..
    · have hother : ¬nsName sandboxId = nsName id := fun heq => hid (List.append_cancel_left heq).symm
      rw [addrsAt_append, haddrs, if_neg hother, List.append_nil]
      exact h.namespaces id ns' hold
  | remove sandboxId =>
    obtain ⟨cmds, hperform, haddrs⟩ := perform_remove s sandboxId
    rw [hperform]
    refine ⟨h.subnet, ?_⟩
    intro id ns hlookup
    rw [addrsAt_append, haddrs, List.append_nil]
    exact h.namespaces id ns (lookup_erase_some hlookup)

theorem performAll_concat (baseConfig : NetnsConfig) (calls : List Call) (call : Call) :
    performAll baseConfig (calls ++ [call]) = call.perform (performAll baseConfig calls) := List.foldl_concat ..

variable {baseConfig : NetnsConfig}

theorem subnetInv_performAll (hsubnet : baseConfig.subnet = subnet24 a b c) (calls : List Call) :
    SubnetInv a b c (performAll baseConfig calls) := by
  induction calls using List.reverseRecOn with
  | nil => exact ⟨hsubnet, fun _ _ h => nomatch h⟩
  | append_singleton calls call ih =>
    rw [performAll_concat]
    exact subnetInv_perform ih call

/-- The last call about a sandbox is a creation. -/
def Open (calls : List Call) (sandboxId : Bytes) : Prop :=
  ∃ before behind, calls = before ++ .create sandboxId :: behind ∧ .remove sandboxId ∉ behind

theorem open_concat_iff {calls : List Call} {call : Call} {sandboxId : Bytes} : Open (calls ++ [call]) sandboxId ↔
    call = .create sandboxId ∨ (call ≠ .remove sandboxId ∧ Open calls sandboxId) := by
  constructor
  · rintro ⟨before, behind, hsplit, hopen⟩
    cases behind using List.reverseRecOn with
    | nil =>
      obtain ⟨-, hlast⟩ := List.append_inj' hsplit rfl
      exact .inl (List.singleton_inj.1 hlast)
    | append_singleton behind last =>
      rw [← List.cons_append, ← List.append_assoc] at hsplit
      obtain ⟨hfront, hlast⟩ := List.append_inj' hsplit rfl
      obtain rfl := List.singleton_inj.1 hlast
      rw [List.mem_append, List.mem_singleton, not_or] at hopen
      exact .inr ⟨fun h => hopen.2 h.symm, before, behind, hfront, hopen.1⟩
  · rintro (rfl | ⟨hne, before, behind, rfl, hopen⟩)
    · exact ⟨calls, [], rfl, List.not_mem_nil⟩
    · refine ⟨before, behind ++ [call], by simp, ?_⟩
      rw [List.mem_append, List.mem_singleton, not_or]
      exact ⟨hopen, fun h => hne h.symm⟩

/-- The manager has the namespaces that were created last and not removed. -/
theorem lookup_isSome_iff (calls : List Call) (sandboxId : Bytes) :
    ((performAll baseConfig calls).manager.namespaces.lookup sandboxId).isSome ↔ Open calls sandboxId := by
  induction calls using List.reverseRecOn with
  | nil =>
    refine iff_of_false (by simp [performAll]) ?_
    rintro ⟨before, behind, hsplit, -⟩
    simp at hsplit
  | append_singleton calls call ih =>
    rw [performAll_concat, open_concat_iff, ← ih]
    cases call with
    | create id =>
      obtain ⟨ns, cmds, hperform, -⟩ := perform_create (performAll baseConfig calls) id
      rw [hperform]
      by_cases hid : sandboxId = id
      · subst hid
        simp
      · simp [AList.lookup_insert_ne hid, Ne.symm hid]
    | remove id =>
      obtain ⟨cmds, hperform, -⟩ := perform_remove (performAll baseConfig calls) id
      rw [hperform]
      by_cases hid : sandboxId = id
      · subst hid
        simp
      · simp [AList.lookup_erase_ne hid, Ne.symm hid]

/-! ## Valid and unique addresses -/

/-- The recorded addresses of the namespaces are hosts of the subnet, and no two are the same. -/
structure RecordedGood (a b c : UInt8) (s : Session) : Prop where
  host : ∀ id ns, s.manager.namespaces.lookup id = some ns → ns.state.active = true →
    ∃ x, 2 ≤ x ∧ x ≤ 254 ∧ ns.state.ipAddr = hostAddress a b c x
  unique : ∀ id ns id' ns', s.manager.namespaces.lookup id = some ns → ns.state.active = true →
    s.manager.namespaces.lookup id' = some ns' → ns'.state.active = true → ns.state.ipAddr = ns'.state.ipAddr → id = id'

/-- The namespaces by the number of their creation. -/
structure Numbered (a b c : UInt8) (s : Session) (created : Nat) (number : Bytes → Nat) : Prop where
  nextIp : s.manager.nextIp = UInt32.ofNat (2 + created)
  recorded : ∀ id ns, s.manager.namespaces.lookup id = some ns → number id < created ∧
    ns.state.ipAddr = hostAddress a b c (UInt32.ofNat (2 + number id)).toNat
  unique : ∀ id id', (s.manager.namespaces.lookup id).isSome → (s.manager.namespaces.lookup id').isSome →
    number id = number id' → id = id'

def creations (calls : List Call) : Nat := calls.countP fun
  | .create _ => true
  | .remove _ => false

theorem numbered_create {s : Session} {created : Nat} {number : Bytes → Nat}
    (hsubnet : s.manager.baseConfig.subnet = subnet24 a b c) (h : Numbered a b c s created number) (sandboxId : Bytes) :
    Numbered a b c ((Call.create sandboxId).perform s) (created + 1) (Function.update number sandboxId created) := by
  obtain ⟨ns, cmds, hperform, -, -, hip, -⟩ := perform_create s sandboxId
  have hfresh : ∀ id, (s.manager.namespaces.lookup id).isSome → number id < created := by
    intro id hid
    obtain ⟨ns', hns'⟩ := Option.isSome_iff_exists.1 hid
    exact (h.recorded id ns' hns').1
  rw [hperform]
  refine ⟨?_, ?_, ?_⟩
  · have hnext : s.manager.nextIp + 1 = UInt32.ofNat (2 + (created + 1)) := by
      rw [h.nextIp, ← Nat.add_assoc, UInt32.ofNat_add (2 + created) 1]
      rfl
    exact hnext
  · intro id ns' hlookup
    rcases lookup_insert_some hlookup with ⟨rfl, rfl⟩ | ⟨hid, hold⟩
    · rw [Function.update_self, ← h.nextIp]
      exact ⟨Nat.lt_succ_self _, hip.trans (recorded_eq hsubnet)⟩
    · rw [Function.update_of_ne hid]
      obtain ⟨hlt, hrecorded⟩ := h.recorded id ns' hold
      exact ⟨Nat.lt_succ_of_lt hlt, hrecorded⟩
  · intro id id' hid hid' heq
    by_cases hnew : id = sandboxId <;> by_cases hnew' : id' = sandboxId
    · rw [hnew, hnew']
    · subst hnew
      rw [AList.lookup_insert_ne hnew'] at hid'
      rw [Function.update_self, Function.update_of_ne hnew'] at heq
      exact absurd heq (hfresh id' hid').ne'
    · subst hnew'
      rw [AList.lookup_insert_ne hnew] at hid
      rw [Function.update_self, Function.update_of_ne hnew] at heq
      exact absurd heq (hfresh id hid).ne
    · rw [AList.lookup_insert_ne hnew] at hid
      rw [AList.lookup_insert_ne hnew'] at hid'
      rw [Function.update_of_ne hnew, Function.update_of_ne hnew'] at heq
      exact h.unique id id' hid hid' heq

theorem numbered_remove {s : Session} {created : Nat} {number : Bytes → Nat} (h : Numbered a b c s created number)
    (sandboxId : Bytes) : Numbered a b c ((Call.remove sandboxId).perform s) created number := by
  obtain ⟨cmds, hperform, -⟩ := perform_remove s sandboxId
  have hkept : ∀ id, ((s.manager.namespaces.erase sandboxId).lookup id).isSome →
      (s.manager.namespaces.lookup id).isSome := by
    intro id hid
    obtain ⟨ns, hns⟩ := Option.isSome_iff_exists.1 hid
    exact Option.isSome_iff_exists.2 ⟨ns, lookup_erase_some hns⟩
  rw [hperform]
  exact ⟨h.nextIp, fun id ns hlookup => h.recorded id ns (lookup_erase_some hlookup),
    fun id id' hid hid' => h.unique id id' (hkept id hid) (hkept id' hid')⟩

theorem numbered_performAll (hsubnet : baseConfig.subnet = subnet24 a b c) (calls : List Call) :
    ∃ number, Numbered a b c (performAll baseConfig calls) (creations calls) number := by
  induction calls using List.reverseRecOn with
  | nil => exact ⟨fun _ => 0, rfl, fun _ _ h => (nomatch h), fun _ _ h => (nomatch h)⟩
  | append_singleton calls call ih =>
    obtain ⟨number, hnumbered⟩ := ih
    rw [performAll_concat, creations, List.countP_append]
    cases call with
    | create id => exact ⟨_, numbered_create (subnetInv_performAll hsubnet calls).subnet hnumbered id⟩
    | remove id => exact ⟨_, numbered_remove hnumbered id⟩

/-- Up to the end of the octet. -/
theorem recorded_of_few (hsubnet : baseConfig.subnet = subnet24 a b c) {calls : List Call} (hfew : creations calls ≤ 253) :
    RecordedGood a b c (performAll baseConfig calls) := by
  obtain ⟨number, hnumbered⟩ := numbered_performAll hsubnet calls
  have haddr : ∀ id ns, (performAll baseConfig calls).manager.namespaces.lookup id = some ns →
      number id < 253 ∧ ns.state.ipAddr = hostAddress a b c (2 + number id) := by
    intro id ns hns
    obtain ⟨hlt, hip⟩ := hnumbered.recorded id ns hns
    rw [UInt32.toNat_ofNat', Nat.mod_eq_of_lt (by omega)] at hip
    exact ⟨by omega, hip⟩
  constructor
  · intro id ns hns _
    obtain ⟨hlt, hip⟩ := haddr id ns hns
    exact ⟨2 + number id, by omega, by omega, hip⟩
  · intro id ns id' ns' hns _ hns' _ heq
    rw [(haddr id ns hns).2, (haddr id' ns' hns').2] at heq
    have hnumber : number id = number id' := Nat.add_left_cancel (hostAddress_injective heq)
    exact hnumbered.unique id id' (Option.isSome_iff_exists.2 ⟨ns, hns⟩) (Option.isSome_iff_exists.2 ⟨ns', hns'⟩) hnumber

/-- They are the addresses that were configured, too. -/
structure AddressesGood (a b c : UInt8) (s : Session) : Prop extends RecordedGood a b c s where
  configured : ∀ id ns, s.manager.namespaces.lookup id = some ns → ns.state.active = true →
    (addrsAt ns.state.name s.log).getLast? = some ns.state.ipAddr

/-- **Addresses** are right exactly if every namespace that was created has been removed again. -/
theorem addresses_iff (hsubnet : baseConfig.subnet = subnet24 a b c) (calls : List Call) :
    AddressesGood a b c (performAll baseConfig calls) ↔
      ∀ before sandboxId behind, calls = before ++ .create sandboxId :: behind → .remove sandboxId ∈ behind := by
  have hinv := subnetInv_performAll hsubnet calls
  constructor
  · intro hgood before sandboxId behind hcalls
    by_contra hopen
    have hlookup := (@lookup_isSome_iff baseConfig calls sandboxId).2 ⟨before, behind, hcalls, hopen⟩
    obtain ⟨ns, hns⟩ := Option.isSome_iff_exists.1 hlookup
    obtain ⟨hactive, hname, -, hlast⟩ := hinv.namespaces sandboxId ns hns
    obtain ⟨x, hx, -, hip⟩ := hgood.host sandboxId ns hns hactive
    have hconfigured := hgood.configured sandboxId ns hns hactive
    rw [hname, hlast, hip, Option.some.injEq] at hconfigured
    have hzero := hostAddress_injective hconfigured
    omega
  · intro hclosed
    have hnone : ∀ id ns, (performAll baseConfig calls).manager.namespaces.lookup id ≠ some ns := by
      intro id ns hns
      obtain ⟨before, behind, hcalls, hopen⟩ := (lookup_isSome_iff calls id).1 (Option.isSome_iff_exists.2 ⟨ns, hns⟩)
      exact hopen (hclosed before id behind hcalls)
    exact
      { host := fun id ns hns => absurd hns (hnone id ns)
        unique := fun id ns _ _ hns => absurd hns (hnone id ns)
        configured := fun id ns hns => absurd hns (hnone id ns) }

/-- Created and removed. -/
theorem addresses_removed :
    AddressesGood 10 100 0 (performAll {} [.create (ascii "j"), .remove (ascii "j")]) := by
  refine (addresses_iff (a := 10) (b := 100) (c := 0) (by decide) _).2 ?_
  intro before sandboxId behind hcalls
  rcases before with _ | ⟨first, _ | ⟨second, before⟩⟩
  · cases hcalls
    exact List.mem_singleton_self _
  · cases hcalls
  · simp at hcalls

/-- **The address that is configured is not the one recorded**, for the first namespace already. -/
theorem configured_differs :
    let s := performAll {} [.create (ascii "j")]
    ((s.manager.namespaces.lookup (ascii "j")).map fun ns => (ns.state.active, ns.state.ipAddr)) =
        some (true, ascii "10.100.0.2") ∧
      addrsAt (ascii "ns-j") s.log = [ascii "10.100.0.0"] ∧ ¬AddressesGood 10 100 0 s := by
  intro s
  have hlookup : ((s.manager.namespaces.lookup (ascii "j")).map fun ns => (ns.state.active, ns.state.name, ns.state.ipAddr)) =
      some (true, ascii "ns-j", ascii "10.100.0.2") := by decide
  have haddrs : addrsAt (ascii "ns-j") s.log = [ascii "10.100.0.0"] := by decide
  obtain ⟨ns, hns, hstate⟩ := Option.map_eq_some_iff.1 hlookup
  obtain ⟨hactive, hname, hip⟩ : ns.state.active = true ∧ ns.state.name = ascii "ns-j" ∧ ns.state.ipAddr = ascii "10.100.0.2" := by
    simpa using hstate
  refine ⟨by decide, haddrs, ?_⟩
  intro hgood
  have hconfigured := hgood.configured _ ns hns hactive
  rw [hname, haddrs, hip] at hconfigured
  exact absurd hconfigured (by decide)

end RedisOps.Netns
