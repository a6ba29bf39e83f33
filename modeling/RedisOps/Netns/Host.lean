import RedisOps.Netns.Namespace

/-!
# A namespace on the host (`sandbox/src/netns.cpp`)

* `Net` — the namespaces and the pairs of links of a host, each end in a namespace or on the host itself.
* `effect` — what a command does to them, if it can be done. Addresses, routes and bridges are not part of them.
* `perform` — a command is done if it can be and is granted; else it fails and changes nothing. The grants of a run are given.

`create` stops at the first three commands only, and `destruct` does nothing for a namespace that is not active:
`failed_create_iff` says what is left behind.
-/

namespace RedisOps.Netns

open Lib

/-- A link by its name, where it is; `none` is the host. -/
abbrev LinkEnd := Bytes × Option Bytes

structure Veth where
  left : LinkEnd
  right : LinkEnd
  deriving DecidableEq

structure Net where
  namespaces : Finset Bytes
  links : Finset Veth
  deriving DecidableEq

namespace Net
variable (net : Net)

def HasLink (e : LinkEnd) : Prop := ∃ v ∈ net.links, v.left = e ∨ v.right = e

instance (e : LinkEnd) : Decidable (net.HasLink e) := by
  unfold HasLink
  infer_instance

def moveLink (e e' : LinkEnd) (v : Veth) : Veth :=
  ⟨if v.left = e then e' else v.left, if v.right = e then e' else v.right⟩

/-- A namespace takes its ends with it. -/
def InNamespace (name : Bytes) (v : Veth) : Prop := v.left.2 = some name ∨ v.right.2 = some name

instance (name : Bytes) (v : Veth) : Decidable (InNamespace name v) := by
  unfold InNamespace
  infer_instance

def effect : IpCmd → Option Net
  | .netnsAdd name =>
    if name ∈ net.namespaces then none else some { net with namespaces := insert name net.namespaces }
  | .linkAdd host peer =>
    if host = peer ∨ net.HasLink (host, none) ∨ net.HasLink (peer, none) then none
    else some { net with links := insert ⟨(host, none), (peer, none)⟩ net.links }
  | .linkSetNetns dev name =>
    if net.HasLink (dev, none) ∧ name ∈ net.namespaces ∧ ¬net.HasLink (dev, some name) then
      some { net with links := net.links.image (moveLink (dev, none) (dev, some name)) }
    else none
  | .addrAdd name _ dev => if net.HasLink (dev, some name) then some net else none
  | .execLinkUp name dev =>
    if name ∈ net.namespaces ∧ (dev = ascii "lo" ∨ net.HasLink (dev, some name)) then some net else none
  | .routeAdd name _ => if name ∈ net.namespaces then some net else none
  | .linkSetMaster dev _ => if net.HasLink (dev, none) then some net else none
  | .linkUp dev => if net.HasLink (dev, none) then some net else none
  | .linkNomaster dev => if net.HasLink (dev, none) then some net else none
  | .linkDelete dev =>
    if net.HasLink (dev, none) then
      some { net with links := net.links.filter fun v => ¬(v.left = (dev, none) ∨ v.right = (dev, none)) }
    else none
  | .netnsDelete name =>
    if name ∈ net.namespaces then
      some { namespaces := net.namespaces.erase name, links := net.links.filter fun v => ¬InNamespace name v }
    else none

end Net

/-- `granted n` is about the command number `n`. -/
structure Host where
  net : Net
  clock : Nat := 0
  granted : Nat → Bool

def perform (cmd : IpCmd) (host : Host) : Bool × Host :=
  match host.granted host.clock, host.net.effect cmd with
  | true, some net => (true, { host with net, clock := host.clock + 1 })
  | _, _ => (false, { host with clock := host.clock + 1 })

def Host.run {α : Type} (p : NetProg α) (host : Host) : Option α × Host := p.run (fun cmd host => some (perform cmd host)) host

/-- The command is done. -/
def Host.Succeeds (host : Host) (cmd : IpCmd) : Prop := host.granted host.clock = true ∧ (host.net.effect cmd).isSome

theorem perform_fails {cmd : IpCmd} {host : Host} (h : ¬host.Succeeds cmd) :
    perform cmd host = (false, { host with clock := host.clock + 1 }) := by
  unfold perform
  split
  · rename_i net hgranted heffect
    exact absurd ⟨hgranted, by rw [heffect]; rfl⟩ h
  · rfl

theorem perform_succeeds {cmd : IpCmd} {host : Host} (h : host.Succeeds cmd) : ∃ net, host.net.effect cmd = some net ∧
    perform cmd host = (true, { host with net, clock := host.clock + 1 }) := by
  obtain ⟨hgranted, heffect⟩ := h
  obtain ⟨net, hnet⟩ := Option.isSome_iff_exists.1 heffect
  exact ⟨net, hnet, by rw [perform, hgranted, hnet]⟩

/-! ## A creation that fails -/

theorem succeeds_netnsAdd_iff {host : Host} {name : Bytes} :
    host.Succeeds (.netnsAdd name) ↔ host.granted host.clock = true ∧ name ∉ host.net.namespaces := by
  rw [Host.Succeeds, Net.effect]
  split <;> simp_all

/-- What holds before a command and behind it if it is done. -/
theorem perform_inv {P : Net → Prop} {cmd : IpCmd} {host : Host} (hold : P host.net)
    (h : ∀ net, host.net.effect cmd = some net → P net) : P (perform cmd host).2.net := by
  by_cases hdone : host.Succeeds cmd
  · obtain ⟨net, hnet, hperform⟩ := perform_succeeds hdone
    rw [hperform]
    exact h net hnet
  · rw [perform_fails hdone]
    exact hold

/-- The two other commands that can stop a creation leave the namespaces alone. -/
theorem namespaces_perform {cmd : IpCmd}
    (hcmd : (∃ left right, cmd = .linkAdd left right) ∨ ∃ dev name, cmd = .linkSetNetns dev name) (host : Host) :
    (perform cmd host).2.net.namespaces = host.net.namespaces := by
  apply perform_inv (P := fun net => net.namespaces = host.net.namespaces) rfl
  intro net hnet
  rcases hcmd with ⟨left, right, rfl⟩ | ⟨dev, name, rfl⟩
  all_goals
    rw [Net.effect] at hnet
    split at hnet <;> cases hnet
    rfl

@[simp] theorem run_runCmdOk {α : Type} (cmd : IpCmd) (k : Bool → NetProg α) (host : Host) :
    host.run (runCmdOk cmd >>= k) = (perform cmd host).2.run (k (perform cmd host).1) := rfl

variable {ns ns' : NetworkNamespace} {host host' : Host}

theorem run_configure (ns : NetworkNamespace) (host : Host) : ∃ ns' host', host.run ns.configure = (some (true, ns'), host') :=
  ⟨_, _, rfl⟩

theorem run_destruct (ns : NetworkNamespace) (host : Host) : ∃ host', host.run ns.destruct = (some (), host') := by
  unfold NetworkNamespace.destruct
  split
  · rename_i hactive
    rw [NetworkNamespace.destroy, hactive]
    exact ⟨_, rfl⟩
  · exact ⟨_, rfl⟩

/-- Without the first command nothing happens. -/
theorem run_create_of_fails (h : ¬host.Succeeds (.netnsAdd ns.state.name)) :
    host.run ns.create = (some (false, ns), { host with clock := host.clock + 1 }) := by
  rw [NetworkNamespace.create, run_runCmdOk, perform_fails h]
  rfl

/-- With it the namespace is there, wherever the creation stops. -/
theorem create_failed (h : host.run ns.create = (some (false, ns'), host')) :
    ns' = ns ∧ ((¬host.Succeeds (.netnsAdd ns.state.name) ∧ host'.net = host.net) ∨
      (host.Succeeds (.netnsAdd ns.state.name) ∧ ns.state.name ∈ host'.net.namespaces)) := by
  by_cases hadd : host.Succeeds (.netnsAdd ns.state.name)
  · obtain ⟨net, hnet, hperform⟩ := perform_succeeds hadd
    have hmem : ns.state.name ∈ net.namespaces := by
      rw [Net.effect] at hnet
      split at hnet <;> cases hnet
      exact Finset.mem_insert_self _ _
    rw [NetworkNamespace.create, run_runCmdOk, hperform] at h
    simp only [Bool.not_true, Bool.false_eq_true, if_false, run_runCmdOk] at h
    have hlink := namespaces_perform (.inl ⟨ns.state.vethHost, ns.state.vethNs, rfl⟩) { host with net, clock := host.clock + 1 }
    generalize perform (.linkAdd ns.state.vethHost ns.state.vethNs) { host with net, clock := host.clock + 1 } = linked at h hlink
    obtain ⟨ok, linked⟩ := linked
    cases ok with
    | false =>
      cases h
      exact ⟨rfl, .inr ⟨hadd, hlink ▸ hmem⟩⟩
    | true =>
      simp only [Bool.not_true, Bool.false_eq_true, if_false, run_runCmdOk] at h
      have hmoved := namespaces_perform (.inr ⟨ns.state.vethNs, ns.state.name, rfl⟩) linked
      generalize perform (.linkSetNetns ns.state.vethNs ns.state.name) linked = moved at h hmoved
      obtain ⟨ok, moved⟩ := moved
      cases ok with
      | false =>
        cases h
        exact ⟨rfl, .inr ⟨hadd, hmoved ▸ hlink ▸ hmem⟩⟩
      | true =>
        obtain ⟨_, _, hconfigure⟩ := run_configure ns moved
        cases hconfigure.symm.trans h
  · rw [run_create_of_fails hadd] at h
    cases h
    exact ⟨rfl, .inl ⟨hadd, rfl⟩⟩

theorem run_bind {α β : Type} (p : NetProg α) (k : α → NetProg β) (host : Host) : host.run (p >>= k) =
    match host.run p with
    | (some a, host') => host'.run (k a)
    | (none, host') => (none, host') := by
  rw [Host.run, Prog.run_bind, Host.run]
  rcases p.run _ host with ⟨_ | a, host'⟩ <;> rfl

variable {m m' : NetworkManager} {sandboxId : Bytes}

/-- A namespace that is there already, or no grant: a null pointer, and nothing is changed. -/
theorem run_createNamespace_of_fails (h : ¬host.Succeeds (.netnsAdd (nsName sandboxId))) :
    host.run (m.createNamespace sandboxId) =
      (some (none, { m with nextIp := m.nextIp + 1 }), { host with clock := host.clock + 1 }) := by
  rw [NetworkManager.createNamespace, run_bind, @run_create_of_fails (.new (m.nsConfig sandboxId)) host h]
  rfl

theorem createNamespace_failed (h : host.run (m.createNamespace sandboxId) = (some (none, m'), host')) :
    (¬host.Succeeds (.netnsAdd (nsName sandboxId)) ∧ host'.net = host.net) ∨
      (host.Succeeds (.netnsAdd (nsName sandboxId)) ∧ nsName sandboxId ∈ host'.net.namespaces) := by
  rw [NetworkManager.createNamespace, run_bind] at h
  cases hcreate : host.run (NetworkNamespace.new (m.nsConfig sandboxId)).create with
  | mk result created =>
    rw [hcreate] at h
    cases result with
    | none => cases h
    | some result =>
      obtain ⟨ok, ns⟩ := result
      cases ok with
      | false =>
        obtain ⟨rfl, hcases⟩ := create_failed hcreate
        cases h
        exact hcases
      | true =>
        -- a pointer is returned, whether or not another namespace was there
        simp only [Bool.not_true, Bool.false_eq_true, if_false] at h
        split at h
        · cases h
        · rename_i old hold
          obtain ⟨_, hdestruct⟩ := run_destruct old created
          rw [run_bind, hdestruct] at h
          cases h

/-- **A creation that fails** leaves the host as it was exactly if its first command failed. Otherwise the same creation is
    blocked from then on. -/
theorem failed_create_iff (h : host.run (m.createNamespace sandboxId) = (some (none, m'), host')) :
    (host'.net = host.net ↔
      ¬(host.granted host.clock = true ∧ nsName sandboxId ∉ host.net.namespaces)) ∧
    (host.granted host.clock = true ∧ nsName sandboxId ∉ host.net.namespaces → ∀ (later : NetworkManager) clock granted,
      (Host.run (later.createNamespace sandboxId) ⟨host'.net, clock, granted⟩).1 =
        some (none, { later with nextIp := later.nextIp + 1 })) := by
  rw [← succeeds_netnsAdd_iff]
  rcases createNamespace_failed h with ⟨hfails, hnet⟩ | ⟨hdone, hmem⟩
  · exact ⟨iff_of_true hnet hfails, fun hdone => absurd hdone hfails⟩
  · refine ⟨iff_of_false ?_ (not_not_intro hdone), ?_⟩
    · intro hnet
      exact (succeeds_netnsAdd_iff.1 hdone).2 (hnet ▸ hmem)
    · intro _ later clock granted
      rw [run_createNamespace_of_fails]
      rw [succeeds_netnsAdd_iff, not_and_not_right]
      exact fun _ => hmem

/-- A host without namespaces. -/
def emptyHost (granted : Nat → Bool) : Host := ⟨⟨∅, ∅⟩, 0, granted⟩

/-- Nothing is granted. -/
theorem failed_create_first :
    let host := emptyHost fun _ => false
    let m : NetworkManager := { baseConfig := {} }
    (host.run (m.createNamespace (ascii "j"))).2.net = host.net := by
  intro host m
  have hrun : host.run (m.createNamespace (ascii "j")) = (some (none, { m with nextIp := 3 }), { host with clock := 1 }) := rfl
  exact (failed_create_iff hrun).1.2 (by decide)

/-- **The namespace stays** if no pair of links can be made, and the creation cannot be repeated with everything granted. -/
theorem failed_create_leaves :
    let m : NetworkManager := { baseConfig := {} }
    let (answer, host) := (emptyHost (· = 0)).run (m.createNamespace (ascii "j"))
    (answer.map fun r => r.1.isNone) = some true ∧ host.net.namespaces = {ascii "ns-j"} ∧
      ((Host.run (m.createNamespace (ascii "j")) ⟨host.net, 0, fun _ => true⟩).1.map fun r => r.1.isNone) = some true := by
  decide

end RedisOps.Netns
