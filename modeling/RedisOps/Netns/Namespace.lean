import Mathlib.Data.List.AList
import RedisOps.Lib.Decimal
import RedisOps.Lib.Find
import RedisOps.Lib.Prog

/-!
# Network namespaces (`sandbox/src/netns.cpp`)

| here | there |
| --- | --- |
| `NetnsConfig`, `NetnsState`, `NetworkNamespace`, `NetworkManager` | `sandbox/include/devops/netns.hpp:15-35`, `:37-83`, `:86-112` |
| `NetworkNamespace.new`, `destruct` | the constructor and the destructor (`sandbox/src/netns.cpp:42-56`) |
| `create`, `destroy` | `:58-107`, `:109-124` |
| `createNamespace`, `removeNamespace` | `:218-230`, `:232-239` |
| `IpCmd` | the commands, in the words of `ip` |

A program gives its commands one after another and is told whether each succeeds. Most answers are not looked at.

Left out: printing, the descriptor and the fields of the configuration that nothing here reads, the calls that want a namespace
to be active, and `init`.
-/

namespace RedisOps.Netns

open Lib

/-- What follows `ip`; `exec` commands are run in the namespace that is named first. -/
inductive IpCmd
  /-- `netns add {}`. -/
  | netnsAdd (name : Bytes)
  /-- `link add {} type veth peer name {}`. -/
  | linkAdd (host peer : Bytes)
  /-- `link set {} netns {}`. -/
  | linkSetNetns (dev name : Bytes)
  /-- `netns exec {} ip addr add {}/24 dev {}`. -/
  | addrAdd (name addr dev : Bytes)
  /-- `netns exec {} ip link set {} up`. -/
  | execLinkUp (name dev : Bytes)
  /-- `netns exec {} ip route add default via {}`. -/
  | routeAdd (name gateway : Bytes)
  /-- `link set {} master {}`. -/
  | linkSetMaster (dev bridge : Bytes)
  /-- `link set {} up`. -/
  | linkUp (dev : Bytes)
  /-- `link set {} nomaster`. -/
  | linkNomaster (dev : Bytes)
  /-- `link delete {}`. -/
  | linkDelete (dev : Bytes)
  /-- `netns delete {}`. -/
  | netnsDelete (name : Bytes)
  deriving DecidableEq

abbrev NetProg := Prog IpCmd fun _ => Bool

/-- `run_cmd_ok`. -/
def runCmdOk (cmd : IpCmd) : NetProg Bool := Prog.call cmd

structure NetnsConfig where
  name : Bytes := []
  bridge : Bytes := ascii "sandbox-br0"
  subnet : Bytes := ascii "10.100.0.0/24"
  nextIp : UInt32 := 2

structure NetnsState where
  name : Bytes
  vethHost : Bytes
  vethNs : Bytes
  ipAddr : Bytes := []
  active : Bool := false

structure NetworkNamespace where
  config : NetnsConfig
  state : NetnsState

namespace NetworkNamespace

def new (config : NetnsConfig) : NetworkNamespace :=
  { config
    state :=
      { name := config.name
        vethHost := ascii "veth-" ++ config.name ++ ascii "-h"
        vethNs := ascii "veth-" ++ config.name ++ ascii "-ns" } }

/-- The address that is configured: all of the subnet before the slash. -/
def configured (config : NetnsConfig) : Bytes := upTo 47 config.subnet

/-- The address that is recorded. -/
def recorded (config : NetnsConfig) : Bytes :=
  upToLast 46 (upTo 47 config.subnet) ++ ascii "." ++ toDecimal config.nextIp.toNat

/-- The commands whose answers are not looked at, and the fields that are set behind them. -/
def configure (ns : NetworkNamespace) : NetProg (Bool × NetworkNamespace) := do
  let _ ← runCmdOk (.addrAdd ns.state.name (configured ns.config) ns.state.vethNs)
  let _ ← runCmdOk (.execLinkUp ns.state.name ns.state.vethNs)
  let _ ← runCmdOk (.execLinkUp ns.state.name (ascii "lo"))
  let gateway := upToLast 46 ns.config.subnet ++ ascii ".1"
  let _ ← runCmdOk (.routeAdd ns.state.name gateway)
  let _ ← runCmdOk (.linkSetMaster ns.state.vethHost ns.config.bridge)
  let _ ← runCmdOk (.linkUp ns.state.vethHost)
  return (true, { ns with state := { ns.state with active := true, ipAddr := recorded ns.config } })

def create (ns : NetworkNamespace) : NetProg (Bool × NetworkNamespace) := do
  if !(← runCmdOk (.netnsAdd ns.state.name)) then return (false, ns)
  else if !(← runCmdOk (.linkAdd ns.state.vethHost ns.state.vethNs)) then return (false, ns)
  else if !(← runCmdOk (.linkSetNetns ns.state.vethNs ns.state.name)) then return (false, ns)
  else configure ns

def destroy (ns : NetworkNamespace) : NetProg (Bool × NetworkNamespace) :=
  if !ns.state.active then return (true, ns)
  else do
    let _ ← runCmdOk (.linkNomaster ns.state.vethHost)
    let _ ← runCmdOk (.linkDelete ns.state.vethHost)
    let _ ← runCmdOk (.netnsDelete ns.state.name)
    return (true, { ns with state := { ns.state with active := false } })

/-- The object is gone afterwards. -/
def destruct (ns : NetworkNamespace) : NetProg Unit :=
  if ns.state.active then do
    let _ ← destroy ns
    return ()
  else return ()

end NetworkNamespace

/-- `"ns-" + sandbox_id`. -/
def nsName (sandboxId : Bytes) : Bytes := ascii "ns-" ++ sandboxId

abbrev Namespaces := AList fun _ : Bytes => NetworkNamespace

structure NetworkManager where
  baseConfig : NetnsConfig
  namespaces : Namespaces := ∅
  nextIp : UInt32 := 2

namespace NetworkManager
variable (m : NetworkManager) (sandboxId : Bytes)

def nsConfig : NetnsConfig := { m.baseConfig with name := nsName sandboxId, nextIp := m.nextIp }

/-- The answer is the namespace, or a null pointer. Callers keep no pointer: a namespace is destructed if it was not created, and
    if another one takes its place. -/
def createNamespace : NetProg (Option NetworkNamespace × NetworkManager) := do
  let m' := { m with nextIp := m.nextIp + 1 }
  let (ok, ns) ← (NetworkNamespace.new (m.nsConfig sandboxId)).create
  if !ok then
    ns.destruct
    return (none, m')
  else
    match m.namespaces.lookup sandboxId with
    | none => return (some ns, { m' with namespaces := m.namespaces.insert sandboxId ns })
    | some old =>
      old.destruct
      return (some ns, { m' with namespaces := m.namespaces.insert sandboxId ns })

def removeNamespace : NetProg (Bool × NetworkManager) :=
  match m.namespaces.lookup sandboxId with
  | none => return (false, m)
  | some ns => do
    let _ ← ns.destroy
    return (true, { m with namespaces := m.namespaces.erase sandboxId })

end NetworkManager

end RedisOps.Netns
