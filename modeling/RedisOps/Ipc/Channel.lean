import Mathlib.Data.List.AList
import RedisOps.Ipc.Message
import RedisOps.Lib.Prog

/-!
# Channels and the sockets under them

| here | there |
| --- | --- |
| `IPCConfig`, `IPCChannel` | `devops::IPCConfig`, `devops::IPCChannel` (`sandbox/include/devops/ipc.hpp:16-22`, `:50-120`) |
| `connect`, `sendRaw`, `broadcast` | `sandbox/src/ipc.cpp:24-60`, `:88-157`, `:159-162` |
| `openSocket`, `pollLoop`, `receiveLoop` | `IPCChannel::receive_loop` (`:191-256`): up to the loop, the loop, all of it |
| `forUs`, `handleMessage` | `IPCChannel::handle_message` (`:258-288`) |
| `IPCManager`, `registerSandbox`, `broadcastAll` | `:325-339`, `:359-365` |
| `Op`, `perform` | one system call, or one access to a member of the channel |

`perform` is what a call does to the names of the file system and to the sockets: `bind` fails when the name exists,
`unlink` removes it. Everything else that decides a call is in the `Moment` at which it is made: whether the system
grants it, the time, and what other threads and processes have done to the names and to `connected_` since the call
before. The moments of a run are given (`future`), so a statement about all of them covers every interleaving.

A loop takes `rounds` rounds at most. Left out: printing, `fcntl`, and the members that nothing here reads.
-/

namespace RedisOps.Ipc

open Lib

structure IPCConfig where
  sandboxId : Bytes
  /-- `"/tmp/sandbox-ipc"`. -/
  socketPath : Bytes := [47, 116, 109, 112, 47, 115, 97, 110, 100, 98, 111, 120, 45, 105, 112, 99]
  queueSize : UInt32 := 1000

structure QueueStats where
  messagesSent : UInt64 := 0
  messagesReceived : UInt64 := 0
  messagesDropped : UInt64 := 0
  bytesSent : UInt64 := 0
  bytesReceived : UInt64 := 0

/-- A callback is a number; `called` are the calls that were made. `receiveThread` says whether it is joinable. -/
structure IPCChannel where
  config : IPCConfig
  connected : Bool := false
  receiveThread : Bool := false
  subscribers : List (Bytes × Nat) := []
  messageQueue : List IPCMessage := []
  called : List (Nat × IPCMessage) := []
  sequence : UInt64 := 0
  stats : QueueStats := {}

/-! ## Addresses -/

/-- `c_str()`, as far as C reads it. -/
def cStr (s : Bytes) : Bytes := s.takeWhile (· != 0)

/-- `strncpy(addr.sun_path, path.c_str(), sizeof(addr.sun_path) - 1)`. -/
def sunPath (path : Bytes) : Bytes := (cStr path).take 107

/-- `config_.socket_path + "-" + id`. -/
def pathOf (config : IPCConfig) (id : Bytes) : Bytes := config.socketPath ++ [45] ++ id

/-! ## The system -/

/-- What a name leads to. -/
inductive Node
  | socket (n : Nat)
  | other
  deriving DecidableEq

abbrev Names := Bytes → Option Node

/-- Sockets are numbered in the order they are made. `addressed` are the datagrams handed to `sendto`. -/
structure System where
  names : Names
  opened : Nat
  bound : Nat → Option Bytes
  inbox : Nat → List Bytes
  addressed : List (Bytes × Bytes)

structure Moment where
  granted : Bool := true
  now : UInt64 := 0
  names : Names → Names := id
  connected : Bool → Bool := id

/-- A channel, the system it runs on, and the moments to come. -/
structure World where
  system : System
  channel : IPCChannel
  clock : Nat
  future : Nat → Moment

inductive Op
  | socket
  | unlink (path : Bytes)
  | bind (sock : Nat) (address : Bytes)
  | sendto (sock : Nat) (datagram address : Bytes)
  /-- `poll`, then `recv`. -/
  | receive (sock : Nat)
  | close (sock : Nat)
  | now
  | isConnected
  | setConnected (b : Bool)
  /-- `receive_thread_ = std::thread(&IPCChannel::receive_loop, this)`. -/
  | startThread
  | fetchAdd
  | update (f : IPCChannel → IPCChannel)

@[reducible] def Op.Ret : Op → Type
  | .socket => Option Nat
  | .bind _ _ => Bool
  | .sendto _ _ _ => Option Nat
  | .receive _ => Option Bytes
  | .now => UInt64
  | .isConnected => Bool
  | .fetchAdd => UInt64
  | _ => Unit

/-- What the others have done meanwhile. -/
def World.passes (w : World) : World :=
  { w with
    system := { w.system with names := (w.future w.clock).names w.system.names }
    channel := { w.channel with connected := (w.future w.clock).connected w.channel.connected }
    clock := w.clock + 1 }

/-- The empty address is not a name of the file system: `unlink` does not find it, and it is free again once its socket
    is closed. -/
def perform (m : Moment) : (o : Op) → World → Option (o.Ret × World)
  | .socket, w =>
    if m.granted then some (some w.system.opened, { w with system := { w.system with opened := w.system.opened + 1 } })
    else some (none, w)
  | .unlink path, w =>
    if m.granted && path != [] then
      some ((), { w with system := { w.system with names := Function.update w.system.names path none } })
    else some ((), w)
  | .bind sock address, w =>
    if m.granted && (w.system.names address).isNone then
      some (true, { w with system := { w.system with
        names := Function.update w.system.names address (some (.socket sock))
        bound := Function.update w.system.bound sock (some address) } })
    else some (false, w)
  | .sendto _ datagram address, w =>
    let system := { w.system with addressed := w.system.addressed ++ [(address, datagram)] }
    match m.granted, w.system.names address with
    | true, some (.socket n) =>
      if w.system.bound n = some address then
        some (some datagram.length, { w with system := { system with
          inbox := Function.update system.inbox n (system.inbox n ++ [datagram]) } })
      else some (none, { w with system := system })
    | _, _ => some (none, { w with system := system })
  | .receive sock, w =>
    match m.granted, w.system.inbox sock with
    | true, datagram :: rest =>
      some (some datagram, { w with system := { w.system with inbox := Function.update w.system.inbox sock rest } })
    | _, _ => some (none, w)
  | .close sock, w =>
    some ((), { w with system := { w.system with
      bound := Function.update w.system.bound sock none
      names := if w.system.bound sock = some [] then Function.update w.system.names [] none else w.system.names } })
  | .now, w => some (m.now, w)
  | .isConnected, w => some (w.channel.connected, w)
  | .setConnected b, w => some ((), { w with channel := { w.channel with connected := b } })
  | .startThread, w =>
    -- assigning to a joinable `std::thread` ends the program
    if w.channel.receiveThread then none
    else some ((), { w with channel := { w.channel with receiveThread := true } })
  | .fetchAdd, w =>
    some (w.channel.sequence, { w with channel := { w.channel with sequence := w.channel.sequence + 1 } })
  | .update f, w => some ((), { w with channel := f w.channel })

def exec (o : Op) (w : World) : Option (o.Ret × World) := perform (w.future w.clock) o w.passes

abbrev Code := Prog Op Op.Ret

/-! ## The channel -/

def connect (config : IPCConfig) : Code Bool := do
  if ← Prog.call .isConnected then
    return true
  let sock : Option Nat ← Prog.call Op.socket
  match sock with
  | none => return false
  | some sock =>
    let socketPath := pathOf config config.sandboxId
    let _ ← Prog.call (.unlink (cStr socketPath))
    if ← Prog.call (.bind sock (sunPath socketPath)) then
      let _ ← Prog.call (.setConnected true)
      let _ ← Prog.call .startThread
      return true
    else
      let _ ← Prog.call (.close sock)
      return false

/-- `:145-156`. -/
def countSent (sent : Option Nat) : Code Bool := do
  match sent with
  | none =>
    let _ ← Prog.call (.update fun ch =>
      { ch with stats := { ch.stats with messagesDropped := ch.stats.messagesDropped + 1 } })
    return false
  | some n =>
    let _ ← Prog.call (.update fun ch => { ch with stats := { ch.stats with
      messagesSent := ch.stats.messagesSent + 1
      bytesSent := ch.stats.bytesSent + UInt64.ofNat n } })
    return true

/-- The second half of `send_raw` (`:128-156`). -/
def transmit (targetSocket serialized : Bytes) : Code Bool := do
  let sock : Option Nat ← Prog.call Op.socket
  match sock with
  | none => return false
  | some sock =>
    let sent : Option Nat ← Prog.call (Op.sendto sock serialized (sunPath targetSocket))
    let _ ← Prog.call (.close sock)
    countSent sent

/-- `std::string` and `std::vector<uint8_t>` are both bytes, so `send` is this too (`:83-86`). -/
def sendRaw (config : IPCConfig) (to_ topic data : Bytes) : Code Bool := do
  if ← Prog.call .isConnected then
    let timestamp ← Prog.call .now
    let sequence ← Prog.call .fetchAdd
    transmit (pathOf config to_)
      (serialize { from_ := config.sandboxId, to_, topic, payload := data, timestamp, sequence })
  else
    return false

def broadcast (config : IPCConfig) (topic data : Bytes) : Code Bool := sendRaw config [] topic data

/-- The check at the head of `handle_message` lets the message through. -/
def forUs (config : IPCConfig) (msg : IPCMessage) : Bool := msg.to_ == [] || msg.to_ == config.sandboxId

/-- `"*"`. -/
def wildcard : Bytes := [42]

def callbacks (subscribers : List (Bytes × Nat)) (topic : Bytes) : List Nat :=
  (subscribers.filter (·.1 == topic)).map (·.2)

def handleMessage (msg : IPCMessage) (ch : IPCChannel) : IPCChannel :=
  if forUs ch.config msg then
    let ch :=
      if ch.messageQueue.length < ch.config.queueSize.toNat then { ch with messageQueue := ch.messageQueue ++ [msg] }
      else { ch with stats := { ch.stats with messagesDropped := ch.stats.messagesDropped + 1 } }
    { ch with called := ch.called ++
        (callbacks ch.subscribers msg.topic ++ callbacks ch.subscribers wildcard).map (·, msg) }
  else ch

/-- `receive_loop` up to the loop: the socket it then polls. -/
def openSocket (config : IPCConfig) : Code (Option Nat) := do
  let sock : Option Nat ← Prog.call Op.socket
  match sock with
  | none => return none
  | some sock =>
    if ← Prog.call (.bind sock (sunPath (pathOf config config.sandboxId))) then
      return some sock
    else
      let _ ← Prog.call (.close sock)
      return none

def pollLoop (sock : Nat) : Nat → Bytes → Code Unit
  | 0, _ => .fail
  | rounds + 1, buffer => do
    if ← Prog.call .isConnected then
      let datagram : Option Bytes ← Prog.call (Op.receive sock)
      match datagram with
      | none => pollLoop sock rounds buffer
      | some [] => pollLoop sock rounds buffer
      | some (b :: datagram) =>
        let (buffer, received) := recv buffer (b :: datagram)
        match parse buffer received with
        | none => .fail
        | some msg =>
          let _ ← Prog.call (.update fun ch => { ch with stats := { ch.stats with
            messagesReceived := ch.stats.messagesReceived + 1
            bytesReceived := ch.stats.bytesReceived + UInt64.ofNat received } })
          let _ ← Prog.call (.update (handleMessage msg))
          pollLoop sock rounds buffer
    else
      return ()

def receiveLoop (config : IPCConfig) (rounds : Nat) (buffer : Bytes) : Code Unit := do
  match ← openSocket config with
  | none => return ()
  | some sock =>
    let _ ← pollLoop sock rounds buffer
    let _ ← Prog.call (.close sock)
    return ()

/-! ## The manager -/

def configOf (base : IPCConfig) (id : Bytes) : IPCConfig := { base with sandboxId := id }

/-- A registered channel has the configuration of the manager, with its own id. -/
structure IPCManager where
  baseConfig : IPCConfig
  channels : AList fun _ : Bytes => IPCChannel
  config_eq : ∀ id ch, channels.lookup id = some ch → ch.config = configOf baseConfig id

/-- The channel registered as `id`, on a system in its turn. -/
def World.of (system : System) (ch : IPCChannel) (turn : Nat → Moment) : World := ⟨system, ch, 0, turn⟩

/-- The destructor of a channel that is replaced under its id is not part of this. -/
def registerSandbox (manager : IPCManager) (id : Bytes) (system : System) (turn : Nat → Moment) :
    Option (IPCManager × System) :=
  let config := configOf manager.baseConfig id
  match Prog.run exec (connect config) (.of system { config := config } turn) with
  | (some true, w) =>
    let channel := { w.channel with config := config }
    some ({ manager with
      channels := manager.channels.insert id channel
      config_eq := by
        intro id' ch hch
        by_cases hid : id' = id
        · subst hid
          rw [AList.lookup_insert] at hch
          rw [← Option.some.inj hch]
        · rw [AList.lookup_insert_ne hid] at hch
          exact manager.config_eq id' ch hch }, w.system)
  | _ => none

/-- One `channel->broadcast` after another, each with the moments of its own turn; the system it leaves. -/
def broadcastEach (turn : Bytes → Nat → Moment) (topic data : Bytes) : List (Sigma fun _ : Bytes => IPCChannel) →
    System → System
  | [], system => system
  | ⟨id, ch⟩ :: rest, system =>
    broadcastEach turn topic data rest
      (Prog.run exec (broadcast ch.config topic data) (.of system ch (turn id))).2.system

def broadcastAll (manager : IPCManager) (turn : Bytes → Nat → Moment) (topic data : Bytes) (system : System) : System :=
  broadcastEach turn topic data manager.channels.entries system

end RedisOps.Ipc
