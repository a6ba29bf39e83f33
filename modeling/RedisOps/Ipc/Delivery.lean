import RedisOps.Ipc.Channel

/-!
# Who receives what is sent

Two properties of whole channels, each decided by two functions that do not agree.

* `connect` binds a socket to the channel's name and keeps it; the loop it starts binds another one to the same name.
  `connect_receives_iff`: the loop gets to poll exactly when somebody else has removed the name in between.
* `broadcast` sends to the empty id, `handle_message` lets such a message through on every channel.
  `broadcast_reaches_iff`: the datagram goes to the address of the empty id, so it is everybody's exactly when the ids
  make no difference to the address (`Merges`).
-/

namespace RedisOps.Ipc

open Lib

/-- What the others make of the names in the `n` moments from `t` on. -/
def since (future : Nat → Moment) : Nat → Nat → Names → Names
  | _, 0, names => names
  | t, n + 1, names => since future (t + 1) n ((future t).names names)

/-- `receive_loop` comes to its polling loop with a socket that is bound to the path of the channel. -/
def Receives (config : IPCConfig) (w : World) : Prop :=
  ∃ sock w', Prog.run exec (openSocket config) w = (some (some sock), w') ∧
    w'.system.bound sock = some (pathOf config config.sandboxId) ∧
    w'.system.names (pathOf config config.sandboxId) = some (.socket sock)

section Connect
variable {config : IPCConfig} {w w' : World}

theorem exec_clock {o : Op} {r : o.Ret} (h : exec o w = some (r, w')) :
    w'.clock = w.clock + 1 ∧ w'.future = w.future := by
  cases o <;> simp only [exec, perform] at h <;> (repeat' split at h) <;> cases h <;> exact ⟨rfl, rfl⟩

theorem exec_socket_some {sock : Nat} (h : exec .socket w = some (some sock, w')) :
    (w.future w.clock).granted = true ∧ w'.system.names = (w.future w.clock).names w.system.names := by
  simp only [exec, perform] at h
  split at h
  · rename_i hgranted
    cases h
    exact ⟨hgranted, rfl⟩
  · cases h

/-- `bind` succeeds on a free name only. -/
theorem exec_bind_true {sock : Nat} {address : Bytes} (h : exec (.bind sock address) w = some (true, w')) :
    (w.future w.clock).granted = true ∧ (w.future w.clock).names w.system.names address = none ∧
      w'.system.names address = some (.socket sock) ∧ w'.system.bound sock = some address := by
  simp only [exec, perform] at h
  split at h
  · rename_i hfree
    cases h
    obtain ⟨hgranted, hnone⟩ : (w.future w.clock).granted = true ∧ w.passes.system.names address = none := by
      simpa using hfree
    exact ⟨hgranted, hnone, Function.update_self .., Function.update_self ..⟩
  · cases h

theorem exec_setConnected {b : Bool} {r : Unit} (h : exec (.setConnected b) w = some (r, w')) :
    w'.system.names = (w.future w.clock).names w.system.names := by
  cases h
  rfl

theorem exec_startThread {r : Unit} (h : exec .startThread w = some (r, w')) :
    w'.system.names = (w.future w.clock).names w.system.names := by
  simp only [exec, perform] at h
  split at h
  · cases h
  · cases h
    rfl

/-- `connect` has started its loop: right after its `bind` the name was taken, and since then only the others have
    changed the names. -/
theorem run_connect (h : Prog.run exec (connect config) w = (some true, w'))
    (hstart : w'.channel.receiveThread ≠ w.channel.receiveThread) :
    ∃ names : Names, names (sunPath (pathOf config config.sandboxId)) ≠ none ∧
      w'.system.names = since w.future (w.clock + 4) 2 names ∧ w'.clock = w.clock + 6 ∧ w'.future = w.future := by
  simp only [connect, Prog.call_bind] at h
  obtain ⟨connected, w₁, h₁, h⟩ := Prog.run_op_inv exec h
  obtain ⟨hclock₁, hfuture₁⟩ := exec_clock h₁
  cases connected with
  | true =>
    cases h
    obtain ⟨-, hw⟩ := Prod.mk.inj (Option.some.inj h₁)
    exact absurd (congrArg (·.channel.receiveThread) hw.symm) hstart
  | false =>
    obtain ⟨sock, w₂, h₂, h⟩ := Prog.run_op_inv exec h
    obtain ⟨hclock₂, hfuture₂⟩ := exec_clock h₂
    cases sock with
    | none => cases h
    | some sock =>
      obtain ⟨_, w₃, h₃, h⟩ := Prog.run_op_inv exec h
      obtain ⟨hclock₃, hfuture₃⟩ := exec_clock h₃
      obtain ⟨bound, w₄, h₄, h⟩ := Prog.run_op_inv exec h
      obtain ⟨hclock₄, hfuture₄⟩ := exec_clock h₄
      cases bound with
      | false =>
        obtain ⟨_, w₅, h₅, h⟩ := Prog.run_op_inv exec h
        cases h
      | true =>
        obtain ⟨_, w₅, h₅, h⟩ := Prog.run_op_inv exec h
        obtain ⟨hclock₅, hfuture₅⟩ := exec_clock h₅
        obtain ⟨_, w₆, h₆, h⟩ := Prog.run_op_inv exec h
        obtain ⟨hclock₆, hfuture₆⟩ := exec_clock h₆
        cases h
        have hclock : w₄.clock = w.clock + 4 := by omega
        have hfuture : w₄.future = w.future := by rw [hfuture₄, hfuture₃, hfuture₂, hfuture₁]
        refine ⟨w₄.system.names, ?_, ?_, by omega, by rw [hfuture₆, hfuture₅, hfuture]⟩
        · rw [(exec_bind_true h₄).2.2.1]
          simp
        · rw [exec_startThread h₆, exec_setConnected h₅, hfuture₅, hclock₅, hfuture, hclock]
          rfl

theorem run_openSocket_some {sock : Nat} (h : Prog.run exec (openSocket config) w = (some (some sock), w')) :
    (w.future w.clock).granted = true ∧ (w.future (w.clock + 1)).granted = true ∧
      since w.future w.clock 2 w.system.names (sunPath (pathOf config config.sandboxId)) = none ∧
      w'.system.bound sock = some (sunPath (pathOf config config.sandboxId)) := by
  simp only [openSocket, Prog.call_bind] at h
  obtain ⟨sock₁, w₁, h₁, h⟩ := Prog.run_op_inv exec h
  obtain ⟨hclock, hfuture⟩ := exec_clock h₁
  cases sock₁ with
  | none => cases h
  | some sock₁ =>
    obtain ⟨hgranted₁, hnames₁⟩ := exec_socket_some h₁
    obtain ⟨bound, w₂, h₂, h⟩ := Prog.run_op_inv exec h
    cases bound with
    | false =>
      obtain ⟨_, w₃, h₃, h⟩ := Prog.run_op_inv exec h
      cases h
    | true =>
      obtain ⟨hgranted₂, hfree, -, hbound⟩ := exec_bind_true h₂
      cases h
      rw [hclock, hfuture] at hgranted₂ hfree
      rw [hnames₁] at hfree
      exact ⟨hgranted₁, hgranted₂, hfree, hbound⟩

theorem run_openSocket_of_free (hgranted₁ : (w.future w.clock).granted = true)
    (hgranted₂ : (w.future (w.clock + 1)).granted = true)
    (hfree : since w.future w.clock 2 w.system.names (sunPath (pathOf config config.sandboxId)) = none) :
    ∃ sock w', Prog.run exec (openSocket config) w = (some (some sock), w') ∧
      w'.system.bound sock = some (sunPath (pathOf config config.sandboxId)) ∧
      w'.system.names (sunPath (pathOf config config.sandboxId)) = some (.socket sock) := by
  obtain ⟨w₁, h₁⟩ : ∃ w₁, exec .socket w = some (some w.system.opened, w₁) := by
    simp [exec, perform, hgranted₁, World.passes]
  obtain ⟨hclock, hfuture⟩ := exec_clock h₁
  obtain ⟨-, hnames⟩ := exec_socket_some h₁
  have hfree₁ : w₁.passes.system.names (sunPath (pathOf config config.sandboxId)) = none := by
    simp only [World.passes]
    rw [hclock, hfuture, hnames]
    exact hfree
  obtain ⟨w₂, h₂⟩ : ∃ w₂, exec (.bind w.system.opened (sunPath (pathOf config config.sandboxId))) w₁ =
      some (true, w₂) := by
    simp [exec, perform, hclock, hfuture, hgranted₂, hfree₁]
  obtain ⟨-, -, hname, hbound⟩ := exec_bind_true h₂
  refine ⟨w.system.opened, w₂, ?_, hbound, hname⟩
  simp only [openSocket, Prog.call_bind]
  rw [Prog.run_op_some exec h₁]
  simp only
  rw [Prog.run_op_some exec h₂]
  rfl

/-- What `receive_loop` needs to get to its polling loop: its two calls are granted, the name is free when it binds, and
    the path fits into an address. -/
theorem receives_iff_free : Receives config w ↔
    (w.future w.clock).granted = true ∧ (w.future (w.clock + 1)).granted = true ∧
      since w.future w.clock 2 w.system.names (sunPath (pathOf config config.sandboxId)) = none ∧
      sunPath (pathOf config config.sandboxId) = pathOf config config.sandboxId := by
  constructor
  · rintro ⟨sock, w', h, hbound, -⟩
    obtain ⟨hgranted₁, hgranted₂, hfree, hbound'⟩ := run_openSocket_some h
    rw [hbound'] at hbound
    exact ⟨hgranted₁, hgranted₂, hfree, Option.some.inj hbound⟩
  · rintro ⟨hgranted₁, hgranted₂, hfree, hfits⟩
    obtain ⟨sock, w', h, hbound, hname⟩ := run_openSocket_of_free hgranted₁ hgranted₂ hfree
    rw [hfits] at hbound hname
    exact ⟨sock, w', h, hbound, hname⟩

theorem cStr_eq_self {a : Bytes} (h : 0 ∉ a) : cStr a = a := by
  rw [cStr, List.takeWhile_eq_self_iff]
  intro b hb
  simp only [bne_iff_ne, ne_eq]
  rintro rfl
  exact h hb

/-- The address is the whole path. -/
theorem sunPath_eq_self {path : Bytes} : sunPath path = path ↔ path.length ≤ 107 ∧ 0 ∉ path := by
  constructor
  · intro h
    have hlen : path.length ≤ 107 := by
      rw [← h, sunPath, List.length_take]
      omega
    refine ⟨hlen, ?_⟩
    intro hzero
    rw [← h] at hzero
    have := List.mem_takeWhile_imp (List.mem_of_mem_take hzero)
    simp at this
  · rintro ⟨hlen, hzero⟩
    rw [sunPath, cStr_eq_self hzero, List.take_of_length_le hlen]

/-- The others do not remove the name at this moment. -/
def Moment.Keeps (m : Moment) (address : Bytes) : Prop := ∀ names : Names, names address ≠ none → m.names names address ≠ none

theorem since_keeps {future : Nat → Moment} {address : Bytes} : ∀ {n t : Nat} {names : Names},
    (∀ i, t ≤ i → i < t + n → (future i).Keeps address) → names address ≠ none → since future t n names address ≠ none
  | 0, _, _, _, h => h
  | n + 1, t, names, hkeep, h => by
    have hfirst : (future t).names names address ≠ none := hkeep t (by omega) (by omega) names h
    apply since_keeps ?_ hfirst
    intro i hi hi'
    exact hkeep i (by omega) (by omega)

/-- **Receiving.** The loop that `connect` has started comes to poll a socket bound to the channel's path exactly when the
    name is free again by the time the loop binds (and its calls are granted and the path fits). Nothing in the channel
    frees it: as long as the others leave the name alone between the two calls of `bind` (the four moments from
    `w.clock + 4` on), the loop never gets there. -/
theorem connect_receives_iff (h : Prog.run exec (connect config) w = (some true, w'))
    (hstart : w'.channel.receiveThread ≠ w.channel.receiveThread) :
    (Receives config w' ↔
      ((w'.future w'.clock).granted = true ∧ (w'.future (w'.clock + 1)).granted = true) ∧
      since w'.future w'.clock 2 w'.system.names (sunPath (pathOf config config.sandboxId)) = none ∧
      (pathOf config config.sandboxId).length ≤ 107 ∧ 0 ∉ pathOf config config.sandboxId) ∧
    ((∀ t, w.clock + 4 ≤ t → t < w.clock + 8 → (w.future t).Keeps (sunPath (pathOf config config.sandboxId))) →
      ¬Receives config w') := by
  refine ⟨?_, ?_⟩
  · rw [receives_iff_free, sunPath_eq_self, and_assoc]
  · intro hkeep hreceives
    obtain ⟨-, -, hfree, -⟩ := receives_iff_free.1 hreceives
    obtain ⟨names, htaken, hnames, hclock, hfuture⟩ := run_connect h hstart
    rw [hnames, hclock, hfuture] at hfree
    refine since_keeps ?_ (since_keeps ?_ htaken) hfree
    · intro t ht ht'
      exact hkeep t (by omega) (by omega)
    · intro t ht ht'
      exact hkeep t ht (by omega)

end Connect

/-- A system without names and sockets. -/
def System.fresh : System := ⟨fun _ => none, 0, fun _ => none, fun _ => [], []⟩

/-- Channel `a`, on a fresh system. -/
def channelA (future : Nat → Moment) : World := .of .fresh { config := { sandboxId := [97] } } future

/-- Another process removes the socket between the two calls of `bind`: the loop polls. -/
theorem connect_receives_removed :
    let future : Nat → Moment := fun t => if t = 5 then { names := fun _ _ => none } else {}
    let run := Prog.run exec (connect { sandboxId := [97] }) (channelA future)
    run.1 = some true ∧ Receives { sandboxId := [97] } run.2 := by
  intro future run
  have hrun : run = (some true, run.2) := rfl
  have hstart : run.2.channel.receiveThread ≠ (channelA future).channel.receiveThread := by decide
  exact ⟨rfl, (connect_receives_iff hrun hstart).1.2 ⟨⟨rfl, rfl⟩, rfl, by decide, by decide⟩⟩

/-- Nobody else is there, every call is granted, `connect` returns true, and the loop it has started never polls. -/
theorem connect_deaf :
    let run := Prog.run exec (connect { sandboxId := [97] }) (channelA fun _ => {})
    run.1 = some true ∧ run.2.channel.receiveThread = true ∧ ¬Receives { sandboxId := [97] } run.2 := by
  refine ⟨rfl, rfl, ?_⟩
  rintro ⟨sock, w', h, -⟩
  have hnone : (Prog.run exec (openSocket { sandboxId := [97] })
    (Prog.run exec (connect { sandboxId := [97] }) (channelA fun _ => {})).2).1 = some none := rfl
  rw [h] at hnone
  cases hnone

/-! ## Broadcasts -/

/-- A channel gets as far as its `sendto`: it is connected, and there is a socket for it. -/
def sends (ch : IPCChannel) (turn : Nat → Moment) : Bool := (turn 0).connected ch.connected && (turn 3).granted

def broadcastMessage (ch : IPCChannel) (turn : Nat → Moment) (topic data : Bytes) : IPCMessage :=
  { from_ := ch.config.sandboxId, to_ := [], topic, payload := data, timestamp := (turn 1).now, sequence := ch.sequence }

theorem exec_addressed {o : Op} {r : o.Ret} {w w' : World} (h : exec o w = some (r, w'))
    (ho : ∀ sock datagram address, o ≠ .sendto sock datagram address) :
    w'.system.addressed = w.system.addressed := by
  cases o <;> simp only [exec, perform] at h <;> (repeat' split at h) <;> cases h <;>
    first | rfl | exact absurd rfl (ho _ _ _)

theorem exec_sendto (sock : Nat) (datagram address : Bytes) (w : World) :
    ∃ r w', exec (.sendto sock datagram address) w = some (r, w') ∧
      w'.system.addressed = w.system.addressed ++ [(address, datagram)] := by
  simp only [exec, perform]
  split
  · split
    · exact ⟨_, _, rfl, rfl⟩
    · exact ⟨_, _, rfl, rfl⟩
  · exact ⟨_, _, rfl, rfl⟩

theorem addressed_countSent (sent : Option Nat) (w : World) :
    (Prog.run exec (countSent sent) w).2.system.addressed = w.system.addressed := by
  cases sent with
  | none => rfl
  | some n => rfl

theorem addressed_transmit (targetSocket serialized : Bytes) (w : World) :
    (Prog.run exec (transmit targetSocket serialized) w).2.system.addressed =
      w.system.addressed ++ if (w.future w.clock).granted then [(sunPath targetSocket, serialized)] else [] := by
  simp only [transmit, Prog.call_bind]
  cases hg : (w.future w.clock).granted with
  | false =>
    have hsocket : exec .socket w = some (none, w.passes) := by simp [exec, perform, hg]
    rw [Prog.run_op_some exec hsocket]
    simp [World.passes]
  | true =>
    obtain ⟨w₁, hsocket⟩ : ∃ w₁, exec .socket w = some (some w.system.opened, w₁) := by
      simp [exec, perform, hg, World.passes]
    obtain ⟨sent, w₂, hsendto, haddressed⟩ := exec_sendto w.system.opened serialized (sunPath targetSocket) w₁
    rw [Prog.run_op_some exec hsocket]
    simp only
    rw [Prog.run_op_some exec hsendto, Prog.run_op_some exec (show exec (.close _) w₂ = some ((), _) from rfl),
      addressed_countSent]
    simp only [World.passes, if_true]
    rw [haddressed, exec_addressed hsocket (by simp)]

/-- One broadcast is at most one datagram, to the address of the empty id. -/
theorem addressed_broadcast (ch : IPCChannel) (turn : Nat → Moment) (topic data : Bytes) (system : System) :
    (Prog.run exec (broadcast ch.config topic data) (.of system ch turn)).2.system.addressed =
      system.addressed ++ if sends ch turn then
        [(sunPath (pathOf ch.config []), serialize (broadcastMessage ch turn topic data))] else [] := by
  simp only [broadcast, sendRaw, Prog.call_bind]
  rw [Prog.run_op_some exec (show exec .isConnected (.of system ch turn) = some (_, _) from rfl)]
  cases hconn : (turn 0).connected ch.connected with
  | false =>
    have hsends : sends ch turn = false := by simp [sends, hconn]
    simp [World.of, World.passes, hconn, hsends]
  | true =>
    have hsends : sends ch turn = (turn 3).granted := by simp [sends, hconn]
    rw [if_pos (show (World.of system ch turn).passes.channel.connected = true from hconn), hsends]
    exact addressed_transmit _ _ _

theorem addressed_broadcastEach (turn : Bytes → Nat → Moment) (topic data : Bytes) :
    ∀ (entries : List (Sigma fun _ : Bytes => IPCChannel)) (system : System),
      (broadcastEach turn topic data entries system).addressed = system.addressed ++ entries.flatMap fun e =>
        if sends e.2 (turn e.1) then
          [(sunPath (pathOf e.2.config []), serialize (broadcastMessage e.2 (turn e.1) topic data))] else []
  | [], system => by simp [broadcastEach]
  | ⟨id, ch⟩ :: entries, system => by
    rw [broadcastEach, addressed_broadcastEach turn topic data entries, addressed_broadcast, List.append_assoc,
      List.flatMap_cons]

/-- The id makes no difference to the address. -/
def Merges (base : IPCConfig) (id : Bytes) : Prop :=
  id = [] ∨ id.head? = some 0 ∨ 0 ∈ base.socketPath ∨ 106 ≤ base.socketPath.length

theorem cStr_append_of_mem {a : Bytes} (h : 0 ∈ a) (b : Bytes) : cStr (a ++ b) = cStr a := by
  have hshort : (a.takeWhile (· != 0)).length ≠ a.length := by
    intro hlen
    have hself : a.takeWhile (· != 0) = a := (List.takeWhile_prefix _).eq_of_length hlen
    rw [← hself] at h
    simpa using List.mem_takeWhile_imp h
  rw [cStr, cStr, List.takeWhile_append, if_neg hshort]

theorem cStr_append_of_not_mem {a : Bytes} (h : 0 ∉ a) (b : Bytes) : cStr (a ++ b) = a ++ cStr b := by
  have hself : (a.takeWhile (· != 0)).length = a.length := congrArg List.length (cStr_eq_self h)
  rw [cStr, List.takeWhile_append, if_pos hself]
  rfl

theorem cStr_eq_nil {id : Bytes} : cStr id = [] ↔ id = [] ∨ id.head? = some 0 := by
  cases id with
  | nil => simp [cStr]
  | cons b id => simp [cStr, List.takeWhile_cons]

theorem take_append_eq_iff {α : Type} {n : Nat} {a b : List α} : (a ++ b).take n = a.take n ↔ b = [] ∨ n ≤ a.length := by
  constructor
  · intro h
    by_contra hne
    push Not at hne
    obtain ⟨hb, hlen⟩ := hne
    have hpos := List.length_pos_iff.2 hb
    have := congrArg List.length h
    simp only [List.length_take, List.length_append] at this
    omega
  · rintro (rfl | h)
    · simp
    · rw [List.take_append_of_le_length h]

theorem sunPath_eq_empty_iff {base : IPCConfig} {id : Bytes} :
    sunPath (pathOf base id) = sunPath (pathOf base []) ↔ Merges base id := by
  rw [sunPath, sunPath, pathOf, pathOf, Merges]
  by_cases h : 0 ∈ base.socketPath
  · have hdash : 0 ∈ base.socketPath ++ [45] := List.mem_append_left _ h
    rw [cStr_append_of_mem hdash, cStr_append_of_mem hdash]
    simp [h]
  · have hdash : 0 ∉ base.socketPath ++ [45] := by simp [h]
    have hnil : cStr [] = [] := rfl
    rw [cStr_append_of_not_mem hdash, cStr_append_of_not_mem hdash, hnil, List.append_nil, take_append_eq_iff,
      cStr_eq_nil]
    simp [h, or_assoc]

/-- `broadcast` has sent the message to the address of every registered channel, and the channel lets it through. -/
def ReachesAll (manager : IPCManager) (topic data : Bytes) (before after : System) : Prop :=
  ∀ id ∈ manager.channels, ∃ msg : IPCMessage, msg.topic = topic ∧ msg.payload = data ∧
    (sunPath (pathOf manager.baseConfig id), serialize msg) ∈ after.addressed.drop before.addressed.length ∧
    forUs (configOf manager.baseConfig id) msg = true

section Broadcast
variable (manager : IPCManager) (turn : Bytes → Nat → Moment) (topic data : Bytes) (system : System)

theorem pathOf_registered {id : Bytes} {ch : IPCChannel} (h : manager.channels.lookup id = some ch) (to_ : Bytes) :
    pathOf ch.config to_ = pathOf manager.baseConfig to_ := by
  rw [manager.config_eq id ch h]
  rfl

/-- What has reached everyone, of a number of broadcasts by registered channels. -/
theorem reachesAll_iff (senders : List (Sigma fun _ : Bytes => IPCChannel)) (after : System)
    (hsub : ∀ e ∈ senders, manager.channels.lookup e.1 = some e.2)
    (hafter : after.addressed = system.addressed ++ senders.flatMap fun e =>
      if sends e.2 (turn e.1) then
        [(sunPath (pathOf e.2.config []), serialize (broadcastMessage e.2 (turn e.1) topic data))] else []) :
    ReachesAll manager topic data system after ↔
      ∀ id ∈ manager.channels, Merges manager.baseConfig id ∧ ∃ e ∈ senders, sends e.2 (turn e.1) = true := by
  unfold ReachesAll
  rw [hafter, List.drop_left]
  refine forall₂_congr ?_
  intro id _
  rw [← sunPath_eq_empty_iff]
  constructor
  · rintro ⟨msg, -, -, hmem, -⟩
    obtain ⟨e, he, hmem⟩ := List.mem_flatMap.1 hmem
    split at hmem
    · rename_i hsends
      obtain ⟨haddress, -⟩ := Prod.mk.inj (List.mem_singleton.1 hmem)
      rw [pathOf_registered manager (hsub e he)] at haddress
      exact ⟨haddress, e, he, hsends⟩
    · cases hmem
  · rintro ⟨hmerge, e, he, hsends⟩
    refine ⟨broadcastMessage e.2 (turn e.1) topic data, rfl, rfl, ?_, rfl⟩
    refine List.mem_flatMap.2 ⟨e, he, ?_⟩
    rw [if_pos hsends, List.mem_singleton, hmerge, pathOf_registered manager (hsub e he)]

theorem reachesAll_broadcast {id : Bytes} {ch : IPCChannel} (hch : manager.channels.lookup id = some ch) :
    ReachesAll manager topic data system
        (Prog.run exec (broadcast ch.config topic data) (.of system ch (turn id))).2.system ↔
      sends ch (turn id) = true ∧ ∀ id' ∈ manager.channels, Merges manager.baseConfig id' := by
  have hone := reachesAll_iff manager turn topic data system [⟨id, ch⟩] _ (by simpa using hch)
    ((addressed_broadcast ch (turn id) topic data system).trans (by simp))
  have hid : id ∈ manager.channels := AList.lookup_isSome.1 (by rw [hch]; rfl)
  rw [hone]
  constructor
  · intro h
    obtain ⟨-, e, he, hsends⟩ := h id hid
    rw [List.mem_singleton.1 he] at hsends
    exact ⟨hsends, fun id' hid' => (h id' hid').1⟩
  · rintro ⟨hsends, hmerge⟩ id' hid'
    exact ⟨hmerge id' hid', _, List.mem_singleton_self _, hsends⟩

theorem reachesAll_broadcastAll :
    ReachesAll manager topic data system (broadcastAll manager turn topic data system) ↔
      ∀ id' ∈ manager.channels, Merges manager.baseConfig id' ∧
        ∃ id ch, manager.channels.lookup id = some ch ∧ sends ch (turn id) = true := by
  have hentries : ∀ e, e ∈ manager.channels.entries ↔ manager.channels.lookup e.1 = some e.2 :=
    fun e => AList.mem_lookup_iff.symm
  rw [broadcastAll, reachesAll_iff manager turn topic data system _ _ (fun e he => (hentries e).1 he)
    (addressed_broadcastEach turn topic data _ system)]
  refine forall₂_congr ?_
  intro id' _
  apply and_congr_right
  intro _
  constructor
  · rintro ⟨e, he, hsends⟩
    exact ⟨e.1, e.2, (hentries e).1 he, hsends⟩
  · rintro ⟨id, ch, hch, hsends⟩
    exact ⟨⟨id, ch⟩, (hentries ⟨id, ch⟩).2 hch, hsends⟩

/-- **Broadcast.** A broadcast reaches every registered channel exactly when it is sent at all and no registered id makes
    a difference to the address: nothing is sent to any id but the empty one. -/
theorem broadcast_reaches_iff :
    (∀ id ch, manager.channels.lookup id = some ch →
      (ReachesAll manager topic data system
          (Prog.run exec (broadcast ch.config topic data) (.of system ch (turn id))).2.system ↔
        sends ch (turn id) = true ∧ ∀ id' ∈ manager.channels, Merges manager.baseConfig id')) ∧
    (ReachesAll manager topic data system (broadcastAll manager turn topic data system) ↔
      ∀ id' ∈ manager.channels, Merges manager.baseConfig id' ∧
        ∃ id ch, manager.channels.lookup id = some ch ∧ sends ch (turn id) = true) := by
  constructor
  · intro id ch hch
    exact reachesAll_broadcast manager turn topic data system hch
  · exact reachesAll_broadcastAll manager turn topic data system

end Broadcast

def IPCManager.empty : IPCManager := ⟨{ sandboxId := [] }, ∅, by simp⟩

/-- Sandboxes `a` and `b` are registered, every call is granted, and neither a broadcast by `a` nor `broadcast_all` sends
    anything to them. -/
theorem broadcast_lost :
    ∃ manager system, (registerSandbox .empty [97] .fresh fun _ => {}).bind
        (fun r => registerSandbox r.1 [98] r.2 fun _ => {}) = some (manager, system) ∧
      (∃ ch, manager.channels.lookup [97] = some ch ∧ sends ch (fun _ => {}) = true ∧
        ¬ReachesAll manager [116] [] system
          (Prog.run exec (broadcast ch.config [116] []) (.of system ch fun _ => {})).2.system) ∧
      ¬ReachesAll manager [116] [] system (broadcastAll manager (fun _ _ => {}) [116] [] system) := by
  have hapart : ¬Merges { sandboxId := [] } [97] := by
    simp [Merges]
  obtain ⟨⟨manager, system⟩, hreg, hbase, hmem, ch, hch, hsends⟩ : ∃ r : IPCManager × System,
      (registerSandbox .empty [97] .fresh fun _ => {}).bind (fun r => registerSandbox r.1 [98] r.2 fun _ => {}) = some r ∧
      r.1.baseConfig = { sandboxId := [] } ∧ [97] ∈ r.1.channels ∧
      ∃ ch, r.1.channels.lookup [97] = some ch ∧ sends ch (fun _ => {}) = true :=
    ⟨_, rfl, rfl, by decide, _, rfl, rfl⟩
  rw [← hbase] at hapart
  refine ⟨manager, system, hreg, ⟨ch, hch, hsends, ?_⟩, ?_⟩
  · intro h
    have hreach := (reachesAll_broadcast manager (fun _ _ => {}) [116] [] system hch).1 h
    exact hapart (hreach.2 [97] hmem)
  · intro h
    have hreach := (reachesAll_broadcastAll manager (fun _ _ => {}) [116] [] system).1 h
    exact hapart (hreach [97] hmem).1

end RedisOps.Ipc
