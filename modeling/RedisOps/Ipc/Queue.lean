import RedisOps.Ipc.Channel

/-!
# The message queue of a channel

| here | there |
| --- | --- |
| `getPending`, `pendingLoop` | `IPCChannel::get_pending` (`sandbox/src/ipc.cpp:295-305`) and its loop |
| `drain` | `IPCChannel::drain` (`:307-313`) |

`handle_message`, `get_pending` and `drain` hold `recv_mutex_`, so calls from several threads come one after another.
`queue_conserved` is the account of all of them: a message that is for this sandbox is returned, drained, still queued, or
counted as dropped.
-/

namespace RedisOps.Ipc

open Lib

/-- The loop, with the result so far. -/
def pendingLoop (maxCount : Nat) : List IPCMessage → List IPCMessage → List IPCMessage × List IPCMessage
  | result, [] => (result, [])
  | result, msg :: queue =>
    if result.length < maxCount then pendingLoop maxCount (result ++ [msg]) queue else (result, msg :: queue)

def getPending (maxCount : UInt32) (ch : IPCChannel) : List IPCMessage × IPCChannel :=
  let (result, queue) := pendingLoop maxCount.toNat [] ch.messageQueue
  (result, { ch with messageQueue := queue })

def drain (ch : IPCChannel) : Bool × IPCChannel := (true, { ch with messageQueue := [] })

/-! ## Calls and what becomes of the messages -/

inductive QueueCall where
  | handle (msg : IPCMessage)
  | pending (maxCount : UInt32)
  | drain

/-- What the calls have returned, drained and dropped so far. A message is dropped when the counter says so. -/
structure Tally where
  results : List (List IPCMessage) := []
  drained : Nat := 0
  dropped : Nat := 0

def QueueCall.step (r : Tally × IPCChannel) : QueueCall → Tally × IPCChannel
  | .handle msg =>
    let ch := handleMessage msg r.2
    let counted := if ch.stats.messagesDropped = r.2.stats.messagesDropped then 0 else 1
    ({ r.1 with dropped := r.1.dropped + counted }, ch)
  | .pending maxCount =>
    let (result, ch) := getPending maxCount r.2
    ({ r.1 with results := r.1.results ++ [result] }, ch)
  | .drain => ({ r.1 with drained := r.1.drained + r.2.messageQueue.length }, (Ipc.drain r.2).2)

def runQueue (ch : IPCChannel) (calls : List QueueCall) : Tally × IPCChannel := calls.foldl QueueCall.step ({}, ch)

def QueueCall.message : QueueCall → Option IPCMessage
  | .handle msg => some msg
  | _ => none

/-- The messages addressed to this sandbox or to everybody, as they arrive. -/
def accepted (config : IPCConfig) (calls : List QueueCall) : List IPCMessage :=
  (calls.filterMap QueueCall.message).filter (forUs config)

/-! ## One call -/

/-- The loop moves messages from the front of the queue behind the result, up to the bound. -/
theorem pendingLoop_eq (maxCount : Nat) (queue result : List IPCMessage) : pendingLoop maxCount result queue =
    (result ++ queue.take (maxCount - result.length), queue.drop (maxCount - result.length)) := by
  induction queue generalizing result with
  | nil => simp [pendingLoop]
  | cons msg queue ih =>
    rw [pendingLoop]
    split
    · rename_i hlt
      obtain ⟨more, hmore⟩ : ∃ more, maxCount - result.length = more + 1 := ⟨maxCount - result.length - 1, by omega⟩
      have hone : maxCount - (result ++ [msg]).length = more := by
        rw [List.length_append, List.length_singleton]
        omega
      rw [ih, hone, hmore, List.take_succ_cons, List.drop_succ_cons, List.append_assoc]
      rfl
    · rename_i hlt
      rw [Nat.sub_eq_zero_of_le (not_lt.1 hlt), List.take_zero, List.append_nil, List.drop_zero]

/-- The oldest messages, and the others stay. -/
theorem getPending_eq (maxCount : UInt32) (ch : IPCChannel) : getPending maxCount ch =
    (ch.messageQueue.take maxCount.toNat, { ch with messageQueue := ch.messageQueue.drop maxCount.toNat }) := by
  rw [getPending, pendingLoop_eq, List.nil_append, List.length_nil, Nat.sub_zero]

theorem handleMessage_config (msg : IPCMessage) (ch : IPCChannel) : (handleMessage msg ch).config = ch.config := by
  unfold handleMessage
  dsimp only
  split
  · split <;> rfl
  · rfl

/-- A message is passed over, queued, or dropped and counted. -/
theorem handleMessage_cases (msg : IPCMessage) (ch : IPCChannel) :
    (forUs ch.config msg = false ∧ (handleMessage msg ch).messageQueue = ch.messageQueue ∧
      (handleMessage msg ch).stats.messagesDropped = ch.stats.messagesDropped) ∨
    (forUs ch.config msg = true ∧ ch.messageQueue.length < ch.config.queueSize.toNat ∧
      (handleMessage msg ch).messageQueue = ch.messageQueue ++ [msg] ∧
      (handleMessage msg ch).stats.messagesDropped = ch.stats.messagesDropped) ∨
    (forUs ch.config msg = true ∧ (handleMessage msg ch).messageQueue = ch.messageQueue ∧
      (handleMessage msg ch).stats.messagesDropped = ch.stats.messagesDropped + 1) := by
  unfold handleMessage
  by_cases hus : forUs ch.config msg = true
  · by_cases hroom : ch.messageQueue.length < ch.config.queueSize.toNat
    · exact .inr (.inl ⟨hus, hroom, by simp [hus, hroom], by simp [hus, hroom]⟩)
    · exact .inr (.inr ⟨hus, by simp [hus, hroom], by simp [hus, hroom]⟩)
  · exact .inl ⟨by simpa using hus, by simp [hus], by simp [hus]⟩

/-! ## The account -/

/-- What is returned and what is queued are in the order of arrival, and no message is missing from the account. -/
structure Accounted (config : IPCConfig) (dropped₀ : UInt64) (arrived : List IPCMessage) (r : Tally × IPCChannel) :
    Prop where
  same : r.2.config = config
  bounded : r.2.messageQueue.length ≤ config.queueSize.toNat
  order : (r.1.results.flatten ++ r.2.messageQueue).Sublist arrived
  sum : arrived.length = r.1.results.flatten.length + r.1.drained + r.2.messageQueue.length + r.1.dropped
  counter : r.2.stats.messagesDropped = dropped₀ + UInt64.ofNat r.1.dropped

section Step
variable {config : IPCConfig} {dropped₀ : UInt64} {calls : List QueueCall} {r : Tally × IPCChannel}

theorem Accounted.handle (h : Accounted config dropped₀ (accepted config calls) r) (msg : IPCMessage) :
    Accounted config dropped₀ (accepted config (calls ++ [.handle msg])) (QueueCall.step r (.handle msg)) := by
  have harrived : accepted config (calls ++ [.handle msg]) =
      accepted config calls ++ if forUs config msg then [msg] else [] := by
    simp [accepted, QueueCall.message, List.filter_singleton]
  have hsum := h.sum
  rw [harrived]
  rcases handleMessage_cases msg r.2 with ⟨hus, hqueue, hstat⟩ | ⟨hus, hroom, hqueue, hstat⟩ | ⟨hus, hqueue, hstat⟩
  all_goals rw [h.same] at hus
  · rw [hus]
    refine ⟨(handleMessage_config msg r.2).trans h.same, ?_, ?_, ?_, ?_⟩
    all_goals simp only [QueueCall.step, hqueue, hstat, if_true, Nat.add_zero]
    · exact h.bounded
    · simpa using h.order
    · simpa using h.sum
    · exact h.counter
  · rw [hus, if_pos rfl]
    rw [h.same] at hroom
    refine ⟨(handleMessage_config msg r.2).trans h.same, ?_, ?_, ?_, ?_⟩
    all_goals simp only [QueueCall.step, hqueue, hstat, if_true, Nat.add_zero]
    · rw [List.length_append, List.length_singleton]
      exact hroom
    · rw [← List.append_assoc]
      exact h.order.append_right [msg]
    · simp only [List.length_append, List.length_singleton]
      omega
    · exact h.counter
  · rw [hus, if_pos rfl]
    have hchanged : r.2.stats.messagesDropped + 1 ≠ r.2.stats.messagesDropped := by
      intro heq
      have hmod := congrArg UInt64.toNat heq
      have hlt := r.2.stats.messagesDropped.toNat_lt
      rw [UInt64.toNat_add, UInt64.toNat_one] at hmod
      omega
    refine ⟨(handleMessage_config msg r.2).trans h.same, ?_, ?_, ?_, ?_⟩
    all_goals simp only [QueueCall.step, hqueue, hstat, if_neg hchanged]
    · exact h.bounded
    · exact h.order.trans (List.sublist_append_left _ _)
    · simp only [List.length_append, List.length_singleton]
      omega
    · rw [h.counter, UInt64.ofNat_add, UInt64.add_assoc]
      rfl

theorem Accounted.pending (h : Accounted config dropped₀ (accepted config calls) r) (maxCount : UInt32) :
    Accounted config dropped₀ (accepted config (calls ++ [.pending maxCount])) (QueueCall.step r (.pending maxCount)) := by
  have harrived : accepted config (calls ++ [.pending maxCount]) = accepted config calls := by
    simp [accepted, QueueCall.message]
  have hsplit := List.take_append_drop maxCount.toNat r.2.messageQueue
  have hlength := congrArg List.length hsplit
  have hsum := h.sum
  have hbounded := h.bounded
  rw [List.length_append] at hlength
  rw [harrived, QueueCall.step, getPending_eq]
  refine ⟨h.same, ?_, ?_, ?_, h.counter⟩
  all_goals dsimp only
  · omega
  · rw [List.flatten_append, List.flatten_singleton, List.append_assoc, hsplit]
    exact h.order
  · rw [List.flatten_append, List.flatten_singleton, List.length_append]
    omega

theorem Accounted.drain (h : Accounted config dropped₀ (accepted config calls) r) :
    Accounted config dropped₀ (accepted config (calls ++ [.drain])) (QueueCall.step r .drain) := by
  have harrived : accepted config (calls ++ [.drain]) = accepted config calls := by
    simp [accepted, QueueCall.message]
  have hsum := h.sum
  rw [harrived]
  refine ⟨h.same, Nat.zero_le _, ?_, ?_, h.counter⟩
  all_goals simp only [QueueCall.step, Ipc.drain]
  · rw [List.append_nil]
    exact (List.sublist_append_left _ _).trans h.order
  · simp only [List.length_nil]
    omega

end Step

theorem accounted_run (ch : IPCChannel) (calls : List QueueCall) :
    Accounted ch.config ch.stats.messagesDropped (accepted ch.config calls) (runQueue { ch with messageQueue := [] } calls) := by
  induction calls using List.reverseRecOn with
  | nil => exact ⟨rfl, Nat.zero_le _, .slnil, rfl, by simp [runQueue]⟩
  | append_singleton calls call ih =>
    rw [runQueue, List.foldl_append]
    cases call with
    | handle msg => exact ih.handle msg
    | pending maxCount => exact ih.pending maxCount
    | drain => exact ih.drain

/-- **Conservation.** On a channel with an empty queue, after any calls; and what `get_pending` takes next are the oldest
    messages, as many as it may. -/
theorem queue_conserved (ch : IPCChannel) (calls : List QueueCall) :
    let r := runQueue { ch with messageQueue := [] } calls
    r.2.messageQueue.length ≤ ch.config.queueSize.toNat ∧
    r.1.results.flatten.Sublist (accepted ch.config calls) ∧
    (accepted ch.config calls).length =
      r.1.results.flatten.length + r.1.drained + r.2.messageQueue.length + r.1.dropped ∧
    r.2.stats.messagesDropped = ch.stats.messagesDropped + UInt64.ofNat r.1.dropped ∧
    ∀ maxCount, (getPending maxCount r.2).1 = r.2.messageQueue.take maxCount.toNat ∧
      (getPending maxCount r.2).2.messageQueue = r.2.messageQueue.drop maxCount.toNat := by
  have h := accounted_run ch calls
  refine ⟨h.bounded, (List.sublist_append_left _ _).trans h.order, h.sum, h.counter, fun maxCount => ?_⟩
  rw [getPending_eq]
  exact ⟨rfl, rfl⟩

/-- To `a`, for which two may wait: one message is not for it, one comes too early, one is taken and two are drained. -/
theorem queue_conserved_full :
    let ch : IPCChannel := { config := { sandboxId := [97], queueSize := 2 } }
    let note (to_ : Bytes) (n : UInt64) : IPCMessage := ⟨[98], to_, [116], [], 0, n⟩
    let calls : List QueueCall := [.handle (note [97] 0), .handle (note [99] 1), .handle (note [] 2),
      .handle (note [97] 3), .pending 1, .handle (note [] 4), .drain, .handle (note [97] 5), .handle (note [] 6)]
    let r := runQueue { ch with messageQueue := [] } calls
    r.1.results = [[note [97] 0]] ∧ r.1.drained = 2 ∧ r.1.dropped = 1 ∧
    (accepted ch.config calls).length = 1 + 2 + r.2.messageQueue.length + 1 ∧
    (getPending 1 r.2).1 = r.2.messageQueue.take 1 ∧ r.2.messageQueue = [note [97] 5, note [] 6] := by
  intro ch note calls r
  have hresults : r.1.results = [[note [97] 0]] := by decide
  have hdrained : r.1.drained = 2 := by decide
  have hdropped : r.1.dropped = 1 := by decide
  obtain ⟨-, -, hsum, -, hpending⟩ := queue_conserved ch calls
  refine ⟨hresults, hdrained, hdropped, ?_, (hpending 1).1, by decide⟩
  rw [hsum, hresults, hdrained, hdropped]
  rfl

end RedisOps.Ipc
