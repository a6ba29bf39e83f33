import RedisOps.Lib.Decimal
import RedisOps.Lib.Prog

/-!
# Requests and their reply topics

| here | there |
| --- | --- |
| `sendRaw`    | the check of `connected_` and `sequence_.fetch_add` in `IPCChannel::send_raw` (`sandbox/src/ipc.cpp:90`, `:99`) |
| `request`, `send` | `IPCChannel::request` (`:177-189`), `IPCChannel::send` (`:83-86`) |
| `replyTopic` | `topic + ":reply:" + std::to_string(sequence_.load())` (`:180`) |

Calls from any number of threads on one channel, interleaved at their atomic steps: `sequence_.load`, `subscribe` (which
takes `recv_mutex_`), the read of `connected_` and `sequence_.fetch_add`. Others may connect and disconnect meanwhile.

A request reads its number and takes it two steps later. Between the two it has its window open (`Window`); the number
it has read is still the next one as long as nobody else takes one in that time (`windowInv_step`).
-/

namespace RedisOps.Ipc.Reply

open Lib

/-- `subscribers` are the topics of the callbacks, in the order they were added. -/
structure Channel where
  sequence : UInt64
  connected : Bool
  subscribers : List Bytes

inductive SeqOp
  | load
  | subscribe (topic : Bytes)
  | isConnected
  | fetchAdd

@[reducible] def SeqOp.Ret : SeqOp → Type
  | .load => UInt64
  | .subscribe _ => Unit
  | .isConnected => Bool
  | .fetchAdd => UInt64

def SeqOp.exec : (o : SeqOp) → Channel → Option (o.Ret × Channel)
  | .load, ch => some (ch.sequence, ch)
  | .subscribe topic, ch => some ((), { ch with subscribers := ch.subscribers ++ [topic] })
  | .isConnected, ch => some (ch.connected, ch)
  | .fetchAdd, ch => some (ch.sequence, { ch with sequence := ch.sequence + 1 })

/-- What a call leaves behind: the number in its reply topic, if it is a request, and the sequence number of its message,
    if one was sent. -/
structure Sent where
  reply : Option UInt64
  sequence : Option UInt64
  deriving DecidableEq

abbrev SeqProg := Prog SeqOp SeqOp.Ret Sent

/-- `":reply:"`. -/
def replyMark : Bytes := [58, 114, 101, 112, 108, 121, 58]

def replyTopic (topic : Bytes) (n : UInt64) : Bytes := topic ++ replyMark ++ toDecimal n.toNat

/-- The message takes its number. -/
def takeNumber (reply : Option UInt64) : SeqProg := .op .fetchAdd fun seq => .ret ⟨reply, some seq⟩

def sendRaw (reply : Option UInt64) : SeqProg :=
  .op .isConnected fun connected => if connected then takeNumber reply else .ret ⟨reply, none⟩

/-- `request` once it has read the number. -/
def subscribeAndSend (topic : Bytes) (n : UInt64) : SeqProg :=
  .op (.subscribe (replyTopic topic n)) fun _ => sendRaw (some n)

def request (topic : Bytes) : SeqProg := .op .load fun n => subscribeAndSend topic n

inductive Call
  | request (topic : Bytes)
  | send
  deriving DecidableEq

def Call.prog : Call → SeqProg
  | .request topic => Reply.request topic
  | .send => sendRaw none

/-- Others may connect and disconnect the channel. -/
def channelRules : Rules Channel Call SeqOp SeqOp.Ret Sent Unit where
  exec _ := SeqOp.exec
  progOf := Call.prog
  admitted _ := True
  env ch ch' := ch' = { ch with connected := ch'.connected }

abbrev ChannelSys := Sys Channel Call SeqOp SeqOp.Ret Sent
abbrev ChannelEvent := Event Call SeqOp SeqOp.Ret Sent

/-! ## The window of a request -/

/-- The number a request has read, from what is left of it to do. -/
def replyOf : SeqProg → Option UInt64
  | .ret sent => sent.reply
  | .fail => none
  | .op .load _ => none
  | .op (.subscribe _) k => replyOf (k ())
  | .op .isConnected k => replyOf (k false)
  | .op .fetchAdd k => replyOf (k 0)

/-- It has subscribed to its reply topic. -/
def subscribed : SeqProg → Bool
  | .op .load _ => false
  | .op (.subscribe _) _ => false
  | _ => true

/-- Client `c` is in a request on `topic`, has read the number `n`, and has not returned. -/
def Open (s : ChannelSys) (c : Nat) (topic : Bytes) (n : UInt64) : Prop :=
  ∃ p, s.tasks c = some ⟨.request topic, p⟩ ∧ replyOf p = some n

/-- Nobody takes a number while another request has its window open, and nobody reads one while another request on the
    same topic has. -/
def Separate (_ : List ChannelEvent) (s : ChannelSys) : ChannelEvent → Prop
  | .did c _ .fetchAdd _ _ => ∀ c' topic n, c' ≠ c → ¬Open s c' topic n
  | .did c (.request topic) .load _ _ => ∀ c' n, c' ≠ c → ¬Open s c' topic n
  | _ => True

/-- Every message of a request carries the number of its reply topic, and no two requests in progress have subscribed to
    the same one. -/
structure RepliesFind (evs : List ChannelEvent) (s : ChannelSys) : Prop where
  number : ∀ e ∈ evs, ∀ call n seq, e.answered = some (call, ⟨some n, some seq⟩) → n = seq
  topics : ∀ c c' topic topic' n n' p p', c ≠ c' →
    s.tasks c = some ⟨.request topic, p⟩ → replyOf p = some n → subscribed p = true →
    s.tasks c' = some ⟨.request topic', p'⟩ → replyOf p' = some n' → subscribed p' = true →
    replyTopic topic n ≠ replyTopic topic' n'

theorem reach_sendRaw {reply : Option UInt64} {o : SeqOp} {k : o.Ret → SeqProg}
    (h : Prog.Reach (sendRaw reply) (.op o k)) : Prog.op o k = sendRaw reply ∨ Prog.op o k = takeNumber reply := by
  obtain heq | ⟨o', k', r, heq, h⟩ := h.cases
  · exact .inl heq
  · cases heq
    cases r with
    | false => cases h.of_ret
    | true =>
      obtain heq | ⟨o', k', r', heq, h⟩ := h.cases
      · exact .inr heq
      · cases heq
        cases h.of_ret

/-- Where a call can be when it has an operation to perform. -/
def Place (call : Call) (p : SeqProg) : Prop :=
  (∃ topic, call = .request topic ∧ (p = request topic ∨
      ∃ n, p = subscribeAndSend topic n ∨ p = sendRaw (some n) ∨ p = takeNumber (some n))) ∨
    call = .send ∧ (p = sendRaw none ∨ p = takeNumber none)

theorem place_of_reach {call : Call} {o : SeqOp} {k : o.Ret → SeqProg} (h : Prog.Reach call.prog (.op o k)) :
    Place call (.op o k) := by
  cases call with
  | send => exact .inr ⟨rfl, reach_sendRaw h⟩
  | request topic =>
    refine .inl ⟨topic, rfl, ?_⟩
    obtain heq | ⟨o', k', n, heq, h⟩ := h.cases
    · exact .inl heq
    · cases heq
      right
      obtain heq | ⟨o', k', r, heq, h⟩ := h.cases
      · exact ⟨n, .inl heq⟩
      · cases heq
        exact ⟨n, .inr (reach_sendRaw h)⟩

section Steps
variable {ch : Channel} {evs : List ChannelEvent} {s s' : ChannelSys} {e : ChannelEvent} {c : Nat} {topic : Bytes}
  {n : UInt64}

theorem Trace.place (htr : Trace channelRules ch evs s) {call : Call} {o : SeqOp} {k : o.Ret → SeqProg}
    (hc : s.tasks c = some ⟨call, .op o k⟩) : Place call (.op o k) :=
  place_of_reach (htr.task_reach hc).2

/-- A window that is open was open before, or its request has just read its number. -/
theorem open_step (htr : Trace channelRules ch evs s) (hstep : Step channelRules s e s') (h : Open s' c topic n) :
    Open s c topic n ∨ e = .did c (.request topic) .load n none ∧ n = s.shared.sequence := by
  obtain ⟨p, hp, hn⟩ := h
  obtain ⟨hc, -⟩ | ⟨-, hprog, -⟩ | ⟨i, o, k, r, hc, hex, hprog, he⟩ := hstep.task_cases hp
  · exact .inl ⟨p, hc, hn⟩
  · rw [show p = request topic from hprog] at hn
    cases hn
  · obtain rfl : p = k r := hprog
    have hkeep : replyOf (.op o k) = some n → Open s c topic n := fun h => ⟨_, hc, h⟩
    obtain ⟨topic', heq, hplace⟩ | ⟨heq, -⟩ := Trace.place htr hc
    · cases heq
      obtain hload | ⟨m, hsub | hsend | htake⟩ := hplace
      · right
        cases hload
        obtain ⟨hr, -⟩ := Prod.mk.inj (Option.some.inj hex)
        cases hn
        exact ⟨he, hr.symm⟩
      · cases hsub
        exact .inl (hkeep hn)
      · cases hsend
        left
        apply hkeep
        cases r with
        | false => exact hn
        | true => exact hn
      · cases htake
        exact .inl (hkeep hn)
    · cases heq

/-- The number moves only when a message takes one, and then the window of its own request closes. -/
theorem sequence_step (htr : Trace channelRules ch evs s) (hstep : Step channelRules s e s') :
    s'.shared.sequence = s.shared.sequence ∨
      ∃ c call answer, e = .did c call .fetchAdd s.shared.sequence answer ∧ s'.tasks c = none := by
  cases hstep with
  | begin c call hc hadm => exact .inl rfl
  | op c call o k i r ch' hc hex =>
    cases o with
    | load =>
      cases hex
      exact .inl rfl
    | subscribe topic =>
      cases hex
      exact .inl rfl
    | isConnected =>
      cases hex
      exact .inl rfl
    | fetchAdd =>
      cases hex
      refine .inr ⟨c, call, _, rfl, ?_⟩
      obtain ⟨topic, -, heq | ⟨n, heq | heq | heq⟩⟩ | ⟨-, heq | heq⟩ := Trace.place htr hc <;> cases heq <;>
        exact Function.update_self ..
  | opFails c call o k i hc hex => cases o <;> cases hex
  | fails c call hc => exact .inl rfl
  | env ch' henv =>
    rw [show ch' = { s.shared with connected := ch'.connected } from henv]
    exact .inl rfl

/-- The number in a reply topic is the next one, and no two windows are open on one topic. -/
structure WindowInv (evs : List ChannelEvent) (s : ChannelSys) : Prop where
  current : ∀ c topic n, Open s c topic n → n = s.shared.sequence
  apart : ∀ c c' topic n n', c ≠ c' → Open s c topic n → ¬Open s c' topic n'
  number : ∀ e ∈ evs, ∀ call n seq, e.answered = some (call, ⟨some n, some seq⟩) → n = seq

/-- A request that takes a number takes the one it has read. -/
theorem answered_step (htr : Trace channelRules ch evs s) (hi : WindowInv evs s) (hstep : Step channelRules s e s')
    {call : Call} {seq : UInt64} (h : e.answered = some (call, ⟨some n, some seq⟩)) : n = seq := by
  cases hstep with
  | begin c call hc hadm => cases call <;> cases h
  | op c call o k i r ch' hc hex =>
    obtain ⟨sent, hsent, heq⟩ := Option.map_eq_some_iff.1 h
    obtain ⟨rfl, rfl⟩ := Prod.mk.inj heq
    obtain ⟨topic, rfl, hplace | ⟨m, hplace | hplace | hplace⟩⟩ | ⟨-, hplace | hplace⟩ := Trace.place htr hc
    · cases hplace
      cases hsent
    · cases hplace
      cases hsent
    · cases hplace
      cases r <;> cases hsent
    · cases hplace
      cases hsent
      obtain ⟨hseq, -⟩ := Prod.mk.inj (Option.some.inj hex)
      rw [← hseq]
      exact hi.current c topic n ⟨_, hc, rfl⟩
    · cases hplace
      cases r <;> cases hsent
    · cases hplace
      cases hsent
  | opFails c call o k i hc hex => cases h
  | fails c call hc => cases h
  | env ch' henv => cases h

theorem windowInv_step (htr : Trace channelRules ch evs s) (hi : WindowInv evs s) (hstep : Step channelRules s e s')
    (hsep : Separate evs s e) : WindowInv (evs ++ [e]) s' where
  current c topic n hopen := by
    obtain hseq | ⟨c', call, answer, rfl, hgone⟩ := sequence_step htr hstep
    · rw [hseq]
      obtain hopen | ⟨-, hn⟩ := open_step htr hstep hopen
      · exact hi.current c topic n hopen
      · exact hn
    · obtain hold | ⟨he, -⟩ := open_step htr hstep hopen
      · by_cases hc : c = c'
        · subst hc
          obtain ⟨p, hp, -⟩ := hopen
          rw [hgone] at hp
          cases hp
        · exact absurd hold (hsep c topic n hc)
      · cases he
  apart c c' topic n n' hne hopen hopen' := by
    obtain hold | ⟨rfl, -⟩ := open_step htr hstep hopen
    · obtain hold' | ⟨rfl, -⟩ := open_step htr hstep hopen'
      · exact hi.apart c c' topic n n' hne hold hold'
      · exact hsep c n hne hold
    · obtain hold' | ⟨he, -⟩ := open_step htr hstep hopen'
      · exact hsep c' n' hne.symm hold'
      · cases he
        exact hne rfl
  number e' he' call n seq hans := by
    rcases List.mem_append.1 he' with hold | hlast
    · exact hi.number e' hold call n seq hans
    · rw [List.mem_singleton.1 hlast] at hans
      exact answered_step htr hi hstep hans

theorem windowInv_trace (h : GuardedTrace channelRules ch Separate evs s) : WindowInv evs s := by
  induction h with
  | start =>
    refine ⟨?_, ?_, by simp⟩
    · rintro c topic n ⟨p, hp, -⟩
      cases hp
    · rintro c c' topic n n' - ⟨p, hp, -⟩
      cases hp
  | next htr hstep hsep ih => exact windowInv_step htr.trace ih hstep hsep

end Steps

/-- **Replies find their request**, in every run in which no message takes a number within the window of another request
    and no two requests on one topic have theirs open together. -/
theorem replies_find {ch : Channel} {evs : List ChannelEvent} {s : ChannelSys}
    (h : GuardedTrace channelRules ch Separate evs s) : RepliesFind evs s := by
  have hi := windowInv_trace h
  refine ⟨hi.number, ?_⟩
  intro c c' topic topic' n n' p p' hne hp hn _ hp' hn' _ heq
  have hn₁ := hi.current c topic n ⟨p, hp, hn⟩
  have hn₂ := hi.current c' topic' n' ⟨p', hp', hn'⟩
  rw [hn₁, hn₂] at heq
  have htopic : topic = topic' := List.append_cancel_right (List.append_cancel_right heq)
  subst htopic
  exact hi.apart c c' topic n n' hne ⟨p, hp, hn⟩ ⟨p', hp', hn'⟩

/-- A connected channel that has sent nothing yet. -/
def freshChannel : Channel := ⟨0, true, []⟩

/-- While no other window is open, a client is in nobody's. -/
theorem separate_alone {evs : List ChannelEvent} {s : ChannelSys} {e : ChannelEvent} {c : Nat}
    (hnone : ∀ c' topic n, c' ≠ c → ¬Open s c' topic n) (he : e.client? = some c) : Separate evs s e := by
  cases e with
  | began c' call answer => trivial
  | did c' call o r answer =>
    cases he
    cases o with
    | load =>
      cases call with
      | request topic => exact fun c' n hne => hnone c' topic n hne
      | send => trivial
    | subscribe topic => trivial
    | isConnected => trivial
    | fetchAdd => exact hnone
  | died c' call => trivial
  | env => trivial

/-- A request on a connected channel, with no other window open, runs to its end. -/
theorem guarded_request {ch : Channel} {evs : List ChannelEvent} {sequence : UInt64} {subscribers : List Bytes}
    {tasks : Nat → Option (Task Call SeqOp SeqOp.Ret Sent)} (c : Nat) {topic : Bytes}
    (h : GuardedTrace channelRules ch Separate evs ⟨⟨sequence, true, subscribers⟩, tasks⟩)
    (hc : tasks c = some ⟨.request topic, request topic⟩)
    (hnone : ∀ c' t, c' ≠ c → tasks c' = some t → replyOf t.prog = none) :
    ∃ evs', GuardedTrace channelRules ch Separate (evs ++ evs')
        ⟨⟨sequence + 1, true, subscribers ++ [replyTopic topic sequence]⟩, Function.update tasks c none⟩ ∧
      .did c (.request topic) .fetchAdd sequence (some ⟨some sequence, some sequence⟩) ∈ evs' := by
  have hopen : ∀ s' : ChannelSys, (∀ c', c' ≠ c → s'.tasks c' = tasks c') → ∀ c' topic n, c' ≠ c →
      ¬Open s' c' topic n := by
    rintro s' hs' c' topic n hne ⟨p, hp, hn⟩
    cases (hnone c' _ hne ((hs' c' hne).symm.trans hp)).symm.trans hn
  have t₁ := h.next (.op _ c (.request topic) .load (subscribeAndSend topic) () sequence _ hc rfl)
    (separate_alone (hopen _ fun _ _ => rfl) rfl)
  have t₂ := t₁.next (.op _ c (.request topic) (.subscribe (replyTopic topic sequence)) (fun _ => sendRaw (some sequence))
    () () _ (Function.update_self ..) rfl) (separate_alone (hopen _ fun _ hne => by simp [hne]) rfl)
  have t₃ := t₂.next (.op _ c (.request topic) .isConnected (fun connected =>
    if connected then takeNumber (some sequence) else .ret ⟨some sequence, none⟩)
    () true _ (Function.update_self ..) rfl) (separate_alone (hopen _ fun _ hne => by simp [hne]) rfl)
  have t₄ := t₃.next (.op _ c (.request topic) .fetchAdd (fun seq => .ret ⟨some sequence, some seq⟩)
    () sequence _ (Function.update_self ..) rfl) (separate_alone (hopen _ fun _ hne => by simp [hne]) rfl)
  simp only [Function.update_idem, List.append_assoc] at t₄
  exact ⟨_, t₄, by simp [Prog.answer?]⟩

/-- Two clients, both in a request on topic `t`: the second one reads its number when the first one is through. -/
theorem replies_find_alone : ∃ evs s, GuardedTrace channelRules freshChannel Separate evs s ∧
    (∃ e ∈ evs, e.answered = some (.request [116], ⟨some 0, some 0⟩)) ∧
    (∃ e ∈ evs, e.answered = some (.request [116], ⟨some 1, some 1⟩)) ∧ RepliesFind evs s := by
  have t₀ : GuardedTrace channelRules freshChannel Separate [] ⟨freshChannel, fun _ => none⟩ := .start
  have t₁ := t₀.next (.begin _ 0 (Call.request [116]) rfl trivial) trivial
  have t₂ := t₁.next (.begin _ 1 (Call.request [116]) rfl trivial) trivial
  obtain ⟨evs, t₃, hmem⟩ := guarded_request 0 t₂ rfl (by
    intro c' t hne ht
    -- the other one has read nothing yet
    by_cases hone : c' = 1
    · subst hone
      cases ht
      rfl
    · simp [hne, hone] at ht)
  obtain ⟨evs', t₄, hmem'⟩ := guarded_request 1 t₃ rfl (by
    intro c' t hne ht
    by_cases hzero : c' = 0
    · subst hzero
      cases ht
    · simp [hne, hzero] at ht)
  exact ⟨_, _, t₄, ⟨_, List.mem_append_left _ (List.mem_append_right _ hmem), rfl⟩,
    ⟨_, List.mem_append_right _ hmem', rfl⟩, replies_find t₄⟩

/-- Two requests on one topic, in step: both read 0, subscribe to the same reply topic, and send messages 0 and 1. -/
theorem replies_collide : ∃ evs s, Trace channelRules freshChannel evs s ∧
    s.shared.subscribers = [replyTopic [116] 0, replyTopic [116] 0] ∧
    (∃ e ∈ evs, e.answered = some (.request [116], ⟨some 0, some 1⟩)) ∧ ¬RepliesFind evs s := by
  have hplay : (playAll channelRules () ([.start 0 (.request [116]), .start 1 (.request [116])] ++
      (List.replicate 4 [.step 0, .step 1]).flatten) ⟨freshChannel, fun _ => none⟩).any (fun run =>
        decide (run.2.shared.subscribers = [replyTopic [116] 0, replyTopic [116] 0]) &&
          run.1.any fun e => decide (e.answered = some (.request [116], ⟨some 0, some 1⟩))) = true := rfl
  obtain ⟨⟨evs, s⟩, hrun, htest⟩ := (Option.any_eq_true _ _).1 hplay
  obtain ⟨hsubs, e, he, hans⟩ : s.shared.subscribers = [replyTopic [116] 0, replyTopic [116] 0] ∧
      ∃ e ∈ evs, e.answered = some (.request [116], ⟨some 0, some 1⟩) := by simpa using htest
  have htrace := trace_of_playAll (fun _ => trivial) (Trace.start (R := channelRules)) hrun
  rw [List.nil_append] at htrace
  refine ⟨evs, s, htrace, hsubs, ⟨e, he, hans⟩, ?_⟩
  intro h
  exact absurd (h.number e he _ _ _ hans) (by decide)

end RedisOps.Ipc.Reply
