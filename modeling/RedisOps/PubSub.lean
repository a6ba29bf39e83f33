import Mathlib.Data.List.AList
import RedisOps.Lib.Broadcast

/-!
# Publishing (`redisdb/src/pubsub.rs`)

| here | there |
| --- | --- |
| `PubSub` | the map under its lock, and beside it every channel and every receiver there has been |
| `subscribe` … `subscriberCount` | the methods of `PubSub` |
| `Broadcast` | `tokio::sync::broadcast`: any that is `Lawful` |

A receiver belongs to whoever subscribed: it is asked and dropped without the lock, also between the `send` and the
`receiver_count` of a `publish`. `unsubscribe` is about a channel and not about a subscriber, so everybody's receivers are cut
off, and the next `subscribe` makes another channel of the same name.

`pubsub_delivers`: the channels by their names, as `Feed`s of receivers, hold for all orders of calls.
-/

namespace RedisOps

open Lib

/-- A receiver is the number of its channel, and `none` once it was dropped. -/
structure PubSub (B : Broadcast String) where
  channels : AList fun _ : String => Nat
  maxSubscribers : Nat
  made : List B.State
  receivers : List (Option Nat)

namespace PubSub
variable {B : Broadcast String}

def withCapacity (capacity : Nat) : PubSub B := ⟨∅, capacity, [], []⟩

def onChannel (s : PubSub B) (c : Nat) (f : B.State → B.State) : PubSub B := { s with made := s.made.modify c f }

/-- `broadcast::channel` panics before anything is inserted, and no lock is poisoned. -/
def subscribe (s : PubSub B) (channel : String) : Option Nat × PubSub B :=
  let r := s.receivers.length
  match s.channels.lookup channel with
  | some c => (some r, { s.onChannel c (B.subscribe · r) with receivers := s.receivers ++ [some c] })
  | none =>
    match B.channel s.maxSubscribers with
    | some tx => (some r, { s with
        channels := s.channels.insert channel s.made.length
        made := s.made ++ [B.subscribe tx r]
        receivers := s.receivers ++ [some s.made.length] })
    | none => (none, s)

def dropReceiver (s : PubSub B) (r : Nat) : PubSub B :=
  match s.receivers[r]? with
  | some (some c) => { s.onChannel c (B.dropReceiver · r) with receivers := s.receivers.set r none }
  | _ => s

def receiverCount (s : PubSub B) (c : Nat) : Nat := (s.made[c]?.map B.receiverCount).getD 0

/-- `gone`: the receivers that are dropped in the meantime. -/
def publish (s : PubSub B) (channel message : String) (gone : List Nat) : Nat × PubSub B :=
  match s.channels.lookup channel with
  | some c =>
    let s := gone.foldl dropReceiver (s.onChannel c (B.send · message))
    (s.receiverCount c, s)
  | none => (0, gone.foldl dropReceiver s)

def unsubscribe (s : PubSub B) (channel : String) : PubSub B :=
  match s.channels.lookup channel with
  | some c => { s.onChannel c B.dropSender with channels := s.channels.erase channel }
  | none => s

def channelCount (s : PubSub B) : Nat := s.channels.keys.length

def subscriberCount (s : PubSub B) (channel : String) : Nat := ((s.channels.lookup channel).map s.receiverCount).getD 0

/-- A receiver is asked for the next message. -/
def recv (s : PubSub B) (r : Nat) : Option (Recv String) × PubSub B :=
  match s.receivers[r]? with
  | some (some c) =>
    match s.made[c]? with
    | some tx => (some (B.recv tx r).1, s.onChannel c fun _ => (B.recv tx r).2)
    | none => (none, s)
  | _ => (none, s)

/-! ## Runs -/

inductive Act
  | subscribe (channel : String)
  | publish (channel message : String) (gone : List Nat)
  | unsubscribe (channel : String)
  | recv (r : Nat)
  | dropReceiver (r : Nat)

inductive Event
  | subscribed (channel : String)
  | published (channel message : String) (gone : List Nat) (count : Nat)
  | unsubscribed (channel : String)
  | told (r : Nat) (answer : Recv String)
  | dropped (r : Nat)
  | nothing
  deriving DecidableEq

def Act.step (s : PubSub B) : Act → Event × PubSub B
  | .subscribe channel =>
    match s.subscribe channel with
    | (some _, s) => (.subscribed channel, s)
    | (none, s) => (.nothing, s)
  | .publish channel message gone =>
    (.published channel message gone (s.publish channel message gone).1, (s.publish channel message gone).2)
  | .unsubscribe channel => (.unsubscribed channel, s.unsubscribe channel)
  | .recv r =>
    match s.recv r with
    | (some answer, s) => (.told r answer, s)
    | (none, s) => (.nothing, s)
  | .dropReceiver r => (.dropped r, s.dropReceiver r)

def run (s : PubSub B) (acts : List Act) : List Event × PubSub B :=
  acts.foldl (fun out act => (out.1 ++ [(act.step out.2).1], (act.step out.2).2)) ([], s)

/-! ## What a receiver is for -/

/-- A receiver, by the name of its channel. `current`: that channel is still the one of the name. -/
structure Feed where
  channel : String
  current : Bool := true
  live : Bool := true
  sent : List String := []
  told : List (Recv String) := []
  deriving DecidableEq

def Feed.hears (f : Feed) (channel : String) : Bool := f.channel = channel && f.current && f.live

def Feed.hear (channel message : String) (f : Feed) : Feed :=
  if f.hears channel then { f with sent := f.sent ++ [message] } else f

def Feed.cut (channel : String) (f : Feed) : Feed := if f.channel = channel then { f with current := false } else f

def Feed.drop (feeds : List Feed) (r : Nat) : List Feed := feeds.modify r fun f => { f with live := false }

def Event.on (feeds : List Feed) : Event → List Feed
  | .subscribed channel => feeds ++ [{ channel }]
  | .published channel message gone _ => gone.foldl Feed.drop (feeds.map (Feed.hear channel message))
  | .unsubscribed channel => feeds.map (Feed.cut channel)
  | .told r answer => feeds.modify r fun f => { f with told := f.told ++ [answer] }
  | .dropped r => Feed.drop feeds r
  | .nothing => feeds

/-- The receivers in the order in which they subscribed. -/
def feeds (evs : List Event) : List Feed := evs.foldl Event.on []

/-! ## The receivers of a channel -/

theorem getElem?_concat_eq_some {α : Type} {l : List α} {a b : α} {i : Nat} :
    (l ++ [a])[i]? = some b ↔ l[i]? = some b ∨ (i = l.length ∧ a = b) := by
  rcases Nat.lt_trichotomy i l.length with h | rfl | h
  · rw [List.getElem?_append_left h]
    simp [Nat.ne_of_lt h]
  · simp
  · rw [List.getElem?_eq_none (by simpa using h), List.getElem?_eq_none h.le]
    simp [Nat.ne_of_gt h]

def members (receivers : List (Option Nat)) (c : Nat) : List Nat :=
  (List.range receivers.length).filter fun r => receivers[r]? = some (some c)

theorem mem_members {receivers : List (Option Nat)} {c r : Nat} :
    r ∈ members receivers c ↔ receivers[r]? = some (some c) := by
  rw [members, List.mem_filter, List.mem_range, decide_eq_true_eq, and_iff_right_iff_imp]
  intro h
  exact (List.getElem?_eq_some_iff.1 h).1

theorem members_append (receivers : List (Option Nat)) (c c' : Nat) :
    members (receivers ++ [some c']) c = members receivers c ++ if c' = c then [receivers.length] else [] := by
  rw [members, List.length_append, List.length_singleton, List.range_succ, List.filter_append, members]
  congr 1
  · apply List.filter_congr
    intro r hr
    rw [List.getElem?_append_left (List.mem_range.1 hr)]
  · simp [List.filter_singleton]

theorem members_set (receivers : List (Option Nat)) (c r : Nat) :
    members (receivers.set r none) c = (members receivers c).filter fun r' => r' ≠ r := by
  rw [members, members, List.length_set, List.filter_filter]
  apply List.filter_congr
  intro r' hr'
  rw [List.getElem?_set]
  by_cases h : r = r'
  · subst h
    simp [List.mem_range.1 hr']
  · simp [h, Ne.symm h]

/-! ## What every call keeps -/

/-- `left`: what each receiver has still to be told. -/
structure Serves (view : B.State → Channel String) (s : PubSub B) (fs : List Feed) (left : Nat → List String) : Prop where
  length : s.receivers.length = fs.length
  told : ∀ {r : Nat} {f : Feed}, fs[r]? = some f → Told f.sent f.told (left r)
  made : ∀ {c : Nat} {tx : B.State}, s.made[c]? = some tx → s.maxSubscribers ≤ (view tx).keep ∧
    ((view tx).sender = true ↔ ∃ channel, s.channels.lookup channel = some c) ∧
    (view tx).inbox = (members s.receivers c).map fun r => (r, left r)
  live : ∀ {r : Nat} {f : Feed}, fs[r]? = some f → (f.live = true ↔ ∃ c, s.receivers[r]? = some (some c))
  current : ∀ {r : Nat} {f : Feed} {c : Nat}, fs[r]? = some f → s.receivers[r]? = some (some c) →
    c < s.made.length ∧ ∀ channel, s.channels.lookup channel = some c ↔ f.channel = channel ∧ f.current = true
  named : ∀ {channel : String} {c : Nat}, s.channels.lookup channel = some c → c < s.made.length
  one : ∀ {channel channel' : String} {c : Nat}, s.channels.lookup channel = some c →
    s.channels.lookup channel' = some c → channel = channel'
  names : ∀ {channel : String}, channel ∈ s.channels ↔ ∃ f ∈ fs, f.channel = channel ∧ f.current = true

theorem getElem?_onChannel {s : PubSub B} {c c' : Nat} {g : B.State → B.State} {tx' : B.State}
    (h : (s.onChannel c g).made[c']? = some tx') :
    (c' = c ∧ ∃ tx, s.made[c]? = some tx ∧ tx' = g tx) ∨ (c' ≠ c ∧ s.made[c']? = some tx') := by
  rw [onChannel, List.getElem?_modify] at h
  by_cases hc : c = c'
  · subst hc
    cases htx : s.made[c]? with
    | none => simp [htx] at h
    | some tx =>
      rw [htx] at h
      simp only [if_true, Option.map_eq_map, Option.map_some, Option.some.injEq] at h
      exact .inl ⟨rfl, tx, rfl, h.symm⟩
  · refine .inr ⟨Ne.symm hc, ?_⟩
    cases htx : s.made[c']? with
    | none => simp [htx] at h
    | some tx =>
      rw [htx] at h
      simpa [hc] using h

@[simp] theorem length_onChannel (s : PubSub B) (c : Nat) (g : B.State → B.State) :
    (s.onChannel c g).made.length = s.made.length := List.length_modify ..

section Serves
variable {view : B.State → Channel String} {s : PubSub B} {fs : List Feed} {left : Nat → List String}

theorem Serves.start (capacity : Nat) (left : Nat → List String) :
    Serves view (withCapacity capacity : PubSub B) [] left where
  length := rfl
  told h := by cases h
  made h := by cases h
  live h := by cases h
  current h := by cases h
  named h := by cases h
  one h := by cases h
  names := by simp [withCapacity]

theorem Serves.feed (h : Serves view s fs left) {r : Nat} {a : Option Nat} (hr : s.receivers[r]? = some a) :
    ∃ f, fs[r]? = some f := by
  have hlt := (List.getElem?_eq_some_iff.1 hr).1
  rw [h.length] at hlt
  exact ⟨fs[r], List.getElem?_eq_getElem hlt⟩

theorem Serves.receivers_view (h : Serves view s fs left) {c : Nat} {tx : B.State} (htx : s.made[c]? = some tx) {r : Nat} :
    r ∈ (view tx).receivers ↔ s.receivers[r]? = some (some c) := by
  rw [Channel.receivers, (h.made htx).2.2, List.map_map]
  simpa using mem_members

theorem Serves.hears_iff (h : Serves view s fs left) {r c : Nat} {f : Feed} (hf : fs[r]? = some f) {channel : String}
    (hc : s.channels.lookup channel = some c) : f.hears channel = true ↔ s.receivers[r]? = some (some c) := by
  simp only [Feed.hears, Bool.and_eq_true, decide_eq_true_eq]
  constructor
  · rintro ⟨⟨hchannel, hcurrent⟩, hlive⟩
    obtain ⟨c', hr⟩ := (h.live hf).1 hlive
    have hc' := ((h.current hf hr).2 channel).2 ⟨hchannel, hcurrent⟩
    rw [hc] at hc'
    rw [hr, hc']
  · intro hr
    exact ⟨((h.current hf hr).2 channel).1 hc, (h.live hf).2 ⟨c, hr⟩⟩

/-- One receiver more, on the channel that has the name by now: it had it, or it is new. -/
theorem Serves.enlist (h : Serves view s fs left) {s' : PubSub B} {channel : String} {c : Nat}
    (hc : s.channels.lookup channel = some c ∨ (s.channels.lookup channel = none ∧ c = s.made.length))
    (hreceivers : s'.receivers = s.receivers ++ [some c]) (hlen : s.made.length ≤ s'.made.length ∧ c < s'.made.length)
    (hlookup : ∀ channel', s'.channels.lookup channel' = if channel' = channel then some c else s.channels.lookup channel')
    (hmade : ∀ {c' tx'}, s'.made[c']? = some tx' → (c' ≠ c ∧ s.made[c']? = some tx' ∧ s'.maxSubscribers = s.maxSubscribers) ∨
      (c' = c ∧ s'.maxSubscribers ≤ (view tx').keep ∧ (view tx').sender = true ∧
        (view tx').inbox = (members s.receivers c).map (fun r => (r, left r)) ++ [(s.receivers.length, [])])) :
    Serves view s' (fs ++ [Feed.mk channel true true [] []]) (Function.update left s.receivers.length []) := by
  have hold : ∀ {r : Nat} {a : Option Nat}, s.receivers[r]? = some a → r ≠ s.receivers.length := by
    intro r a hr
    exact Nat.ne_of_lt (List.getElem?_eq_some_iff.1 hr).1
  have hfeed : ∀ {r : Nat} {f : Feed}, fs[r]? = some f → r ≠ s.receivers.length := by
    intro r f hf
    rw [h.length]
    exact Nat.ne_of_lt (List.getElem?_eq_some_iff.1 hf).1
  have hinbox : ∀ c', (members s.receivers c').map (fun r => (r, Function.update left s.receivers.length [] r)) =
      (members s.receivers c').map fun r => (r, left r) := by
    intro c'
    apply List.map_congr_left
    intro r hr
    rw [Function.update_of_ne (hold (mem_members.1 hr))]
  -- a channel other than `c` has the same names as before
  have hother : ∀ {c' channel'}, c' ≠ c → (s'.channels.lookup channel' = some c' ↔ s.channels.lookup channel' = some c') := by
    intro c' channel' hne
    rw [hlookup]
    split
    · rename_i heq
      subst heq
      rcases hc with hc | ⟨hc, -⟩
      · simp [hc]
      · simp [hc, Ne.symm hne]
    · rfl
  have hself : ∀ {channel'}, s'.channels.lookup channel' = some c ↔ channel' = channel := by
    intro channel'
    rw [hlookup]
    split
    · simpa
    · rename_i hne
      simp only [hne, iff_false]
      intro hc'
      rcases hc with hc | ⟨-, rfl⟩
      · exact hne (h.one hc' hc)
      · exact Nat.lt_irrefl _ (h.named hc')
  refine ⟨?_, ?_, ?_, ?_, ?_, ?_, ?_, ?_⟩
  · rw [hreceivers, List.length_append, List.length_append, h.length]
    rfl
  · intro r f hf
    rcases getElem?_concat_eq_some.1 hf with hf | ⟨rfl, rfl⟩
    · rw [Function.update_of_ne (hfeed hf)]
      exact h.told hf
    · rw [← h.length, Function.update_self]
      exact .start
  · intro c' tx' htx'
    rw [hreceivers, members_append]
    rcases hmade htx' with ⟨hne, htx, hmax⟩ | ⟨rfl, hkeep, hsender, hin⟩
    · obtain ⟨hkeep, hsender, hin⟩ := h.made htx
      rw [if_neg (Ne.symm hne), List.append_nil, hinbox, hmax]
      refine ⟨hkeep, ?_, hin⟩
      rw [hsender]
      exact exists_congr fun channel' => (hother hne).symm
    · rw [if_pos rfl, List.map_append, hinbox, List.map_singleton, Function.update_self]
      exact ⟨hkeep, by simp [hsender, hself], hin⟩
  · intro r f hf
    rw [hreceivers]
    rcases getElem?_concat_eq_some.1 hf with hf | ⟨rfl, rfl⟩
    · rw [h.live hf]
      simp [getElem?_concat_eq_some, hfeed hf]
    · rw [← h.length]
      simp
  · intro r f c' hf hr
    rw [hreceivers] at hr
    rcases getElem?_concat_eq_some.1 hf with hf | ⟨rfl, rfl⟩
    · rcases getElem?_concat_eq_some.1 hr with hr | ⟨hlast, -⟩
      · obtain ⟨hlt, hcurrent⟩ := h.current hf hr
        refine ⟨Nat.lt_of_lt_of_le hlt hlen.1, ?_⟩
        intro channel'
        rw [← hcurrent]
        by_cases hne : c' = c
        · subst hne
          rw [hself]
          rcases hc with hc | ⟨-, rfl⟩
          · exact ⟨fun heq => heq ▸ hc, fun hc' => h.one hc' hc⟩
          · exact absurd hlt (Nat.lt_irrefl _)
        · exact hother hne
      · exact absurd hlast (hfeed hf)
    · have hcc : c' = c := by
        rw [← h.length] at hr
        simpa using hr.symm
      subst hcc
      refine ⟨hlen.2, ?_⟩
      intro channel'
      rw [hself]
      simp [eq_comm]
  · intro channel' c' hc'
    by_cases hne : c' = c
    · exact hne ▸ hlen.2
    · exact Nat.lt_of_lt_of_le (h.named ((hother hne).1 hc')) hlen.1
  · intro channel' channel'' c' hc' hc''
    by_cases hne : c' = c
    · subst hne
      rw [hself.1 hc', hself.1 hc'']
    · exact h.one ((hother hne).1 hc') ((hother hne).1 hc'')
  · intro channel'
    rw [← AList.lookup_isSome, hlookup]
    split
    · rename_i heq
      subst heq
      simp
    · rename_i hne
      rw [AList.lookup_isSome, h.names]
      simp [Ne.symm hne]

theorem Serves.subscribe (h : Serves view s fs left) (hB : B.Lawful view) (channel : String) :
    ∃ left', Serves view (Act.step s (.subscribe channel)).2 (Event.on fs (Act.step s (.subscribe channel)).1) left' := by
  cases hc : s.channels.lookup channel with
  | some c =>
    simp only [Act.step, PubSub.subscribe, hc]
    refine ⟨_, h.enlist (.inl hc) rfl ?_ ?_ ?_⟩
    · simpa using h.named hc
    · intro channel'
      split
      · rename_i heq
        exact heq ▸ hc
      · rfl
    · intro c' tx' htx'
      rcases getElem?_onChannel htx' with ⟨rfl, tx, htx, rfl⟩ | ⟨hne, htx⟩
      · have hfresh : s.receivers.length ∉ (view tx).receivers := by
          rw [h.receivers_view htx]
          simp
        obtain ⟨hkeep, hsender, hin⟩ := h.made htx
        refine .inr ⟨rfl, ?_⟩
        rw [hB.subscribe _ _ hfresh]
        exact ⟨hkeep, hsender.2 ⟨channel, hc⟩, by rw [Channel.subscribe, hin]⟩
      · exact .inl ⟨hne, htx, rfl⟩
  | none =>
    cases htx : B.channel s.maxSubscribers with
    | none =>
      simp only [Act.step, PubSub.subscribe, hc, htx]
      exact ⟨left, h⟩
    | some tx =>
      simp only [Act.step, PubSub.subscribe, hc, htx]
      refine ⟨_, h.enlist (.inr ⟨hc, rfl⟩) rfl ?_ ?_ ?_⟩
      · simp
      · intro channel'
        split
        · rename_i heq
          exact heq ▸ AList.lookup_insert _
        · rename_i hne
          exact AList.lookup_insert_ne hne
      · intro c' tx' htx'
        rcases getElem?_concat_eq_some.1 htx' with htx' | ⟨rfl, rfl⟩
        · exact .inl ⟨Nat.ne_of_lt (List.getElem?_eq_some_iff.1 htx').1, htx', rfl⟩
        · obtain ⟨hkeep, hsender, hin⟩ := hB.channel htx
          have hnone : members s.receivers s.made.length = [] := by
            rw [List.eq_nil_iff_forall_not_mem]
            intro r hr
            have hr := mem_members.1 hr
            obtain ⟨f, hf⟩ := h.feed hr
            exact Nat.lt_irrefl _ (h.current hf hr).1
          refine .inr ⟨rfl, ?_⟩
          rw [hB.subscribe _ _ (by simp [Channel.receivers, hin]), hnone]
          exact ⟨hkeep, hsender, by rw [Channel.subscribe, hin]; rfl⟩

/-! ### The other calls -/

theorem Serves.send (h : Serves view s fs left) (hB : B.Lawful view) {channel : String} {c : Nat}
    (hc : s.channels.lookup channel = some c) (message : String) :
    Serves view (s.onChannel c (B.send · message)) (fs.map (Feed.hear channel message))
      (fun r => if s.receivers[r]? = some (some c) then left r ++ [message] else left r) := by
  have hfeed : ∀ {r : Nat} {f : Feed}, (fs.map (Feed.hear channel message))[r]? = some f →
      ∃ f₀, fs[r]? = some f₀ ∧ f = f₀.hear channel message := by
    intro r f hf
    rw [List.getElem?_map] at hf
    obtain ⟨f₀, hf₀, rfl⟩ := Option.map_eq_some_iff.1 hf
    exact ⟨f₀, hf₀, rfl⟩
  have hkept : ∀ f : Feed, (f.hear channel message).channel = f.channel ∧ (f.hear channel message).current = f.current ∧
      (f.hear channel message).live = f.live := by
    intro f
    rw [Feed.hear]
    split <;> exact ⟨rfl, rfl, rfl⟩
  refine ⟨?_, ?_, ?_, ?_, ?_, ?_, h.one, ?_⟩
  · rw [List.length_map]
    exact h.length
  · intro r f hf
    obtain ⟨f₀, hf₀, rfl⟩ := hfeed hf
    have hiff := h.hears_iff hf₀ hc
    have ht := h.told hf₀
    rw [Feed.hear]
    by_cases hr : s.receivers[r]? = some (some c)
    · rw [if_pos (hiff.2 hr), if_pos hr]
      exact ht.append [message]
    · rw [if_neg (fun hh => hr (hiff.1 hh)), if_neg hr]
      exact ht
  · intro c' tx' htx'
    have hmax : (s.onChannel c (B.send · message)).maxSubscribers = s.maxSubscribers := rfl
    rcases getElem?_onChannel htx' with ⟨rfl, tx, htx, rfl⟩ | ⟨hne, htx⟩
    · obtain ⟨hkeep, hsender, hin⟩ := h.made htx
      rw [hB.send, Channel.send, hin, List.map_map]
      refine ⟨hkeep, hsender, ?_⟩
      apply List.map_congr_left
      intro r hr
      rw [if_pos (mem_members.1 hr)]
      rfl
    · obtain ⟨hkeep, hsender, hin⟩ := h.made htx
      refine ⟨hkeep, hsender, hin.trans ?_⟩
      apply List.map_congr_left
      intro r hr
      rw [if_neg]
      rw [mem_members.1 hr]
      simpa using hne
  · intro r f hf
    obtain ⟨f₀, hf₀, rfl⟩ := hfeed hf
    rw [(hkept f₀).2.2]
    exact h.live hf₀
  · intro r f c' hf hr
    obtain ⟨f₀, hf₀, rfl⟩ := hfeed hf
    rw [(hkept f₀).1, (hkept f₀).2.1, length_onChannel]
    exact h.current hf₀ hr
  · intro channel' c' hc'
    rw [length_onChannel]
    exact h.named hc'
  · intro channel'
    change channel' ∈ s.channels ↔ _
    rw [h.names]
    simp [hkept]

theorem exists_mem_modify {α : Type} {P : α → Prop} {g : α → α} (hg : ∀ a, P (g a) ↔ P a) (l : List α) (r : Nat) :
    (∃ a ∈ l.modify r g, P a) ↔ ∃ a ∈ l, P a := by
  induction l generalizing r with
  | nil => simp
  | cons a l ih =>
    cases r with
    | zero => simp [hg]
    | succ r => simp [ih]

theorem getElem?_modify_eq_some {α : Type} {l : List α} {r r' : Nat} {g : α → α} {a : α}
    (h : (l.modify r g)[r']? = some a) : ∃ a₀, l[r']? = some a₀ ∧ a = if r = r' then g a₀ else a₀ := by
  rw [List.getElem?_modify] at h
  obtain ⟨a₀, ha₀, rfl⟩ := Option.map_eq_some_iff.1 h
  exact ⟨a₀, ha₀, rfl⟩

theorem Serves.drop (h : Serves view s fs left) (hB : B.Lawful view) (r : Nat) :
    Serves view (s.dropReceiver r) (Feed.drop fs r) left := by
  have hnames : ∀ {channel : String}, channel ∈ s.channels ↔
      ∃ f ∈ Feed.drop fs r, f.channel = channel ∧ f.current = true := by
    intro channel
    rw [h.names]
    symm
    apply exists_mem_modify
    intro f
    rfl
  have htold : ∀ {r' : Nat} {f : Feed}, (Feed.drop fs r)[r']? = some f → Told f.sent f.told (left r') := by
    intro r' f hf
    obtain ⟨f₀, hf₀, rfl⟩ := getElem?_modify_eq_some hf
    have ht := h.told hf₀
    split <;> exact ht
  have hlength : (Feed.drop fs r).length = fs.length := List.length_modify ..
  rw [dropReceiver]
  split
  · rename_i c hr
    refine ⟨?_, htold, ?_, ?_, ?_, ?_, h.one, hnames⟩
    · rw [hlength, ← h.length]
      exact List.length_set
    · intro c' tx' htx'
      change _ ∧ _ ∧ _ = (members (s.receivers.set r none) c').map _
      rw [members_set]
      rcases getElem?_onChannel htx' with ⟨rfl, tx, htx, rfl⟩ | ⟨hne, htx⟩
      · obtain ⟨hkeep, hsender, hin⟩ := h.made htx
        rw [hB.dropReceiver _ _ ((h.receivers_view htx).2 hr), Channel.dropReceiver, hin, List.filter_map]
        exact ⟨hkeep, hsender, rfl⟩
      · obtain ⟨hkeep, hsender, hin⟩ := h.made htx
        refine ⟨hkeep, hsender, hin.trans ?_⟩
        rw [List.filter_eq_self.2]
        intro r' hr'
        have hr' := mem_members.1 hr'
        have hne' : r' ≠ r := by
          rintro rfl
          rw [hr] at hr'
          cases hr'
          exact hne rfl
        simpa using hne'
    · intro r' f hf
      obtain ⟨f₀, hf₀, rfl⟩ := getElem?_modify_eq_some hf
      change _ ↔ ∃ c, (s.receivers.set r none)[r']? = some (some c)
      rw [List.getElem?_set]
      split
      · simp
      · exact h.live hf₀
    · intro r' f c' hf hr'
      obtain ⟨f₀, hf₀, rfl⟩ := getElem?_modify_eq_some hf
      change (s.receivers.set r none)[r']? = some (some c') at hr'
      rw [List.getElem?_set] at hr'
      by_cases heq : r = r'
      · simp [heq] at hr'
      · rw [if_neg heq] at hr' ⊢
        change c' < (s.onChannel c _).made.length ∧ _
        rw [length_onChannel]
        exact h.current hf₀ hr'
    · intro channel c' hc'
      change c' < (s.onChannel c _).made.length
      rw [length_onChannel]
      exact h.named hc'
  · -- dropped before, or not there
    rename_i hr
    refine ⟨?_, htold, h.made, ?_, ?_, h.named, h.one, hnames⟩
    · rw [hlength, h.length]
    · intro r' f hf
      obtain ⟨f₀, hf₀, rfl⟩ := getElem?_modify_eq_some hf
      split
      · rename_i heq
        subst heq
        simpa using hr
      · exact h.live hf₀
    · intro r' f c hf hr'
      obtain ⟨f₀, hf₀, rfl⟩ := getElem?_modify_eq_some hf
      split
      · rename_i heq
        subst heq
        exact absurd hr' (hr c)
      · exact h.current hf₀ hr'

theorem Serves.drops (h : Serves view s fs left) (hB : B.Lawful view) (gone : List Nat) :
    Serves view (gone.foldl dropReceiver s) (gone.foldl Feed.drop fs) left := by
  induction gone generalizing s fs with
  | nil => exact h
  | cons r gone ih => exact ih (h.drop hB r)

theorem Serves.publish (h : Serves view s fs left) (hB : B.Lawful view) (channel message : String) (gone : List Nat) :
    ∃ left', Serves view (s.publish channel message gone).2
      (gone.foldl Feed.drop (fs.map (Feed.hear channel message))) left' := by
  rw [PubSub.publish]
  cases hc : s.channels.lookup channel with
  | some c => exact ⟨_, (h.send hB hc message).drops hB gone⟩
  | none =>
    have hsame : fs.map (Feed.hear channel message) = fs := by
      refine (List.map_congr_left ?_).trans (List.map_id fs)
      intro f hf
      rw [Feed.hear, if_neg, id_def]
      simp only [Feed.hears, Bool.and_eq_true, decide_eq_true_eq]
      rintro ⟨⟨hchannel, hcurrent⟩, -⟩
      have hmem := AList.lookup_isSome.2 (h.names.2 ⟨f, hf, hchannel, hcurrent⟩)
      rw [hc] at hmem
      cases hmem
    rw [hsame]
    exact ⟨left, h.drops hB gone⟩

theorem Feed.cut_spec (channel : String) (f : Feed) : (f.cut channel).channel = f.channel ∧
    (f.cut channel).live = f.live ∧ (f.cut channel).sent = f.sent ∧ (f.cut channel).told = f.told ∧
    ((f.cut channel).current = true ↔ f.channel ≠ channel ∧ f.current = true) := by
  rw [cut]
  split
  · simp [*]
  · simp [*]

theorem Serves.unsubscribe (h : Serves view s fs left) (hB : B.Lawful view) (channel : String) :
    Serves view (s.unsubscribe channel) (fs.map (Feed.cut channel)) left := by
  have hfeed : ∀ {r : Nat} {f : Feed}, (fs.map (Feed.cut channel))[r]? = some f →
      ∃ f₀, fs[r]? = some f₀ ∧ f = f₀.cut channel := by
    intro r f hf
    rw [List.getElem?_map] at hf
    obtain ⟨f₀, hf₀, rfl⟩ := Option.map_eq_some_iff.1 hf
    exact ⟨f₀, hf₀, rfl⟩
  rw [PubSub.unsubscribe]
  cases hc : s.channels.lookup channel with
  | some c =>
    have hlookup : ∀ {channel' : String} {c' : Nat}, (s.channels.erase channel).lookup channel' = some c' ↔
        channel' ≠ channel ∧ s.channels.lookup channel' = some c' := by
      intro channel' c'
      by_cases heq : channel' = channel
      · subst heq
        simp
      · rw [AList.lookup_erase_ne heq]
        simp [heq]
    refine ⟨?_, ?_, ?_, ?_, ?_, ?_, ?_, ?_⟩
    · rw [List.length_map]
      exact h.length
    · intro r f hf
      obtain ⟨f₀, hf₀, rfl⟩ := hfeed hf
      obtain ⟨-, -, hsent, htold, -⟩ := f₀.cut_spec channel
      rw [hsent, htold]
      exact h.told hf₀
    · intro c' tx' htx'
      simp only [hlookup]
      rcases getElem?_onChannel htx' with ⟨rfl, tx, htx, rfl⟩ | ⟨hne, htx⟩
      · obtain ⟨hkeep, -, hin⟩ := h.made htx
        rw [hB.dropSender, Channel.dropSender]
        refine ⟨hkeep, ?_, hin⟩
        simp only [Bool.false_eq_true, false_iff, not_exists, not_and]
        intro channel' hne' hc'
        exact hne' (h.one hc' hc)
      · obtain ⟨hkeep, hsender, hin⟩ := h.made htx
        refine ⟨hkeep, ?_, hin⟩
        rw [hsender]
        apply exists_congr
        intro channel'
        rw [iff_and_self]
        rintro hc' rfl
        rw [hc, Option.some.injEq] at hc'
        exact hne hc'.symm
    · intro r f hf
      obtain ⟨f₀, hf₀, rfl⟩ := hfeed hf
      rw [(f₀.cut_spec channel).2.1]
      exact h.live hf₀
    · intro r f c' hf hr
      obtain ⟨f₀, hf₀, rfl⟩ := hfeed hf
      obtain ⟨hchannel, -, -, -, hcurrent⟩ := f₀.cut_spec channel
      obtain ⟨hlt, hiff⟩ := h.current hf₀ hr
      change c' < (s.onChannel c _).made.length ∧ _
      rw [length_onChannel, hchannel]
      refine ⟨hlt, ?_⟩
      intro channel'
      rw [hlookup, hiff, hcurrent]
      constructor
      · rintro ⟨hne, rfl, hcur⟩
        exact ⟨rfl, hne, hcur⟩
      · rintro ⟨rfl, hne, hcur⟩
        exact ⟨hne, rfl, hcur⟩
    · intro channel' c' hc'
      change c' < (s.onChannel c _).made.length
      rw [length_onChannel]
      exact h.named (hlookup.1 hc').2
    · intro channel' channel'' c' hc' hc''
      exact h.one (hlookup.1 hc').2 (hlookup.1 hc'').2
    · intro channel'
      rw [AList.mem_erase, h.names]
      simp only [List.mem_map, exists_exists_and_eq_and]
      constructor
      · rintro ⟨hne, f, hf, rfl, hcur⟩
        obtain ⟨hchannel, -, -, -, hcurrent⟩ := f.cut_spec channel
        exact ⟨f, hf, hchannel, hcurrent.2 ⟨hne, hcur⟩⟩
      · rintro ⟨f, hf, hch, hcur⟩
        obtain ⟨hchannel, -, -, -, hcurrent⟩ := f.cut_spec channel
        rw [hchannel] at hch
        obtain ⟨hne, hcur⟩ := hcurrent.1 hcur
        exact ⟨hch ▸ hne, f, hf, hch, hcur⟩
  | none =>
    have hsame : fs.map (Feed.cut channel) = fs := by
      refine (List.map_congr_left ?_).trans (List.map_id fs)
      intro f hf
      rw [Feed.cut]
      split
      · rename_i hchannel
        have hcurrent : f.current = false := by
          by_contra hcur
          have hmem := AList.lookup_isSome.2 (h.names.2 ⟨f, hf, hchannel, by simpa using hcur⟩)
          rw [hc] at hmem
          cases hmem
        rw [← hcurrent]
        rfl
      · rfl
    rw [hsame]
    exact h

theorem lookup_map {l : List Nat} {left : Nat → List String} {r : Nat} (h : r ∈ l) :
    (l.map fun r => (r, left r)).lookup r = some (left r) := by
  induction l with
  | nil => cases h
  | cons r' l ih =>
    rw [List.map_cons, List.lookup_cons]
    by_cases heq : r = r'
    · simp [heq]
    · have hl : r ∈ l := by simpa [heq] using h
      have hbeq : (r == r') = false := by simpa using heq
      rw [hbeq]
      exact ih hl

/-- What a receiver is told next. -/
theorem Serves.recv (h : Serves view s fs left) (hB : B.Lawful view) {r c : Nat} {f : Feed} (hf : fs[r]? = some f)
    (hr : s.receivers[r]? = some (some c)) : ∃ keep, s.maxSubscribers ≤ keep ∧
      (s.recv r).1 = some (Channel.next keep f.current (left r)).1 ∧
      Serves view (s.recv r).2 (fs.modify r fun f' => { f' with told := f'.told ++ [(Channel.next keep f.current (left r)).1] })
        (Function.update left r (Channel.next keep f.current (left r)).2) := by
  obtain ⟨hlt, hcurrent⟩ := h.current hf hr
  have htx := List.getElem?_eq_getElem hlt
  generalize s.made[c] = tx at htx
  obtain ⟨hkeep, hsender, hin⟩ := h.made htx
  have hsend : (view tx).sender = f.current := by
    rw [Bool.eq_iff_iff, hsender]
    simp [hcurrent]
  have hleft : (view tx).inbox.lookup r = some (left r) := by
    rw [hin]
    exact lookup_map (mem_members.2 hr)
  obtain ⟨hanswer, hview⟩ := hB.recv tx r ((h.receivers_view htx).2 hr)
  rw [Channel.recv, hleft, hsend, Option.getD_some] at hanswer hview
  refine ⟨(view tx).keep, hkeep, ?_, ?_⟩
  · simp only [PubSub.recv, hr, htx, hanswer]
  simp only [PubSub.recv, hr, htx]
  have hfeed : ∀ {r' : Nat} {f' : Feed}, (fs.modify r fun f' => { f' with
      told := f'.told ++ [(Channel.next (view tx).keep f.current (left r)).1] })[r']? = some f' →
      ∃ f₀, fs[r']? = some f₀ ∧ f'.channel = f₀.channel ∧ f'.current = f₀.current ∧ f'.live = f₀.live ∧ f'.sent = f₀.sent ∧
        f'.told = if r = r' then f₀.told ++ [(Channel.next (view tx).keep f.current (left r)).1] else f₀.told := by
    intro r' f' hf'
    obtain ⟨f₀, hf₀, rfl⟩ := getElem?_modify_eq_some hf'
    refine ⟨f₀, hf₀, ?_⟩
    split <;> simp
  refine ⟨?_, ?_, ?_, ?_, ?_, ?_, h.one, ?_⟩
  · rw [List.length_modify]
    exact h.length
  · intro r' f' hf'
    obtain ⟨f₀, hf₀, -, -, -, hsent, htold⟩ := hfeed hf'
    rw [hsent, htold]
    by_cases heq : r = r'
    · subst heq
      rw [if_pos rfl, Function.update_self]
      exact (h.told hf₀).next _ _
    · rw [if_neg heq, Function.update_of_ne (Ne.symm heq)]
      exact h.told hf₀
  · intro c' tx' htx'
    rcases getElem?_onChannel htx' with ⟨rfl, tx₀, htx₀, rfl⟩ | ⟨hne, htx₀⟩
    · rw [hview]
      refine ⟨hkeep, hsend ▸ hsender, ?_⟩
      change List.map _ (view tx).inbox = _
      rw [hin, List.map_map]
      apply List.map_congr_left
      intro r' hr'
      by_cases heq : r' = r
      · simp [heq]
      · simp [heq]
    · obtain ⟨hkeep', hsender', hin'⟩ := h.made htx₀
      refine ⟨hkeep', hsender', hin'.trans ?_⟩
      apply List.map_congr_left
      intro r' hr'
      rw [Function.update_of_ne]
      rintro rfl
      rw [mem_members.1 hr', Option.some.injEq, Option.some.injEq] at hr
      exact hne hr
  · intro r' f' hf'
    obtain ⟨f₀, hf₀, -, -, hlive, -, -⟩ := hfeed hf'
    rw [hlive]
    exact h.live hf₀
  · intro r' f' c' hf' hr'
    obtain ⟨f₀, hf₀, hchannel, hcur, -, -, -⟩ := hfeed hf'
    rw [hchannel, hcur, length_onChannel]
    exact h.current hf₀ hr'
  · intro channel c' hc'
    rw [length_onChannel]
    exact h.named hc'
  · intro channel
    refine h.names.trans ?_
    symm
    apply exists_mem_modify
    intro f'
    rfl

theorem Serves.step (h : Serves view s fs left) (hB : B.Lawful view) (act : Act) :
    ∃ left', Serves view (act.step s).2 ((act.step s).1.on fs) left' := by
  cases act with
  | subscribe channel => exact h.subscribe hB channel
  | publish channel message gone => exact h.publish hB channel message gone
  | unsubscribe channel => exact ⟨left, h.unsubscribe hB channel⟩
  | dropReceiver r => exact ⟨left, h.drop hB r⟩
  | recv r =>
    rcases hr : s.receivers[r]? with _ | _ | c
    · simp only [Act.step, PubSub.recv, hr]
      exact ⟨left, h⟩
    · simp only [Act.step, PubSub.recv, hr]
      exact ⟨left, h⟩
    · obtain ⟨f, hf⟩ := h.feed hr
      obtain ⟨keep, -, hanswer, hnext⟩ := h.recv hB hf hr
      rcases hrecv : s.recv r with ⟨answer, s'⟩
      rw [hrecv] at hanswer hnext
      cases hanswer
      simp only [Act.step, hrecv]
      exact ⟨_, hnext⟩

/-! ### Counts -/

theorem countP_range {α : Type} (p : α → Bool) (l : List α) :
    (List.range l.length).countP (fun i => l[i]?.any p) = l.countP p := by
  induction l using List.reverseRecOn with
  | nil => rfl
  | append_singleton l a ih =>
    rw [List.length_append, List.length_singleton, List.range_succ, List.countP_append, List.countP_append, ← ih]
    congr 1
    · apply List.countP_congr
      intro i hi
      rw [List.getElem?_append_left (List.mem_range.1 hi)]
    · simp

theorem Serves.count (h : Serves view s fs left) (hB : B.Lawful view) {channel : String} {c : Nat}
    (hc : s.channels.lookup channel = some c) : s.receiverCount c = fs.countP fun f => f.hears channel := by
  have htx := List.getElem?_eq_getElem (h.named hc)
  rw [receiverCount, htx, Option.map_some, Option.getD_some, hB.receiverCount, (h.made htx).2.2, List.length_map, members,
    ← List.countP_eq_length_filter, h.length, ← countP_range _ fs]
  apply List.countP_congr
  intro r hr
  have hf := List.getElem?_eq_getElem (List.mem_range.1 hr)
  rw [decide_eq_true_eq, ← h.hears_iff hf hc, hf, Option.any_some]

/-- Nobody hears what is published under a name without a channel. -/
theorem Serves.count_none (h : Serves view s fs left) {channel : String} (hc : s.channels.lookup channel = none) :
    (fs.countP fun f => f.hears channel) = 0 := by
  rw [List.countP_eq_zero]
  intro f hf hhears
  simp only [Feed.hears, Bool.and_eq_true, decide_eq_true_eq] at hhears
  have hmem := AList.lookup_isSome.2 (h.names.2 ⟨f, hf, hhears.1⟩)
  rw [hc] at hmem
  cases hmem

theorem Serves.subscriberCount (h : Serves view s fs left) (hB : B.Lawful view) (channel : String) :
    s.subscriberCount channel = fs.countP fun f => f.hears channel := by
  rw [PubSub.subscriberCount]
  cases hc : s.channels.lookup channel with
  | none => exact (h.count_none hc).symm
  | some c => exact h.count hB hc

theorem lookup_drops (s : PubSub B) (gone : List Nat) (channel : String) :
    (gone.foldl dropReceiver s).channels.lookup channel = s.channels.lookup channel := by
  induction gone generalizing s with
  | nil => rfl
  | cons r gone ih =>
    rw [List.foldl_cons, ih, dropReceiver]
    split <;> rfl

/-- The answer of `publish` is the count after it. -/
theorem publish_fst (s : PubSub B) (channel message : String) (gone : List Nat) :
    (s.publish channel message gone).1 = (s.publish channel message gone).2.subscriberCount channel := by
  simp only [PubSub.publish, PubSub.subscriberCount]
  cases hc : s.channels.lookup channel with
  | none => simp [lookup_drops, hc]
  | some c =>
    have hlookup : (s.onChannel c (B.send · message)).channels.lookup channel = some c := hc
    simp [lookup_drops, hlookup]

theorem Serves.channelCount (h : Serves view s fs left) :
    s.channelCount = ((fs.filter Feed.current).map Feed.channel).dedup.length := by
  apply List.Perm.length_eq
  rw [List.perm_ext_iff_of_nodup (AList.keys_nodup _) (List.nodup_dedup _)]
  intro channel
  rw [← AList.mem_keys, h.names, List.mem_dedup]
  simp only [List.mem_map, List.mem_filter]
  constructor
  · rintro ⟨f, hf, hchannel, hcurrent⟩
    exact ⟨f, ⟨hf, hcurrent⟩, hchannel⟩
  · rintro ⟨f, ⟨hf, hcurrent⟩, hchannel⟩
    exact ⟨f, hf, hchannel, hcurrent⟩

end Serves

/-! ## Every order of calls -/

theorem run_concat (s : PubSub B) (acts : List Act) (act : Act) : run s (acts ++ [act]) =
    ((run s acts).1 ++ [(act.step (run s acts).2).1], (act.step (run s acts).2).2) := by
  simp [run]

theorem maxSubscribers_step (s : PubSub B) (act : Act) : (act.step s).2.maxSubscribers = s.maxSubscribers := by
  have hdrops : ∀ (gone : List Nat) (s : PubSub B), (gone.foldl dropReceiver s).maxSubscribers = s.maxSubscribers := by
    intro gone
    induction gone with
    | nil => exact fun _ => rfl
    | cons r gone ih =>
      intro s
      rw [List.foldl_cons, ih, dropReceiver]
      split <;> rfl
  cases act with
  | subscribe channel =>
    cases hc : s.channels.lookup channel with
    | some c => simp [Act.step, PubSub.subscribe, hc, onChannel]
    | none => cases htx : B.channel s.maxSubscribers <;> simp [Act.step, PubSub.subscribe, hc, htx]
  | publish channel message gone =>
    simp only [Act.step, PubSub.publish]
    split
    · exact hdrops ..
    · exact hdrops ..
  | unsubscribe channel =>
    simp only [Act.step, PubSub.unsubscribe]
    split <;> rfl
  | dropReceiver r => exact hdrops [r] s
  | recv r =>
    rcases hr : s.receivers[r]? with _ | _ | c
    · simp [Act.step, PubSub.recv, hr]
    · simp [Act.step, PubSub.recv, hr]
    · cases htx : s.made[c]? <;> simp [Act.step, PubSub.recv, hr, htx, onChannel]

theorem serves_run {view : B.State → Channel String} (hB : B.Lawful view) (capacity : Nat) (acts : List Act) :
    (run (withCapacity capacity : PubSub B) acts).2.maxSubscribers = capacity ∧
      ∃ left, Serves view (run (withCapacity capacity : PubSub B) acts).2
        (feeds (run (withCapacity capacity : PubSub B) acts).1) left := by
  induction acts using List.reverseRecOn with
  | nil => exact ⟨rfl, fun _ => [], .start capacity _⟩
  | append_singleton acts act ih =>
    obtain ⟨hmax, left, h⟩ := ih
    rw [run_concat, feeds, List.foldl_append]
    exact ⟨(maxSubscribers_step _ act).trans hmax, h.step hB act⟩

/-- **Delivery.** In every order of calls, with receivers asked and dropped at any time: a receiver was told what was published
    under its name since, until somebody unsubscribed the name, each message once and in order but for those it was told to
    have missed; what it is told next is what comes then, and with no more than `capacity` left it misses nothing.
    `publish` and `subscriber_count` answer how many receivers there are of the channel that the name has by now, and
    `channel_count` how many names have one. -/
theorem pubsub_delivers {view : B.State → Channel String} (hB : B.Lawful view) (capacity : Nat) (acts : List Act) :
    let s := (run (withCapacity capacity : PubSub B) acts).2
    let fs := feeds (run (withCapacity capacity : PubSub B) acts).1
    (∀ r f, fs[r]? = some f → ∃ left keep, Told f.sent f.told left ∧
        (f.told.filterMap Recv.value? ++ left).Sublist f.sent ∧
        f.sent.length = (f.told.filterMap Recv.value?).length + (f.told.map Recv.missed).sum + left.length ∧
        capacity ≤ keep ∧ (s.recv r).1 = if f.live then some (Channel.next keep f.current left).1 else none) ∧
      (∀ channel message gone, (s.publish channel message gone).1 =
        (gone.foldl Feed.drop (fs.map (Feed.hear channel message))).countP fun f => f.hears channel) ∧
      (∀ channel, s.subscriberCount channel = fs.countP fun f => f.hears channel) ∧
      s.channelCount = ((fs.filter Feed.current).map Feed.channel).dedup.length := by
  intro s fs
  obtain ⟨hmax, left, h⟩ : s.maxSubscribers = capacity ∧ ∃ left, Serves view s fs left := serves_run hB capacity acts
  refine ⟨?_, ?_, h.subscriberCount hB, h.channelCount⟩
  · intro r f hf
    have ht := h.told hf
    obtain ⟨hsub, hlen⟩ := ht.values
    cases hlive : f.live with
    | true =>
      obtain ⟨c, hr⟩ := (h.live hf).1 hlive
      obtain ⟨keep, hkeep, hanswer, -⟩ := h.recv hB hf hr
      exact ⟨left r, keep, ht, hsub, hlen, hmax ▸ hkeep, hanswer⟩
    | false =>
      refine ⟨left r, capacity, ht, hsub, hlen, Nat.le_refl _, ?_⟩
      have hr : ∀ c, s.receivers[r]? ≠ some (some c) := by
        intro c hr
        have hl := (h.live hf).2 ⟨c, hr⟩
        rw [hlive] at hl
        cases hl
      rw [if_neg Bool.false_ne_true, PubSub.recv]
      split
      · rename_i c hr'
        exact absurd hr' (hr c)
      · rfl
  · intro channel message gone
    obtain ⟨left', h'⟩ := h.publish hB channel message gone
    rw [publish_fst, h'.subscriberCount hB]

/-- Three receivers on two channels with room for one message: one has its first message, one was told that it missed two,
    one is gone. -/
theorem pubsub_delivers_once :
    let acts : List Act := [.subscribe "a", .subscribe "a", .subscribe "b", .publish "a" "x" [], .recv 0,
      .publish "a" "y" [], .publish "a" "z" [2], .recv 1]
    let out := run (withCapacity 1 : PubSub (.ring String)) acts
    (Broadcast.ring String).Lawful id ∧ feeds out.1 = [⟨"a", true, true, ["x", "y", "z"], [.value "x"]⟩,
      ⟨"a", true, true, ["x", "y", "z"], [.lagged 2]⟩, ⟨"b", true, false, [], []⟩] ∧
    (∃ left keep, Told ["x", "y", "z"] [.value "x"] left ∧ 3 = 1 + 0 + left.length ∧ 1 ≤ keep ∧
      (out.2.recv 0).1 = some (Channel.next keep true left).1) ∧
    (∃ left keep, Told ["x", "y", "z"] [.lagged 2] left ∧ 3 = 0 + 2 + left.length ∧ 1 ≤ keep ∧
      (out.2.recv 1).1 = some (Channel.next keep true left).1) ∧
    (out.2.publish "a" "w" []).1 = 2 ∧ out.2.subscriberCount "b" = 0 ∧ out.2.channelCount = 2 := by
  intro acts out
  have hfeeds : feeds out.1 = [⟨"a", true, true, ["x", "y", "z"], [.value "x"]⟩,
      ⟨"a", true, true, ["x", "y", "z"], [.lagged 2]⟩, ⟨"b", true, false, [], []⟩] := by decide
  obtain ⟨hrecv, hpublish, hcount, hchannels⟩ := pubsub_delivers (Broadcast.ring_lawful String) 1 acts
  rw [show feeds (run (withCapacity 1 : PubSub (.ring String)) acts).1 = _ from hfeeds] at hrecv hpublish hcount hchannels
  obtain ⟨left₀, keep₀, htold₀, -, hlen₀, hkeep₀, hnext₀⟩ := hrecv 0 _ rfl
  obtain ⟨left₁, keep₁, htold₁, -, hlen₁, hkeep₁, hnext₁⟩ := hrecv 1 _ rfl
  exact ⟨Broadcast.ring_lawful String, hfeeds, ⟨left₀, keep₀, htold₀, hlen₀, hkeep₀, hnext₀⟩,
    ⟨left₁, keep₁, htold₁, hlen₁, hkeep₁, hnext₁⟩, hpublish "a" "w" [], hcount "b", hchannels⟩

end PubSub

end RedisOps
