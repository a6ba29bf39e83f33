import Mathlib.Data.List.DropRight
import Mathlib.Tactic

/-!
# Broadcast channels

A message that is sent goes to every receiver there is. A channel keeps so many messages for a receiver that is behind; one that
is further behind is told by how much, and goes on with the oldest that is kept.

* `Channel` — a channel as what each of its receivers has still to be told.
* `Broadcast` — an implementation; `Lawful` if each of its channels can be viewed as a `Channel`.
* `Told` — what a receiver was told, against what was sent to it.
-/

namespace RedisOps.Lib

inductive Recv (M : Type)
  | value (m : M)
  | lagged (n : Nat)
  | empty
  | closed
  deriving DecidableEq, Repr

/-- `inbox`: the receivers, each with what was sent and it was not told. -/
structure Channel (M : Type) where
  keep : Nat
  sender : Bool
  inbox : List (Nat × List M)

namespace Channel
variable {M : Type}

def receivers (c : Channel M) : List Nat := c.inbox.map Prod.fst

def subscribe (c : Channel M) (r : Nat) : Channel M := { c with inbox := c.inbox ++ [(r, [])] }

def send (c : Channel M) (m : M) : Channel M := { c with inbox := c.inbox.map fun b => (b.1, b.2 ++ [m]) }

def dropSender (c : Channel M) : Channel M := { c with sender := false }

def dropReceiver (c : Channel M) (r : Nat) : Channel M := { c with inbox := c.inbox.filter fun b => b.1 ≠ r }

/-- What a receiver is told that has `left` to be told, and what is left then. -/
def next (keep : Nat) (sender : Bool) : List M → Recv M × List M
  | [] => (if sender then .empty else .closed, [])
  | m :: left =>
    if left.length + 1 > keep then (.lagged (left.length + 1 - keep), (m :: left).rtake keep) else (.value m, left)

def recv (c : Channel M) (r : Nat) : Recv M × Channel M :=
  ((next c.keep c.sender ((c.inbox.lookup r).getD [])).1,
    { c with inbox := c.inbox.map fun b => if b.1 = r then (r, (next c.keep c.sender b.2).2) else b })

end Channel

/-- A channel with its sender. `channel` may panic. -/
structure Broadcast (M : Type) where
  State : Type
  channel : Nat → Option State
  subscribe : State → Nat → State
  send : State → M → State
  receiverCount : State → Nat
  recv : State → Nat → Recv M × State
  dropReceiver : State → Nat → State
  dropSender : State → State

namespace Broadcast
variable {M : Type}

/-- At least as many messages are kept as were asked for. -/
structure Lawful (B : Broadcast M) (view : B.State → Channel M) : Prop where
  channel : ∀ {capacity tx}, B.channel capacity = some tx →
    capacity ≤ (view tx).keep ∧ (view tx).sender = true ∧ (view tx).inbox = []
  subscribe : ∀ tx r, r ∉ (view tx).receivers → view (B.subscribe tx r) = (view tx).subscribe r
  send : ∀ tx m, view (B.send tx m) = (view tx).send m
  receiverCount : ∀ tx, B.receiverCount tx = (view tx).inbox.length
  recv : ∀ tx r, r ∈ (view tx).receivers →
    (B.recv tx r).1 = ((view tx).recv r).1 ∧ view (B.recv tx r).2 = ((view tx).recv r).2
  dropReceiver : ∀ tx r, r ∈ (view tx).receivers → view (B.dropReceiver tx r) = (view tx).dropReceiver r
  dropSender : ∀ tx, view (B.dropSender tx) = (view tx).dropSender

/-- A ring has a power of two of slots, and at least one. -/
def ring (M : Type) : Broadcast M where
  State := Channel M
  channel capacity := if capacity = 0 ∨ capacity > 2 ^ 63 - 1 then none else some ⟨2 ^ Nat.clog 2 capacity, true, []⟩
  subscribe := Channel.subscribe
  send := Channel.send
  receiverCount c := c.inbox.length
  recv := Channel.recv
  dropReceiver := Channel.dropReceiver
  dropSender := Channel.dropSender

theorem ring_lawful (M : Type) : (ring M).Lawful id where
  channel {capacity tx} h := by
    by_cases hbad : capacity = 0 ∨ capacity > 2 ^ 63 - 1
    · have htx : none = some tx := (if_pos hbad).symm.trans h
      cases htx
    · have htx : some _ = some tx := (if_neg hbad).symm.trans h
      cases htx
      exact ⟨Nat.le_pow_clog (by decide) capacity, rfl, rfl⟩
  subscribe _ _ _ := rfl
  send _ _ := rfl
  receiverCount _ := rfl
  recv _ _ _ := ⟨rfl, rfl⟩
  dropReceiver _ _ _ := rfl
  dropSender _ := rfl

end Broadcast

/-! ## What a receiver was told -/

/-- Of `sent` the answers leave `left`: the first message is given or so many of the first are passed over. -/
inductive Told {M : Type} (sent : List M) : List (Recv M) → List M → Prop
  | start : Told sent [] sent
  | value {told : List (Recv M)} {m : M} {left : List M} : Told sent told (m :: left) → Told sent (told ++ [.value m]) left
  | lagged {told : List (Recv M)} {left : List M} (n : Nat) : n ≤ left.length → Told sent told left →
    Told sent (told ++ [.lagged n]) (left.drop n)
  | empty {told : List (Recv M)} {left : List M} : Told sent told left → Told sent (told ++ [.empty]) left
  | closed {told : List (Recv M)} {left : List M} : Told sent told left → Told sent (told ++ [.closed]) left

def Recv.value? {M : Type} : Recv M → Option M
  | .value m => some m
  | _ => none

def Recv.missed {M : Type} : Recv M → Nat
  | .lagged n => n
  | _ => 0

namespace Told
variable {M : Type} {sent left : List M} {told : List (Recv M)}

theorem append (h : Told sent told left) (more : List M) : Told (sent ++ more) told (left ++ more) := by
  induction h with
  | start => exact .start
  | value _ ih => exact .value ih
  | lagged n hn _ ih =>
    rw [← List.drop_append_of_le_length hn]
    exact .lagged n (by rw [List.length_append]; omega) ih
  | empty _ ih => exact .empty ih
  | closed _ ih => exact .closed ih

theorem next (h : Told sent told left) (keep : Nat) (sender : Bool) :
    Told sent (told ++ [(Channel.next keep sender left).1]) (Channel.next keep sender left).2 := by
  cases left with
  | nil =>
    cases sender with
    | true => exact .empty h
    | false => exact .closed h
  | cons m left =>
    rw [Channel.next]
    split
    · exact .lagged _ (by rw [List.length_cons]; omega) h
    · exact .value h

/-- Nothing is told twice or out of order, and nothing is missed but what is counted. -/
theorem values (h : Told sent told left) :
    (told.filterMap Recv.value? ++ left).Sublist sent ∧
      sent.length = (told.filterMap Recv.value?).length + (told.map Recv.missed).sum + left.length := by
  induction h with
  | start => simp
  | value _ ih =>
    obtain ⟨hsub, hlen⟩ := ih
    refine ⟨?_, ?_⟩
    · simpa [Recv.value?] using hsub
    · simp [Recv.value?, Recv.missed, hlen]
      omega
  | @lagged told left n hn _ ih =>
    obtain ⟨hsub, hlen⟩ := ih
    refine ⟨?_, ?_⟩
    · refine List.Sublist.trans ?_ hsub
      simpa [List.filterMap_cons, Recv.value?] using List.drop_sublist n left
    · simp [List.filterMap_cons, Recv.value?, Recv.missed, hlen]
      omega
  | empty _ ih => simpa [List.filterMap_cons, Recv.value?, Recv.missed] using ih
  | closed _ ih => simpa [List.filterMap_cons, Recv.value?, Recv.missed] using ih

end Told

end RedisOps.Lib
