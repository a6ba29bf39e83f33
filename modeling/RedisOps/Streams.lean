import Mathlib.Data.List.AList
import RedisOps.Lib.Digits

/-!
# Streams

`redisdb/src/streams.rs:7-59`: entries with a counter's number in their ids, pushed at the end and drained at the front.

* `stream_run` — the retained entries have consecutive numbers up to the last one given out, no id is given out twice, and
  `trim` and `last_n` take the newest entries.
* `range_eq_iff` — `range` compares ids as text, where `10-0` comes before `2-0`: the numbers for which that is no matter.
-/

namespace RedisOps.Streams

open Lib

structure StreamEntry where
  id : String
  fields : AList fun _ : String => String

structure Stream where
  entries : List StreamEntry
  nextId : UInt64

/-- `format!("{}-0", id)` -/
def entryId (n : Nat) : String := toString n ++ "-0"

namespace Stream

def new : Stream := ⟨[], 1⟩

/-- `fetch_add` wraps. -/
def append (s : Stream) (fields : AList fun _ : String => String) : String × Stream :=
  let id := entryId s.nextId.toNat
  (id, ⟨s.entries ++ [⟨id, fields⟩], s.nextId + 1⟩)

def range (s : Stream) (start stop : String) : List StreamEntry :=
  s.entries.filter fun e => start ≤ e.id ∧ e.id ≤ stop

def lastN (s : Stream) (count : Nat) : List StreamEntry := s.entries.drop (s.entries.length - count)

def trim (s : Stream) (maxLen : Nat) : Stream :=
  if maxLen < s.entries.length then { s with entries := s.entries.drop (s.entries.length - maxLen) } else s

/-- `trim` needs no test: there is nothing to drain from a short stream. -/
theorem trim_eq (s : Stream) (maxLen : Nat) : s.trim maxLen = ⟨s.lastN maxLen, s.nextId⟩ := by
  unfold trim lastN
  split
  · rfl
  · rename_i h
    rw [Nat.sub_eq_zero_of_le (not_lt.1 h), List.drop_zero]

/-- The newest entries, as many as asked for. -/
theorem lastN_newest (s : Stream) (count : Nat) :
    (∃ older, s.entries = older ++ s.lastN count) ∧ (s.lastN count).length = min count s.entries.length := by
  refine ⟨⟨_, (List.take_append_drop (s.entries.length - count) s.entries).symm⟩, ?_⟩
  rw [lastN, List.length_drop]
  omega

end Stream

/-! ## Runs -/

inductive StreamCall where
  | append (fields : AList fun _ : String => String)
  | trim (maxLen : Nat)

/-- The ids that have been given out, and the stream. -/
def StreamCall.step (r : List String × Stream) : StreamCall → List String × Stream
  | .append fields => (r.1 ++ [(r.2.append fields).1], (r.2.append fields).2)
  | .trim maxLen => (r.1, r.2.trim maxLen)

/-- Calls on a new stream. -/
def run (calls : List StreamCall) : List String × Stream := calls.foldl StreamCall.step ([], .new)

theorem run_concat (calls : List StreamCall) (call : StreamCall) : run (calls ++ [call]) = call.step (run calls) := by
  simp [run]

theorem entryId_toList (n : Nat) : (entryId n).toList = Nat.toDigits 10 n ++ ['-', '0'] := by
  rw [entryId, String.toList_append, toList_toString]
  rfl

theorem entryId_injective : Function.Injective entryId := by
  intro m n h
  have htext := congrArg String.toList h
  rw [entryId_toList, entryId_toList] at htext
  have hdigits := congrArg digitsVal (List.append_cancel_right htext)
  rwa [digitsVal_toDigits, digitsVal_toDigits] at hdigits

/-! ## Numbers of entries -/

/-- While the counter has not come round: it counts the ids given out, and the entries have the last of its numbers. -/
structure Counted (ids : List String) (s : Stream) : Prop where
  given : ids = (List.range' 1 ids.length).map entryId
  next : s.nextId.toNat = ids.length + 1
  kept : s.entries.length ≤ ids.length
  consecutive : s.entries.map (·.id) =
    (List.range' (ids.length + 1 - s.entries.length) s.entries.length).map entryId

theorem Counted.append {ids : List String} {s : Stream} (h : Counted ids s) (hlen : ids.length + 2 < 2 ^ 64)
    (fields : AList fun _ : String => String) : Counted (ids ++ [(s.append fields).1]) (s.append fields).2 := by
  have hid : (s.append fields).1 = entryId (ids.length + 1) := by
    rw [← h.next]
    rfl
  refine ⟨?_, ?_, ?_, ?_⟩
  · rw [hid, List.length_append, List.length_singleton, ← List.range'_append_1, List.map_append, ← h.given, Nat.add_comm 1]
    rfl
  · have hnext : (s.append fields).2.nextId = s.nextId + 1 := rfl
    rw [hnext, UInt64.toNat_add, h.next, List.length_append, List.length_singleton]
    exact Nat.mod_eq_of_lt (by simpa using hlen)
  · have := h.kept
    simp only [Stream.append, List.length_append, List.length_singleton]
    omega
  · have hkept := h.kept
    have hentries : (s.append fields).2.entries = s.entries ++ [⟨(s.append fields).1, fields⟩] := rfl
    have hlast : ids.length + 1 - s.entries.length + s.entries.length = ids.length + 1 := by omega
    rw [hentries, List.map_append, h.consecutive, hid, List.length_append, List.length_append, List.length_singleton,
      List.length_singleton, Nat.add_sub_add_right, ← List.range'_append_1, List.map_append, hlast]
    rfl

theorem Counted.trim {ids : List String} {s : Stream} (h : Counted ids s) (maxLen : Nat) : Counted ids (s.trim maxLen) := by
  obtain ⟨⟨older, holder⟩, hlength⟩ := s.lastN_newest maxLen
  rw [Stream.trim_eq]
  have hkept := h.kept
  refine ⟨h.given, h.next, by simp only; omega, ?_⟩
  have hsplit : s.entries.length = older.length + (s.lastN maxLen).length := by
    rw [← List.length_append, ← holder]
  have hconsecutive := h.consecutive
  rw [hsplit, ← List.range'_append_1, List.map_append, holder, List.map_append] at hconsecutive
  have hfirst : ids.length + 1 - (older.length + (s.lastN maxLen).length) + older.length =
      ids.length + 1 - (s.lastN maxLen).length := by omega
  rw [hfirst] at hconsecutive
  exact (List.append_inj hconsecutive (by simp)).2

theorem counted_run (calls : List StreamCall) (hlen : calls.length < 2 ^ 64 - 1) :
    Counted (run calls).1 (run calls).2 ∧ (run calls).1.length ≤ calls.length := by
  induction calls using List.reverseRecOn with
  | nil => exact ⟨⟨rfl, rfl, le_rfl, rfl⟩, le_rfl⟩
  | append_singleton calls call ih =>
    rw [List.length_append, List.length_singleton] at hlen
    obtain ⟨hcounted, hle⟩ := ih (by omega)
    rw [run_concat, List.length_append, List.length_singleton]
    cases call with
    | append fields =>
      refine ⟨hcounted.append (by omega) fields, ?_⟩
      simp only [StreamCall.step, List.length_append, List.length_singleton]
      omega
    | trim maxLen => exact ⟨hcounted.trim maxLen, by simp only [StreamCall.step]; omega⟩

/-- **Ids and retention.** In fewer than `2^64 - 1` calls on a new stream. -/
theorem stream_run (calls : List StreamCall) (hlen : calls.length < 2 ^ 64 - 1) :
    (∃ first, first + (run calls).2.entries.length = (run calls).2.nextId.toNat ∧
      (run calls).2.entries.map (·.id) = (List.range' first (run calls).2.entries.length).map entryId) ∧
    (run calls).1.Nodup ∧
    (∀ fields, ((run calls).2.append fields).2.entries =
      (run calls).2.entries ++ [⟨((run calls).2.append fields).1, fields⟩]) ∧
    (∀ m, (∃ older, (run calls).2.entries = older ++ ((run calls).2.trim m).entries) ∧
      ((run calls).2.trim m).entries.length = min m (run calls).2.entries.length) ∧
    ∀ c, (∃ older, (run calls).2.entries = older ++ (run calls).2.lastN c) ∧
      ((run calls).2.lastN c).length = min c (run calls).2.entries.length := by
  obtain ⟨hcounted, -⟩ := counted_run calls hlen
  refine ⟨?_, ?_, fun fields => rfl, ?_, Stream.lastN_newest _⟩
  · have hkept := hcounted.kept
    refine ⟨_, ?_, hcounted.consecutive⟩
    rw [hcounted.next]
    omega
  · rw [hcounted.given]
    exact List.Nodup.map entryId_injective List.nodup_range'
  · intro m
    rw [Stream.trim_eq]
    exact Stream.lastN_newest _ m

/-- Three entries, all but the newest trimmed, and another one. -/
def trimmedCalls : List StreamCall := [.append ∅, .append ∅, .append ∅, .trim 1, .append ∅]

theorem stream_run_trimmed : trimmedCalls.length < 2 ^ 64 - 1 ∧
    (run trimmedCalls).1 = ["1-0", "2-0", "3-0", "4-0"] ∧ (run trimmedCalls).1.Nodup ∧
    (∀ fields, ((run trimmedCalls).2.append fields).2.entries =
      (run trimmedCalls).2.entries ++ [⟨((run trimmedCalls).2.append fields).1, fields⟩]) ∧
    ((run trimmedCalls).2.lastN 1).length = 1 := by
  have hlen : trimmedCalls.length < 2 ^ 64 - 1 := by decide
  obtain ⟨-, hnodup, happend, -, hlast⟩ := stream_run trimmedCalls hlen
  exact ⟨hlen, by decide, hnodup, happend, (hlast 1).2⟩

/-! ## Ranges -/

/-- The number an id begins with. -/
def StreamEntry.seq (e : StreamEntry) : Nat := digitsVal (e.id.toList.takeWhile Char.isDigit)

theorem seq_of_id {e : StreamEntry} {n : Nat} (h : e.id = entryId n) : e.seq = n := by
  have hdigits : (Nat.toDigits 10 n ++ ['-', '0']).takeWhile Char.isDigit = Nat.toDigits 10 n := by
    rw [List.takeWhile_append_of_pos fun c hc => isDigit_of_mem_digits hc]
    exact List.append_nil _
  rw [StreamEntry.seq, h, entryId_toList, hdigits, digitsVal_toDigits]

/-- In every state, the counter come round or not. -/
theorem id_of_mem_run (calls : List StreamCall) : ∀ e ∈ (run calls).2.entries, ∃ n, e.id = entryId n := by
  induction calls using List.reverseRecOn with
  | nil =>
    intro e he
    cases he
  | append_singleton calls call ih =>
    rw [run_concat]
    intro e he
    cases call with
    | append fields =>
      rcases List.mem_append.1 he with he | he
      · exact ih e he
      · rw [List.mem_singleton] at he
        exact ⟨_, by rw [he]⟩
    | trim maxLen =>
      simp only [StreamCall.step, Stream.trim_eq] at he
      exact ih e (List.mem_of_mem_drop he)

theorem entryId_le_iff (m n : Nat) : entryId m ≤ entryId n ↔ TextBefore m n := by
  rw [← le_iff_textBefore (show '-' < '0' by decide) ['0'] m n, ← entryId_toList, ← entryId_toList]
  rfl

/-- What `range` answers, by the numbers of the entries. -/
theorem range_eq (calls : List StreamCall) (a b : Nat) :
    (run calls).2.range (entryId a) (entryId b) =
      (run calls).2.entries.filter fun e => TextBefore a e.seq ∧ TextBefore e.seq b := by
  apply List.filter_congr
  intro e he
  obtain ⟨n, hn⟩ := id_of_mem_run calls e he
  rw [decide_eq_decide, seq_of_id hn, hn, entryId_le_iff, entryId_le_iff]

/-- **Ranges.** `range` answers the entries with numbers from `a` to `b` exactly when the retained numbers between `a` and
    `b` are those whose text is between the two texts. -/
theorem range_eq_iff (calls : List StreamCall) (a b : Nat) :
    (run calls).2.range (entryId a) (entryId b) = ((run calls).2.entries.filter fun e => a ≤ e.seq ∧ e.seq ≤ b) ↔
      ∀ e ∈ (run calls).2.entries, (a ≤ e.seq ∧ e.seq ≤ b ↔ TextBefore a e.seq ∧ TextBefore e.seq b) := by
  rw [range_eq]
  constructor
  · intro h e he
    have hmem : e ∈ ((run calls).2.entries.filter fun e => TextBefore a e.seq ∧ TextBefore e.seq b) ↔
        e ∈ ((run calls).2.entries.filter fun e => a ≤ e.seq ∧ e.seq ≤ b) := by
      rw [h]
    simpa [he] using hmem.symm
  · intro h
    apply List.filter_congr
    intro e he
    rw [decide_eq_decide, h e he]

/-- Numbers with one number of digits do no harm. -/
theorem range_of_digits (calls : List StreamCall) {a b : Nat}
    (hb : (Nat.toDigits 10 b).length = (Nat.toDigits 10 a).length)
    (h : ∀ e ∈ (run calls).2.entries, (Nat.toDigits 10 e.seq).length = (Nat.toDigits 10 a).length) :
    (run calls).2.range (entryId a) (entryId b) = (run calls).2.entries.filter fun e => a ≤ e.seq ∧ e.seq ≤ b := by
  rw [range_eq]
  apply List.filter_congr
  intro e he
  rw [decide_eq_decide, textBefore_iff_le (h e he).symm, textBefore_iff_le ((h e he).trans hb.symm)]

/-- Ten entries, of which `2-0` to `10-0` are asked for. -/
theorem range_loses_tenth :
    ((run (List.replicate 10 (.append ∅))).2.range "2-0" "10-0").map (·.id) = [] ∧
    (((run (List.replicate 10 (.append ∅))).2.entries.filter fun e => 2 ≤ e.seq ∧ e.seq ≤ 10).map (·.id)) =
      ["2-0", "3-0", "4-0", "5-0", "6-0", "7-0", "8-0", "9-0", "10-0"] := by
  decide

end RedisOps.Streams
