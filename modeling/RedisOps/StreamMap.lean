import RedisOps.Lib.Registry
import RedisOps.Streams

/-!
# Streams under names (`redisdb/src/streams.rs:61-113`)

Every function takes the one `RwLock` for as long as it runs, so calls that overlap come one after another.

`streams_apart`: a stream answers as if it were the only one, and is listed from its first `append` on.
-/

namespace RedisOps.Streams

open Lib

/-- `inner`. The order of the names is that of the map. -/
abbrev StreamMap := AList fun _ : String => Stream

namespace StreamMap

def new : StreamMap := ∅

/-- `entry(stream).or_insert_with(Stream::new)` -/
def append (m : StreamMap) (stream : String) (fields : AList fun _ : String => String) : String × StreamMap :=
  let r := ((m.lookup stream).getD .new).append fields
  (r.1, m.insert stream r.2)

def range (m : StreamMap) (stream start stop : String) : List StreamEntry :=
  match m.lookup stream with
  | some s => s.range start stop
  | none => []

def lastN (m : StreamMap) (stream : String) (count : Nat) : List StreamEntry :=
  match m.lookup stream with
  | some s => s.lastN count
  | none => []

def len (m : StreamMap) (stream : String) : Nat := ((m.lookup stream).map fun s => s.entries.length).getD 0

def trim (m : StreamMap) (stream : String) (maxLen : Nat) : StreamMap :=
  match m.lookup stream with
  | some s => m.insert stream (s.trim maxLen)
  | none => m

def listStreams (m : StreamMap) : List String := m.keys

end StreamMap

/-! ## Calls -/

inductive Call where
  | append (fields : AList fun _ : String => String)
  | range (start stop : String)
  | lastN (count : Nat)
  | len
  | trim (maxLen : Nat)

inductive Answer where
  | given (id : String)
  | entries (entries : List StreamEntry)
  | count (n : Nat)
  | unit

/-- A call on a stream by itself. -/
def Call.on (s : Stream) : Call → Answer × Stream
  | .append fields => (.given (s.append fields).1, (s.append fields).2)
  | .range start stop => (.entries (s.range start stop), s)
  | .lastN count => (.entries (s.lastN count), s)
  | .len => (.count s.entries.length, s)
  | .trim maxLen => (.unit, s.trim maxLen)

def Call.perform (m : StreamMap) (stream : String) : Call → Answer × StreamMap
  | .append fields => (.given (m.append stream fields).1, (m.append stream fields).2)
  | .range start stop => (.entries (m.range stream start stop), m)
  | .lastN count => (.entries (m.lastN stream count), m)
  | .len => (.count (m.len stream), m)
  | .trim maxLen => (.unit, m.trim stream maxLen)

/-- A stream that is not there is a new one. -/
def streams : Objects StreamMap String Stream Call Answer where
  look m stream := (m.lookup stream).getD .new
  perform m stream call := call.perform m stream
  step := Call.on

theorem trim_new (maxLen : Nat) : Stream.new.trim maxLen = .new := by
  simp [Stream.trim, Stream.new]

theorem streams_lawful : streams.Lawful where
  answer m stream call := by
    cases call with
    | append | trim => rfl
    | range | len =>
      simp only [streams, Call.perform, Call.on, StreamMap.range, StreamMap.len]
      cases m.lookup stream <;> rfl
    | lastN count =>
      cases h : m.lookup stream <;> simp [streams, Call.perform, Call.on, StreamMap.lastN, h, Stream.lastN, Stream.new]
  own m stream call := by
    cases call with
    | append => simp [streams, Call.perform, Call.on, StreamMap.append]
    | range | lastN | len => rfl
    | trim maxLen =>
      cases h : m.lookup stream <;> simp [streams, Call.perform, Call.on, StreamMap.trim, h, trim_new]
  other m stream call stream' hne := by
    cases call with
    | append => simp [streams, Call.perform, StreamMap.append, AList.lookup_insert_ne hne]
    | range | lastN | len => rfl
    | trim maxLen =>
      cases h : m.lookup stream <;> simp [streams, Call.perform, StreamMap.trim, h, AList.lookup_insert_ne hne]

theorem mem_perform {m : StreamMap} {stream stream' : String} {call : Call} : stream ∈ (call.perform m stream').2 ↔
    stream ∈ m ∨ stream = stream' ∧ ∃ fields, call = .append fields := by
  cases call with
  | append fields => simp [Call.perform, StreamMap.append, or_comm]
  | range | lastN | len => simp [Call.perform]
  | trim maxLen =>
    simp only [Call.perform, StreamMap.trim]
    cases h : m.lookup stream' with
    | none => simp
    | some s =>
      have hmem : stream' ∈ m := AList.lookup_isSome.1 (by rw [h]; rfl)
      simp only [AList.mem_insert, reduceCtorEq, exists_false, and_false, or_false, or_iff_right_iff_imp]
      rintro rfl
      exact hmem

theorem mem_run {calls : List (String × Call)} {m : StreamMap} {stream : String} :
    stream ∈ (streams.run m calls).2 ↔ stream ∈ m ∨ ∃ fields, Call.append fields ∈ Objects.under stream calls := by
  induction calls generalizing m with
  | nil => simp [Objects.run]
  | cons c calls ih =>
    obtain ⟨stream', call⟩ := c
    have hmem : stream ∈ (streams.perform m stream' call).2 ↔ _ := mem_perform
    rw [Objects.run, ih, hmem, Objects.under_cons]
    by_cases heq : stream' = stream
    · subst heq
      simp [or_assoc, exists_or, eq_comm]
    · simp [heq, Ne.symm heq]

/-! ## Ids -/

def Call.writes : Call → Option StreamCall
  | .append fields => some (.append fields)
  | .trim maxLen => some (.trim maxLen)
  | _ => none

def Answer.id? : Answer → Option String
  | .given id => some id
  | _ => none

theorem foldl_writes (calls : List Call) (ids : List String) (s : Stream) :
    (calls.filterMap Call.writes).foldl StreamCall.step (ids, s) =
      (ids ++ (answerAll Call.on s calls).1.filterMap Answer.id?, (answerAll Call.on s calls).2) := by
  induction calls generalizing ids s with
  | nil => simp [answerAll]
  | cons call calls ih =>
    cases call <;> simp [List.filterMap_cons, answerAll, Call.writes, Call.on, StreamCall.step, Answer.id?, ih]

/-- **Streams by themselves.** In every order of calls: a stream answers the calls under its name as it would answer them
    alone, the ids it gives out are `1-0`, `2-0` and so on whatever is appended elsewhere, and `list_streams` lists every
    stream that has been appended to once, and no other. -/
theorem streams_apart (calls : List (String × Call)) (stream : String) :
    Objects.under stream (streams.run .new calls).1 = (answerAll Call.on .new (Objects.under stream calls)).1 ∧
      (calls.length < 2 ^ 64 - 1 → ∃ n, (Objects.under stream (streams.run .new calls).1).filterMap Answer.id? =
        (List.range' 1 n).map entryId) ∧
      (stream ∈ (streams.run .new calls).2.listStreams ↔ ∃ fields, Call.append fields ∈ Objects.under stream calls) ∧
      (streams.run .new calls).2.listStreams.Nodup := by
  have halone : Objects.under stream (streams.run .new calls).1 =
      (answerAll Call.on .new (Objects.under stream calls)).1 :=
    congrArg Prod.fst (streams_lawful.answerAll calls StreamMap.new stream)
  refine ⟨halone, ?_, ?_, AList.keys_nodup _⟩
  · intro hlen
    have hshort : ((Objects.under stream calls).filterMap Call.writes).length ≤ calls.length := by
      refine (List.length_filterMap_le _ _).trans ?_
      rw [Objects.under, List.length_map]
      exact List.length_filter_le _ _
    obtain ⟨⟨hgiven, -, -, -⟩, -⟩ := counted_run ((Objects.under stream calls).filterMap Call.writes) (by omega)
    rw [run, foldl_writes, List.nil_append] at hgiven
    exact ⟨_, by rw [halone]; exact hgiven⟩
  · have hmem := @mem_run calls .new stream
    rw [StreamMap.listStreams, ← AList.mem_keys, hmem]
    simp [StreamMap.new]

end RedisOps.Streams
