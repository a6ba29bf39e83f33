import RedisOps.Lib.Decimal
import RedisOps.Lib.Find
import RedisOps.Lib.Window

/-!
# The log of the supervisor (`sandbox/src/log_aggregator.cpp`)

| here | there |
| --- | --- |
| `LogEntry`, `LogAggregator` | `sandbox/include/devops/log_aggregator.hpp:11-41` |
| `push`, `pushRaw` | `log_aggregator.cpp:15-42` |
| `search`, `searchRegex`, `getBySource` | `:44-69`, `:81-91` |
| `getRecent`, `setMaxEntries`, `count`, `clear` | `:71-79`, `:93-106` |

Every method holds the lock from its first step to its last, so a run of the aggregator is a sequence of calls, whichever
threads make them. `std::regex` is a parameter: what a pattern compiles to, and what a match answers; either may throw.

A lower limit takes effect at the next `push`, not before. `log_queries` says what is in the log all the same, entry by
entry, and that every query is about exactly that.
-/

namespace RedisOps.Logs

open Lib

structure LogEntry where
  timestampMs : Nat
  source : Bytes
  level : Bytes
  message : Bytes
  deriving DecidableEq

structure LogAggregator where
  entries : List LogEntry := []
  maxEntries : Nat := 10000

namespace LogAggregator

def push (now : Nat) (source level message : Bytes) (log : LogAggregator) : LogAggregator :=
  { log with entries := dropTo log.maxEntries (log.entries ++ [⟨now, source, level, message⟩]) }

/-- `raw_line.substr(raw_line.find(' ') + 1)`; without a blank the position is `npos`, and `npos + 1` is `0`. -/
def behindBlank (line : Bytes) : Bytes :=
  match findAt (ascii " ") line with
  | some i => line.drop (i + 1)
  | none => line

def tagged (line : Bytes) (tag : String) : Bool :=
  (ascii ("[" ++ tag ++ "]")).isPrefixOf line || (ascii (tag ++ ":")).isPrefixOf line

/-- The level and the message `push_raw` makes of a line. -/
def parseRaw (line : Bytes) : Bytes × Bytes :=
  if tagged line "ERROR" then (ascii "error", behindBlank line)
  else if tagged line "WARN" then (ascii "warn", behindBlank line)
  else if tagged line "DEBUG" then (ascii "debug", behindBlank line)
  else (ascii "info", line)

def pushRaw (now : Nat) (source line : Bytes) (log : LogAggregator) : LogAggregator :=
  log.push now source (parseRaw line).1 (parseRaw line).2

def search (query : Bytes) (limit : Nat) (log : LogAggregator) : List LogEntry :=
  newest (fun e => some (findAt query e.message).isSome) limit log.entries

/-- `compile` is the constructor of `std::regex`, and what it compiles to is `std::regex_search`. -/
def searchRegex (compile : Bytes → Option (Bytes → Option Bool)) (pattern : Bytes) (limit : Nat) (log : LogAggregator) :
    List LogEntry :=
  match compile pattern with
  | none => []
  | some re => newest (fun e => re e.message) limit log.entries

def getBySource (source : Bytes) (limit : Nat) (log : LogAggregator) : List LogEntry :=
  newest (fun e => some (e.source == source)) limit log.entries

def getRecent (count : Nat) (log : LogAggregator) : List LogEntry :=
  let start := if log.entries.length > count then log.entries.length - count else 0
  log.entries.drop start

def setMaxEntries (max : Nat) (log : LogAggregator) : LogAggregator := { log with maxEntries := max }

def count (log : LogAggregator) : Nat := log.entries.length

def clear (log : LogAggregator) : LogAggregator := { log with entries := [] }

end LogAggregator

/-! ## Runs -/

/-- The calls that change the log; `now` is what the clock says under the lock. -/
inductive LogCall where
  | push (now : Nat) (source level message : Bytes)
  | pushRaw (now : Nat) (source line : Bytes)
  | setMaxEntries (max : Nat)
  | clear

def LogCall.step (log : LogAggregator) : LogCall → LogAggregator
  | .push now source level message => log.push now source level message
  | .pushRaw now source line => log.pushRaw now source line
  | .setMaxEntries max => log.setMaxEntries max
  | .clear => log.clear

def LogAggregator.run (log : LogAggregator) (calls : List LogCall) : LogAggregator := calls.foldl LogCall.step log

def LogCall.op : LogCall → WindowOp LogEntry
  | .push now source level message => .push ⟨now, source, level, message⟩
  | .pushRaw now source line => .push ⟨now, source, (LogAggregator.parseRaw line).1, (LogAggregator.parseRaw line).2⟩
  | .setMaxEntries max => .resize max
  | .clear => .clear

/-- The log as a window on what was pushed. -/
def LogAggregator.window (log : LogAggregator) : Window LogEntry := ⟨log.entries, log.maxEntries⟩

theorem window_step (log : LogAggregator) (call : LogCall) : (call.step log).window = log.window.step call.op := by
  cases call with
  | push now source level message =>
    simp only [LogCall.step, LogAggregator.push, LogAggregator.window, dropTo_eq, LogCall.op, Window.step]
  | pushRaw now source line =>
    simp only [LogCall.step, LogAggregator.pushRaw, LogAggregator.push, LogAggregator.window, dropTo_eq, LogCall.op,
      Window.step]
  | setMaxEntries max => rfl
  | clear => rfl

theorem window_run (calls : List LogCall) (log : LogAggregator) :
    (log.run calls).window = log.window.run (calls.map LogCall.op) := by
  induction calls generalizing log with
  | nil => rfl
  | cons call calls ih =>
    change ((call.step log).run calls).window = (log.window.step call.op).run (calls.map LogCall.op)
    rw [ih, window_step]

/-- The entries of the calls that neither the limit, as it was at each later push, nor a `clear` has taken away. -/
def kept (calls : List LogCall) : List LogEntry := Window.retained (calls.map LogCall.op) 10000

theorem entries_run (calls : List LogCall) : (LogAggregator.run {} calls).entries = kept calls := by
  have h := congrArg Window.items (window_run calls {})
  rw [Window.run_items] at h
  exact h

theorem getRecent_eq (count : Nat) (log : LogAggregator) : log.getRecent count = log.entries.rtake count := by
  simp only [LogAggregator.getRecent, List.rtake]
  split
  · rfl
  · rw [Nat.sub_eq_zero_of_le (by omega)]

/-- **The log.** Whatever was logged, resized and cleared: the log holds the entries that outlive it, oldest first; a
    search answers the last ones that match, up to its limit, `get_by_source` the last ones of the source, and
    `get_recent` the last ones; `count` is their number. A search with a pattern that is compiled answers the last ones
    that match behind the last one on which the matcher throws. -/
theorem log_queries (calls : List LogCall) (compile : Bytes → Option (Bytes → Option Bool)) (query source : Bytes)
    (limit : Nat) :
    (LogAggregator.run {} calls).entries = kept calls ∧
      (LogAggregator.run {} calls).search query limit =
        ((kept calls).filter fun e => (findAt query e.message).isSome).rtake limit ∧
      (LogAggregator.run {} calls).getBySource source limit =
        ((kept calls).filter fun e => e.source == source).rtake limit ∧
      (LogAggregator.run {} calls).getRecent limit = (kept calls).rtake limit ∧
      (LogAggregator.run {} calls).count = (kept calls).length ∧
      (LogAggregator.run {} calls).searchRegex compile query limit = ((compile query).map fun re =>
        (((kept calls).rtakeWhile fun e => (re e.message).isSome).filter fun e =>
          re e.message = some true).rtake limit).getD [] := by
  refine ⟨entries_run calls, ?_, ?_, ?_, ?_, ?_⟩
  · rw [LogAggregator.search, newest_total, entries_run]
  · rw [LogAggregator.getBySource, newest_total, entries_run]
  · rw [getRecent_eq, entries_run]
  · rw [LogAggregator.count, entries_run]
  · rw [LogAggregator.searchRegex]
    cases compile query with
    | none => rfl
    | some re =>
      simp only [newest_eq, entries_run]
      rfl

/-- The limit goes down to one; the two entries stay until the next one comes. -/
example : (kept [.push 1 [] [] [1], .push 2 [] [] [2], .setMaxEntries 1]).map LogEntry.message = [[1], [2]] ∧
    (kept [.push 1 [] [] [1], .push 2 [] [] [2], .setMaxEntries 1, .push 3 [] [] [3]]).map LogEntry.message = [[3]] := by
  decide

end RedisOps.Logs
