import RedisOps.BTree.Wal

/-!
# The records of the log (`redisdb/src/btree/wal.rs:42-170`)

`append_write` and its two siblings write a record field by field behind the end of the file; `replay` reads the fields
back in the same order. `readLog` is the reader inside of `replay` on its own (`replay_eq`).

* `readLog_appends` — whatever was appended to an empty log is read back, record by record, up to the last byte.
* `replay_torn_iff` — on a log that was cut off, `replay` is right exactly when the cut is between two records. The end
  of the file is expected at a type byte only (`wal.rs:112-115`); inside of a record it is an error, and `init`
  fails on the log of a crash.
-/

namespace RedisOps.BTree

open Lib

/-! ## Appending -/

/-- The log file, opened for appending, and the transaction counter. -/
structure Wal where
  file : Bytes
  nextTx : UInt64

namespace Wal

def writeAll (wal : Wal) (buf : Bytes) : Wal := { wal with file := wal.file ++ buf }

def appendWrite (wal : Wal) (page : UInt64) (data : LogData) : Wal :=
  let wal := wal.writeAll [1]
  let wal := wal.writeAll (leBytes 8 wal.nextTx.toNat)
  let wal := wal.writeAll (leBytes 8 page.toNat)
  let wal := wal.writeAll (leBytes 4 data.1.length)
  wal.writeAll data.1

def appendCommit (wal : Wal) (tx : UInt64) : Wal := (wal.writeAll [2]).writeAll (leBytes 8 tx.toNat)

def appendRollback (wal : Wal) (tx : UInt64) : Wal := (wal.writeAll [3]).writeAll (leBytes 8 tx.toNat)

def nextTxId (wal : Wal) : Wal := { wal with nextTx := wal.nextTx + 1 }

end Wal

inductive WalCall where
  | write (page : UInt64) (data : LogData)
  | commit (tx : UInt64)
  | rollback (tx : UInt64)
  | nextTxId

def WalCall.run (wal : Wal) : WalCall → Wal
  | .write page data => wal.appendWrite page data
  | .commit tx => wal.appendCommit tx
  | .rollback tx => wal.appendRollback tx
  | .nextTxId => wal.nextTxId

/-- The record a call is to leave; a write is tagged with the counter (`wal.rs:49-52`). -/
def WalCall.record (wal : Wal) : WalCall → Option LogRecord
  | .write page data => some (.write wal.nextTx page data)
  | .commit tx => some (.commit tx)
  | .rollback tx => some (.rollback tx)
  | .nextTxId => none

def Wal.after (wal : Wal) (calls : List WalCall) : Wal := calls.foldl WalCall.run wal

/-- The records of the calls, in their order. -/
def Wal.records : Wal → List WalCall → List LogRecord
  | _, [] => []
  | wal, call :: calls => (call.record wal).toList ++ Wal.records (call.run wal) calls

/-- **Step.** A call appends the bytes of its record. -/
theorem WalCall.file_run (wal : Wal) (call : WalCall) :
    (call.run wal).file = wal.file ++ encodeLog (call.record wal).toList := by
  cases call <;>
    simp [WalCall.run, WalCall.record, Wal.appendWrite, Wal.appendCommit, Wal.appendRollback, Wal.nextTxId,
      Wal.writeAll, encodeLog, LogRecord.encode]

theorem encodeLog_append (log log' : List LogRecord) : encodeLog (log ++ log') = encodeLog log ++ encodeLog log' :=
  List.flatMap_append

/-- **Run.** -/
theorem Wal.file_after : ∀ (calls : List WalCall) (wal : Wal),
    (wal.after calls).file = wal.file ++ encodeLog (wal.records calls)
  | [], wal => by simp [Wal.after, Wal.records, encodeLog]
  | call :: calls, wal => by
    have ih := Wal.file_after calls (call.run wal)
    rw [call.file_run, List.append_assoc, ← encodeLog_append] at ih
    exact ih

/-! ## Reading -/

/-- A record as it is read, with data of whatever length. -/
inductive ReadRecord where
  | write (tx page : UInt64) (data : Bytes)
  | commit (tx : UInt64)
  | rollback (tx : UInt64)
  deriving DecidableEq

def LogRecord.asRead : LogRecord → ReadRecord
  | .write tx page data => .write tx page data.1
  | .commit tx => .commit tx
  | .rollback tx => .rollback tx

/-- One round of the loop of `replay`: a record and the rest of the file, or nothing where the loop is left. -/
def readRecord : Bytes → Except String (Option (ReadRecord × Bytes))
  | [] => .ok none
  | type :: file =>
    if type = 1 then do
      let (tx, file) ← readU64 file
      let (page, file) ← readU64 file
      let (len, file) ← readExact 4 file
      let (data, file) ← readExact (ofLe len) file
      pure (some (.write tx page data, file))
    else if type = 2 then do
      let (tx, file) ← readU64 file
      pure (some (.commit tx, file))
    else if type = 3 then do
      let (tx, file) ← readU64 file
      pure (some (.rollback tx, file))
    else .ok none

/-- The records up to the end of the loop, and what is then left of the file. -/
def readRecords : Nat → Bytes → Except String (List ReadRecord × Bytes)
  | 0, file => .ok ([], file)
  | fuel + 1, file =>
    match readRecord file with
    | .error e => .error e
    | .ok none => .ok ([], file)
    | .ok (some (r, rest)) => (readRecords fuel rest).map fun x => (r :: x.1, x.2)

def readLog (file : Bytes) : Except String (List ReadRecord × Bytes) := readRecords (file.length + 1) file

/-- What `replay` takes of the records it reads. -/
def taken : Finset UInt64 → List ReadRecord → List (UInt64 × Bytes)
  | _, [] => []
  | txs, .write tx page data :: log => (if tx ∈ txs then [(page, data)] else []) ++ taken txs log
  | txs, .commit tx :: log => taken (insert tx txs) log
  | txs, .rollback tx :: log => taken (txs.erase tx) log

theorem taken_asRead : ∀ (txs : Finset UInt64) (log : List LogRecord),
    taken txs (log.map LogRecord.asRead) = replayed txs log
  | _, [] => rfl
  | txs, .write tx page data :: log => by
    rw [List.map_cons, LogRecord.asRead, taken, taken_asRead txs log]
    rfl
  | txs, .commit tx :: log => taken_asRead (insert tx txs) log
  | txs, .rollback tx :: log => taken_asRead (txs.erase tx) log

theorem replayLoop_eq : ∀ (fuel : Nat) (file : Bytes) (txs : Finset UInt64) (entries : List (UInt64 × Bytes)),
    replayLoop fuel file txs entries = (readRecords fuel file).map fun x => entries ++ taken txs x.1
  | 0, file, txs, entries => by simp [replayLoop, readRecords, taken, Except.map]
  | fuel + 1, [], txs, entries => by simp [replayLoop, readRecords, readRecord, taken, Except.map]
  | fuel + 1, type :: file, txs, entries => by
    have ih := replayLoop_eq fuel
    rw [replayLoop, readRecords, readRecord]
    by_cases hwrite : type = 1
    · -- four reads, each of which may find the end of the file
      rw [if_pos hwrite, if_pos hwrite]
      cases htx : readU64 file with
      | error e => rfl
      | ok x =>
        cases hpage : readU64 x.2 with
        | error e => simp only [bind, Except.bind, hpage, Except.map]
        | ok y =>
          cases hlen : readExact 4 y.2 with
          | error e => simp only [bind, Except.bind, hpage, hlen, Except.map]
          | ok z =>
            cases hdata : readExact (ofLe z.1) z.2 with
            | error e => simp only [bind, Except.bind, hpage, hlen, hdata, Except.map]
            | ok w =>
              simp only [bind, Except.bind, hpage, hlen, hdata, pure, Except.pure, ih]
              cases readRecords fuel w.2 with
              | error e => rfl
              | ok rs =>
                simp only [Except.map, taken]
                split <;> simp
    · rw [if_neg hwrite, if_neg hwrite]
      by_cases hcommit : type = 2
      · rw [if_pos hcommit, if_pos hcommit]
        cases readU64 file with
        | error e => rfl
        | ok x =>
          simp only [bind, Except.bind, pure, Except.pure, ih]
          cases readRecords fuel x.2 <;> rfl
      · rw [if_neg hcommit, if_neg hcommit]
        by_cases hrollback : type = 3
        · rw [if_pos hrollback, if_pos hrollback]
          cases readU64 file with
          | error e => rfl
          | ok x =>
            simp only [bind, Except.bind, pure, Except.pure, ih]
            cases readRecords fuel x.2 <;> rfl
        · rw [if_neg hrollback, if_neg hrollback]
          simp [taken, Except.map]

/-- `replay` reads the records and takes the writes among them that are of a transaction committed by then. -/
theorem replay_eq (file : Bytes) : replay file = (readLog file).map fun x => taken ∅ x.1 := by
  rw [replay, replayLoop_eq]
  rfl

/-! ## Reading back -/

theorem readRecord_encode (r : LogRecord) (rest : Bytes) :
    readRecord (r.encode ++ rest) = .ok (some (r.asRead, rest)) := by
  cases r with
  | write tx page data =>
    have henc : (LogRecord.write tx page data).encode ++ rest = 1 :: (leBytes 8 tx.toNat ++ (leBytes 8 page.toNat ++
        (leBytes 4 data.1.length ++ (data.1 ++ rest)))) := by
      simp [LogRecord.encode]
    have hlen : ofLe (leBytes 4 data.1.length) = data.1.length := ofLe_leBytes_of_lt data.2
    rw [henc, readRecord, if_pos rfl]
    simp only [readU64_append, readExact_append _ _ (length_leBytes 4 data.1.length),
      readExact_append data.1 rest rfl, hlen, bind, Except.bind]
    rfl
  | commit tx =>
    rw [LogRecord.encode, List.cons_append, readRecord, if_neg (by decide), if_pos rfl, readU64_append]
    rfl
  | rollback tx =>
    rw [LogRecord.encode, List.cons_append, readRecord, if_neg (by decide), if_neg (by decide), if_pos rfl,
      readU64_append]
    rfl

/-- Whole records are read, and then the rest. -/
theorem readRecords_append : ∀ (log : List LogRecord) (fuel : Nat) (rest : Bytes),
    readRecords (log.length + fuel) (encodeLog log ++ rest) =
      (readRecords fuel rest).map fun x => (log.map LogRecord.asRead ++ x.1, x.2)
  | [], fuel, rest => by
    rw [List.length_nil, Nat.zero_add]
    rcases h : readRecords fuel rest with e | x <;> simp [encodeLog, h, Except.map]
  | r :: log, fuel, rest => by
    have ih := readRecords_append log fuel rest
    have hlen : (r :: log).length + fuel = log.length + fuel + 1 := by
      rw [List.length_cons]
      omega
    have henc : encodeLog (r :: log) ++ rest = r.encode ++ (encodeLog log ++ rest) := by simp [encodeLog]
    rw [hlen, henc, readRecords, readRecord_encode]
    simp only [ih]
    rcases readRecords fuel rest with e | x <;> rfl

/-- The fuel of `readLog` is enough for the records and one more round. -/
theorem readLog_append (log : List LogRecord) (rest : Bytes) : ∃ fuel, readLog (encodeLog log ++ rest) =
    (readRecords (fuel + 1) rest).map fun x => (log.map LogRecord.asRead ++ x.1, x.2) := by
  have hlen := length_le_encodeLog log
  refine ⟨(encodeLog log ++ rest).length - log.length, ?_⟩
  rw [← readRecords_append, readLog]
  congr 1
  rw [List.length_append]
  omega

/-- **The record codec.** The reader gives back what was appended to an empty log, all of it and nothing else, and
    with it `replay` ends well. -/
theorem readLog_appends (nextTx : UInt64) (calls : List WalCall) :
    readLog (Wal.after ⟨[], nextTx⟩ calls).file = .ok ((Wal.records ⟨[], nextTx⟩ calls).map LogRecord.asRead, []) ∧
      replay (Wal.after ⟨[], nextTx⟩ calls).file = .ok (replayed ∅ (Wal.records ⟨[], nextTx⟩ calls)) := by
  have hfile : (Wal.after ⟨[], nextTx⟩ calls).file = encodeLog (Wal.records ⟨[], nextTx⟩ calls) := by
    rw [Wal.file_after, List.nil_append]
  have hread : readLog (encodeLog (Wal.records ⟨[], nextTx⟩ calls)) =
      .ok ((Wal.records ⟨[], nextTx⟩ calls).map LogRecord.asRead, []) := by
    obtain ⟨fuel, hlog⟩ := readLog_append (Wal.records ⟨[], nextTx⟩ calls) []
    rw [List.append_nil] at hlog
    rw [hlog]
    simp [readRecords, readRecord, Except.map]
  rw [hfile, replay_eq, hread]
  refine ⟨rfl, ?_⟩
  rw [← taken_asRead]
  rfl

/-! ## A torn tail -/

theorem readExact_short {n : Nat} {file : Bytes} (hn : file.length < n) : readExact n file = .error "early eof" :=
  if_neg (Nat.not_le.2 hn)

theorem readU64_short {file : Bytes} (hn : file.length < 8) : readU64 file = .error "early eof" := by
  rw [readU64, readExact_short hn]
  rfl

/-- A cut behind the type byte and inside of a record leaves a record that cannot be read: whichever field the cut is
    in, its `read_exact` fails. -/
theorem readRecord_torn (r : LogRecord) {k : Nat} (hpos : 0 < k) (hk : k < r.encode.length) :
    readRecord (r.encode.take k) = .error "early eof" := by
  obtain ⟨k, rfl⟩ : ∃ j, k = j + 1 := ⟨k - 1, by omega⟩
  cases r with
  | write tx page data =>
    have henc : (LogRecord.write tx page data).encode = 1 :: (leBytes 8 tx.toNat ++ (leBytes 8 page.toNat ++
        (leBytes 4 data.1.length ++ data.1))) := by
      simp [LogRecord.encode]
    have hdata : ofLe (leBytes 4 data.1.length) = data.1.length := ofLe_leBytes_of_lt data.2
    rw [henc] at hk ⊢
    simp only [List.length_cons, List.length_append, length_leBytes] at hk
    rw [List.take_succ_cons, readRecord, if_pos rfl]
    by_cases htx : k < 8
    · rw [readU64_short (Nat.lt_of_le_of_lt (List.length_take_le _ _) htx)]
      rfl
    rw [List.take_append, List.take_of_length_le (by rw [length_leBytes]; omega), length_leBytes, readU64_append]
    by_cases hpage : k < 16
    · simp only [bind, Except.bind]
      rw [readU64_short (Nat.lt_of_le_of_lt (List.length_take_le _ _) (by omega))]
    rw [List.take_append, List.take_of_length_le (by rw [length_leBytes]; omega), length_leBytes]
    simp only [bind, Except.bind, readU64_append]
    by_cases hlen : k < 20
    · rw [readExact_short (Nat.lt_of_le_of_lt (List.length_take_le _ _) (by omega))]
    rw [List.take_append, List.take_of_length_le (by rw [length_leBytes]; omega), length_leBytes]
    simp only [readExact_append _ _ (length_leBytes 4 data.1.length), hdata]
    rw [readExact_short (Nat.lt_of_le_of_lt (List.length_take_le _ _) (by omega))]
  | commit tx =>
    simp only [LogRecord.encode, List.length_cons, length_leBytes] at hk
    rw [LogRecord.encode, List.take_succ_cons, readRecord, if_neg (by decide), if_pos rfl,
      readU64_short (Nat.lt_of_le_of_lt (List.length_take_le _ _) (by omega))]
    rfl
  | rollback tx =>
    simp only [LogRecord.encode, List.length_cons, length_leBytes] at hk
    rw [LogRecord.encode, List.take_succ_cons, readRecord, if_neg (by decide), if_neg (by decide), if_pos rfl,
      readU64_short (Nat.lt_of_le_of_lt (List.length_take_le _ _) (by omega))]
    rfl

/-- The records of the log that are whole within its first `n` bytes. -/
def complete : Nat → List LogRecord → List LogRecord
  | _, [] => []
  | n, r :: log => if r.encode.length ≤ n then r :: complete (n - r.encode.length) log else []

/-- The first `n` bytes are the complete records, and then the beginning of one more or nothing. -/
theorem take_encodeLog : ∀ (log : List LogRecord) (n : Nat), ∃ torn,
    (encodeLog log).take n = encodeLog (complete n log) ++ torn ∧
      (torn = [] ∨ ∃ (r : LogRecord) (k : Nat), 0 < k ∧ k < r.encode.length ∧ torn = r.encode.take k)
  | [], n => ⟨[], by simp [encodeLog, complete], .inl rfl⟩
  | r :: log, n => by
    have henc : encodeLog (r :: log) = r.encode ++ encodeLog log := rfl
    by_cases hr : r.encode.length ≤ n
    · obtain ⟨torn, htake, htorn⟩ := take_encodeLog log (n - r.encode.length)
      refine ⟨torn, ?_, htorn⟩
      rw [complete, if_pos hr, henc, List.take_append, List.take_of_length_le hr, htake, ← List.append_assoc]
      rfl
    · refine ⟨r.encode.take n, ?_, ?_⟩
      · rw [complete, if_neg hr, henc, List.take_append_of_le_length (by omega)]
        rfl
      · rcases Nat.eq_zero_or_pos n with rfl | hpos
        · exact .inl rfl
        · exact .inr ⟨r, n, hpos, by omega, rfl⟩

theorem complete_eq_take : ∀ (log : List LogRecord) (n : Nat), ∃ m, complete n log = log.take m
  | [], n => ⟨0, rfl⟩
  | r :: log, n => by
    by_cases hr : r.encode.length ≤ n
    · obtain ⟨m, hm⟩ := complete_eq_take log (n - r.encode.length)
      exact ⟨m + 1, by rw [complete, if_pos hr, hm, List.take_succ_cons]⟩
    · exact ⟨0, by rw [complete, if_neg hr, List.take_zero]⟩

/-- No longer run of records is contained in the prefix. -/
theorem complete_longest : ∀ (log : List LogRecord) (n m : Nat),
    encodeLog (log.take m) <+: (encodeLog log).take n → log.take m <+: complete n log
  | [], n, m, _ => by simp
  | r :: log, n, 0, _ => List.nil_prefix
  | r :: log, n, m + 1, h => by
    have henc : ∀ log, encodeLog (r :: log) = r.encode ++ encodeLog log := fun _ => rfl
    have hlen := h.length_le
    rw [List.take_succ_cons, henc, List.length_append, List.length_take] at hlen
    have hr : r.encode.length ≤ n := by omega
    rw [List.take_succ_cons, henc, henc, List.take_append, List.take_of_length_le hr,
      List.prefix_append_right_inj] at h
    rw [List.take_succ_cons, complete, if_pos hr, List.cons_prefix_cons]
    exact ⟨rfl, complete_longest log _ m h⟩

/-- **A torn tail.** `replay` finds what the complete records hold exactly when the log was not torn, that is when the
    cut is between two records, or behind the last one. -/
theorem replay_torn_iff (log : List LogRecord) (n : Nat) :
    (∃ entries, replay ((encodeLog log).take n) = .ok entries ∧ replay (encodeLog (complete n log)) = .ok entries) ↔
      ∃ m, (encodeLog log).take n = encodeLog (log.take m) := by
  obtain ⟨torn, htake, rfl | ⟨r, k, hpos, hk, rfl⟩⟩ := take_encodeLog log n
  · rw [List.append_nil] at htake
    obtain ⟨m, hm⟩ := complete_eq_take log n
    rw [htake]
    exact iff_of_true ⟨_, replay_encodeLog _, replay_encodeLog _⟩ ⟨m, by rw [hm]⟩
  · -- the reader comes to the torn record and fails, so these are not the bytes of whole records
    have herror : replay ((encodeLog log).take n) = .error "early eof" := by
      obtain ⟨fuel, hread⟩ := readLog_append (complete n log) (r.encode.take k)
      rw [htake, replay_eq, hread, readRecords, readRecord_torn r hpos hk]
      rfl
    refine iff_of_false ?_ ?_
    · rintro ⟨entries, hok, -⟩
      rw [herror] at hok
      cases hok
    · rintro ⟨m, hm⟩
      rw [hm, replay_encodeLog] at herror
      cases herror

/-- The log of one commit, of which only the type byte got into the file. -/
theorem replay_commit_torn :
    ¬ ∃ entries, replay ((encodeLog [.commit 1]).take 1) = .ok entries ∧
      replay (encodeLog (complete 1 [.commit 1])) = .ok entries := by
  rintro ⟨entries, htorn, -⟩
  cases htorn

end RedisOps.BTree
