import RedisOps.Lib.Bytes

/-!
# Replaying the log (`redisdb/src/btree/wal.rs`)

The log is a file of records, each a type byte and its fields in little-endian:

| record | bytes |
| --- | --- |
| write | `1`, `tx_id` (8), `page_id` (8), `len` (4), data |
| commit | `2`, `tx_id` (8) |
| rollback | `3`, `tx_id` (8) |

`replay` reads it once from the front and keeps the set of transactions that are committed so far. It takes
a write when its transaction is in that set *at the write*. Since the engine commits after it has written
(`btree.rs:140-145`), the set it would have to look at is the one at the end of the log.
-/

namespace RedisOps.BTree

open Lib

/-- Data whose length fits the `len` field. -/
abbrev LogData := { bs : Bytes // bs.length < 2 ^ 32 }

inductive LogRecord where
  | write (tx page : UInt64) (data : LogData)
  | commit (tx : UInt64)
  | rollback (tx : UInt64)
  deriving DecidableEq

/-- `append_write`, `append_commit` and `append_rollback` (`wal.rs:42-93`). -/
def LogRecord.encode : LogRecord → Bytes
  | .write tx page data =>
    1 :: (leBytes 8 tx.toNat ++ leBytes 8 page.toNat ++ leBytes 4 data.1.length ++ data.1)
  | .commit tx => 2 :: leBytes 8 tx.toNat
  | .rollback tx => 3 :: leBytes 8 tx.toNat

def encodeLog (log : List LogRecord) : Bytes := log.flatMap LogRecord.encode

/-! ## `replay` -/

/-- `read_exact`, with the text of its error. -/
def readExact (n : Nat) (file : Bytes) : Except String (Bytes × Bytes) :=
  if n ≤ file.length then .ok (file.take n, file.drop n) else .error "early eof"

def readU64 (file : Bytes) : Except String (UInt64 × Bytes) := do
  let (buf, file) ← readExact 8 file
  pure (UInt64.ofNat (ofLe buf), file)

/-- The loop of `replay` (`:110-167`). Every round but the last takes at least the type byte, so `fuel` above
    the number of bytes is enough. -/
def replayLoop : Nat → Bytes → Finset UInt64 → List (UInt64 × Bytes) → Except String (List (UInt64 × Bytes))
  | 0, _, _, entries => .ok entries
  | _ + 1, [], _, entries => .ok entries
  | fuel + 1, type :: file, committed, entries =>
    if type = 1 then do
      let (tx, file) ← readU64 file
      let (page, file) ← readU64 file
      let (len, file) ← readExact 4 file
      let (data, file) ← readExact (ofLe len) file
      replayLoop fuel file committed (if tx ∈ committed then entries ++ [(page, data)] else entries)
    else if type = 2 then do
      let (tx, file) ← readU64 file
      replayLoop fuel file (insert tx committed) entries
    else if type = 3 then do
      let (tx, file) ← readU64 file
      replayLoop fuel file (committed.erase tx) entries
    else .ok entries

/-- `replay` of an open log file. -/
def replay (file : Bytes) : Except String (List (UInt64 × Bytes)) := replayLoop (file.length + 1) file ∅ []

/-! ## What should be replayed -/

/-- The transaction has a commit that no rollback of it follows. -/
def Committed (log : List LogRecord) (tx : UInt64) : Prop :=
  ∃ pre post, log = pre ++ .commit tx :: post ∧ .rollback tx ∉ post

/-- The transactions committed after the log, from those committed before it. -/
def committedTxs : Finset UInt64 → List LogRecord → Finset UInt64
  | txs, [] => txs
  | txs, .write _ _ _ :: log => committedTxs txs log
  | txs, .commit tx :: log => committedTxs (insert tx txs) log
  | txs, .rollback tx :: log => committedTxs (txs.erase tx) log

theorem committed_cons {r : LogRecord} {log : List LogRecord} {tx : UInt64} :
    Committed (r :: log) tx ↔ r = .commit tx ∧ .rollback tx ∉ log ∨ Committed log tx := by
  constructor
  · rintro ⟨pre, post, heq, hpost⟩
    cases pre with
    | nil =>
      cases heq
      exact .inl ⟨rfl, hpost⟩
    | cons r' pre =>
      cases heq
      exact .inr ⟨pre, post, rfl, hpost⟩
  · rintro (⟨rfl, hlog⟩ | ⟨pre, post, rfl, hpost⟩)
    · exact ⟨[], log, rfl, hlog⟩
    · exact ⟨r :: pre, post, rfl, hpost⟩

theorem mem_committedTxs : ∀ {log : List LogRecord} {txs : Finset UInt64} {tx : UInt64},
    tx ∈ committedTxs txs log ↔ Committed log tx ∨ tx ∈ txs ∧ .rollback tx ∉ log
  | [], txs, tx => by simp [committedTxs, Committed]
  | .write _ _ _ :: log, txs, tx => by
    rw [committedTxs, mem_committedTxs, committed_cons]
    simp
  | .commit tx' :: log, txs, tx => by
    rw [committedTxs, mem_committedTxs, committed_cons, Finset.mem_insert]
    by_cases h : tx' = tx
    · simp [h]
      tauto
    · simp [h, Ne.symm h]
  | .rollback tx' :: log, txs, tx => by
    rw [committedTxs, mem_committedTxs, committed_cons, Finset.mem_erase]
    by_cases h : tx' = tx
    · simp [h]
    · simp [Ne.symm h]

theorem mem_committedTxs_empty {log : List LogRecord} {tx : UInt64} :
    tx ∈ committedTxs ∅ log ↔ Committed log tx := by
  rw [mem_committedTxs]
  simp

instance (log : List LogRecord) : DecidablePred (Committed log) := fun _ =>
  decidable_of_iff _ mem_committedTxs_empty

theorem committedTxs_append : ∀ (txs : Finset UInt64) (log log' : List LogRecord),
    committedTxs txs (log ++ log') = committedTxs (committedTxs txs log) log'
  | _, [], _ => rfl
  | txs, .write _ _ _ :: log, log' => committedTxs_append txs log log'
  | txs, .commit tx :: log, log' => committedTxs_append (insert tx txs) log log'
  | txs, .rollback tx :: log, log' => committedTxs_append (txs.erase tx) log log'

/-- The page and data of a write. -/
def LogRecord.written : LogRecord → Option (UInt64 × Bytes)
  | .write _ page data => some (page, data.1)
  | _ => none

/-- The page and data of a record, if it is a write of a transaction committed in the log. -/
def committedWrite (log : List LogRecord) : LogRecord → Option (UInt64 × Bytes)
  | .write tx page data => if Committed log tx then some (page, data.1) else none
  | _ => none

theorem committedWrite_write (log : List LogRecord) (tx page : UInt64) (data : LogData) :
    committedWrite log (.write tx page data) = if Committed log tx then some (page, data.1) else none := rfl

/-- The writes of the committed transactions, in log order. -/
def committedWrites (log : List LogRecord) : List (UInt64 × Bytes) := log.filterMap (committedWrite log)

/-- The pages and data written, committed or not. -/
def writes (log : List LogRecord) : List (UInt64 × Bytes) := log.filterMap LogRecord.written

/-- Whether a transaction is committed is settled before its writes. -/
def Timely (log : List LogRecord) : Prop :=
  ∀ pre tx page data post, log = pre ++ .write tx page data :: post → (Committed pre tx ↔ Committed log tx)

/-! ## The loop on records -/

/-- What `replay` takes, record by record. -/
def replayed : Finset UInt64 → List LogRecord → List (UInt64 × Bytes)
  | _, [] => []
  | txs, .write tx page data :: log => (if tx ∈ txs then [(page, data.1)] else []) ++ replayed txs log
  | txs, .commit tx :: log => replayed (insert tx txs) log
  | txs, .rollback tx :: log => replayed (txs.erase tx) log

theorem readExact_append (bs rest : Bytes) {n : Nat} (hn : bs.length = n) :
    readExact n (bs ++ rest) = .ok (bs, rest) := by
  subst hn
  simp [readExact]

theorem readU64_append (x : UInt64) (rest : Bytes) :
    readU64 (leBytes 8 x.toNat ++ rest) = .ok (x, rest) := by
  have hx : UInt64.ofNat (ofLe (leBytes 8 x.toNat)) = x := by
    rw [ofLe_leBytes_of_lt x.toNat_lt, UInt64.ofNat_toNat]
  rw [readU64, readExact_append _ _ (length_leBytes 8 _)]
  simp only [bind, Except.bind, hx]
  rfl

/-- Reading the records back is going through them. -/
theorem replayLoop_encodeLog : ∀ (log : List LogRecord) (fuel : Nat) (txs : Finset UInt64)
    (entries : List (UInt64 × Bytes)), log.length < fuel →
    replayLoop fuel (encodeLog log) txs entries = .ok (entries ++ replayed txs log)
  | _, 0, _, _, h => by omega
  | [], fuel + 1, _, entries, _ => by simp [encodeLog, replayLoop, replayed]
  | .write tx page data :: log, fuel + 1, txs, entries, h => by
    have henc : encodeLog (.write tx page data :: log) = 1 :: (leBytes 8 tx.toNat ++ (leBytes 8 page.toNat ++
        (leBytes 4 data.1.length ++ (data.1 ++ encodeLog log)))) := by
      simp [encodeLog, LogRecord.encode]
    have hlen : ofLe (leBytes 4 data.1.length) = data.1.length := ofLe_leBytes_of_lt data.2
    rw [henc, replayLoop, if_pos rfl]
    simp only [readU64_append, readExact_append _ _ (length_leBytes 4 data.1.length),
      readExact_append data.1 (encodeLog log) rfl, hlen, bind, Except.bind]
    rw [replayLoop_encodeLog log fuel txs _ (by simpa using h), replayed]
    split <;> simp
  | .commit tx :: log, fuel + 1, txs, entries, h => by
    have henc : encodeLog (.commit tx :: log) = 2 :: (leBytes 8 tx.toNat ++ encodeLog log) := by
      simp [encodeLog, LogRecord.encode]
    rw [henc, replayLoop, if_neg (by decide), if_pos rfl, readU64_append]
    exact replayLoop_encodeLog log fuel (insert tx txs) entries (by simpa using h)
  | .rollback tx :: log, fuel + 1, txs, entries, h => by
    have henc : encodeLog (.rollback tx :: log) = 3 :: (leBytes 8 tx.toNat ++ encodeLog log) := by
      simp [encodeLog, LogRecord.encode]
    rw [henc, replayLoop, if_neg (by decide), if_neg (by decide), if_pos rfl, readU64_append]
    exact replayLoop_encodeLog log fuel (txs.erase tx) entries (by simpa using h)

theorem length_le_encodeLog : ∀ log : List LogRecord, log.length ≤ (encodeLog log).length
  | [] => Nat.le_refl 0
  | r :: log => by
    have ih := length_le_encodeLog log
    have hr : 1 ≤ r.encode.length := by cases r <;> simp [LogRecord.encode]
    rw [encodeLog, List.flatMap_cons, List.length_append, List.length_cons]
    rw [encodeLog] at ih
    omega

theorem replay_encodeLog (log : List LogRecord) : replay (encodeLog log) = .ok (replayed ∅ log) := by
  rw [replay, replayLoop_encodeLog log _ ∅ [] (Nat.lt_succ_of_le (length_le_encodeLog log)), List.nil_append]

theorem replayed_append : ∀ (txs : Finset UInt64) (log log' : List LogRecord),
    replayed txs (log ++ log') = replayed txs log ++ replayed (committedTxs txs log) log'
  | _, [], _ => rfl
  | txs, .write tx page data :: log, log' => by
    rw [List.cons_append, replayed, replayed_append txs log log', replayed, List.append_assoc]
    rfl
  | txs, .commit tx :: log, log' => replayed_append (insert tx txs) log log'
  | txs, .rollback tx :: log, log' => replayed_append (txs.erase tx) log log'

/-- **Run.** From a point of the log on, `replay` takes what should be taken. -/
theorem replayed_of_timely {log : List LogRecord} (ht : Timely log) : ∀ (rest pre : List LogRecord),
    log = pre ++ rest → replayed (committedTxs ∅ pre) rest = rest.filterMap (committedWrite log)
  | [], _, _ => rfl
  | r :: rest, pre, hlog => by
    have ih := replayed_of_timely ht rest (pre ++ [r]) (by simp [hlog])
    rw [committedTxs_append] at ih
    cases r with
    | write tx page data =>
      have htx : tx ∈ committedTxs ∅ pre ↔ Committed log tx :=
        mem_committedTxs_empty.trans (ht pre tx page data rest hlog)
      have ih : replayed (committedTxs ∅ pre) rest = rest.filterMap (committedWrite log) := ih
      rw [replayed, ih]
      by_cases hc : Committed log tx
      · have hw := committedWrite_write log tx page data
        rw [if_pos hc] at hw
        rw [if_pos (htx.2 hc), List.filterMap_cons_some hw]
        rfl
      · have hw := committedWrite_write log tx page data
        rw [if_neg hc] at hw
        rw [if_neg (fun h => hc (htx.1 h)), List.filterMap_cons_none hw]
        rfl
    | commit tx => exact ih
    | rollback tx => exact ih

theorem mem_writes_of_replayed {x : UInt64 × Bytes} : ∀ {log : List LogRecord} {txs : Finset UInt64},
    x ∈ replayed txs log → x ∈ writes log
  | [], _, h => by cases h
  | .write tx page data :: log, txs, h => by
    rw [replayed, List.mem_append] at h
    have hw : writes (.write tx page data :: log) = (page, data.1) :: writes log := rfl
    rw [hw]
    rcases h with h | h
    · split at h
      · exact List.mem_cons.2 (.inl (List.mem_singleton.1 h))
      · cases h
    · exact List.mem_cons_of_mem _ (mem_writes_of_replayed h)
  | .commit tx :: log, txs, h => by
    rw [replayed] at h
    have hw : writes (.commit tx :: log) = writes log := rfl
    rw [hw]
    exact mem_writes_of_replayed h
  | .rollback tx :: log, txs, h => by
    rw [replayed] at h
    have hw : writes (.rollback tx :: log) = writes log := rfl
    rw [hw]
    exact mem_writes_of_replayed h

theorem mem_writes_of_committed {log rest : List LogRecord} {x : UInt64 × Bytes}
    (h : x ∈ rest.filterMap (committedWrite log)) : x ∈ writes rest := by
  obtain ⟨r, hr, hx⟩ := List.mem_filterMap.1 h
  refine List.mem_filterMap.2 ⟨r, hr, ?_⟩
  cases r with
  | write tx page data =>
    rw [committedWrite_write] at hx
    split at hx
    · exact hx
    · cases hx
  | commit tx => cases hx
  | rollback tx => cases hx

/-- With no two writes alike, what `replay` takes tells which writes it took. -/
theorem timely_of_replayed {log : List LogRecord} (hnd : (writes log).Nodup)
    (h : replayed ∅ log = committedWrites log) : Timely log := by
  intro pre tx page data post hlog
  have hw : writes log = writes pre ++ (page, data.1) :: writes post := by
    rw [hlog, writes, List.filterMap_append]
    rfl
  rw [hw, List.nodup_append] at hnd
  obtain ⟨-, hpost, hpre⟩ := hnd
  have hnpre : (page, data.1) ∉ writes pre := fun hm => hpre _ hm _ List.mem_cons_self rfl
  have hnpost : (page, data.1) ∉ writes post := (List.nodup_cons.1 hpost).1
  -- the pair is taken only at this write, by `replay` and by what should be replayed
  have hleft : (page, data.1) ∈ replayed ∅ log ↔ Committed pre tx := by
    rw [hlog, replayed_append, replayed, List.mem_append, List.mem_append,
      or_iff_right (fun hm => hnpre (mem_writes_of_replayed hm)),
      or_iff_left (fun hm => hnpost (mem_writes_of_replayed hm)), ← mem_committedTxs_empty]
    split <;> simp_all
  have hright : (page, data.1) ∈ committedWrites log ↔ Committed log tx := by
    have hsplit : committedWrites log = pre.filterMap (committedWrite log) ++
        ((committedWrite log (.write tx page data)).toList ++ post.filterMap (committedWrite log)) := by
      rw [committedWrites]
      conv_lhs => rw [hlog]
      rw [List.filterMap_append, ← hlog]
      cases hc : committedWrite log (.write tx page data) with
      | none => rw [List.filterMap_cons_none hc]; rfl
      | some x => rw [List.filterMap_cons_some hc]; rfl
    rw [hsplit, List.mem_append, List.mem_append,
      or_iff_right (fun hm => hnpre (mem_writes_of_committed hm)),
      or_iff_left (fun hm => hnpost (mem_writes_of_committed hm)), committedWrite]
    split <;> simp_all
  rw [← hleft, h, hright]

/-- **What `replay` returns.** Exactly the committed writes when every transaction is settled before its
    writes; and only then, unless two writes of the log are alike, so that one can stand for the other. -/
theorem replay_iff_timely (log : List LogRecord) :
    (Timely log → replay (encodeLog log) = .ok (committedWrites log)) ∧
      ((writes log).Nodup → replay (encodeLog log) = .ok (committedWrites log) → Timely log) := by
  rw [replay_encodeLog]
  constructor
  · intro ht
    exact congrArg Except.ok (replayed_of_timely ht log [] rfl)
  · intro hnd h
    exact timely_of_replayed hnd (Except.ok.inj h)

/-- A transaction committed before it writes. -/
theorem replay_iff_timely_settled :
    replay (encodeLog [.commit 1, .write 1 7 ⟨[42], by decide⟩]) = .ok [(7, [42])] := by
  refine (replay_iff_timely [.commit 1, .write 1 7 ⟨[42], by decide⟩]).1 ?_
  intro pre tx page data post h
  match pre, h with
  | [], h => cases h
  | [_], h =>
    cases h
    decide
  | _ :: _ :: _, h => simp at h

/-- A write and its commit, in the order of the engine: nothing is replayed. -/
theorem committed_write_not_replayed :
    replay (encodeLog [.write 1 7 ⟨[42], by decide⟩, .commit 1]) = .ok [] ∧
      committedWrites [.write 1 7 ⟨[42], by decide⟩, .commit 1] = [(7, [42])] := by
  decide

end RedisOps.BTree
