import RedisOps.Proto.Response
import RedisOps.Store.Op

/-!
# Commands (`redisdb/src/handler.rs`)

`dispatch` lowercases the first argument, looks the command up and runs its branch. Every branch of the
source is a definition here, under the command's name; `args` is what follows the command word, so that
the source's `args[1]` is its first element and its arity tests are the shapes of the list.

A branch is a program over the store operations it awaits (`Store/Op.lean`). The clock of `METRIC RECORD`
(`SystemTime::now()`, in milliseconds) is the argument `ts`.
-/

namespace RedisOps.Handler

open Lib Store Proto

/-- What the handler does with an `f64` besides comparing scores. -/
class F64 (F : Type) extends Zset.Score F where
  /-- `str::parse::<f64>` -/
  parse : String → Option F
  /-- `{}` formatting -/
  display : F → String
  /-- `ts as f64` of a number of milliseconds -/
  ofMillis : Nat → F
  /-- `f64::to_le_bytes`, as the 64-bit pattern -/
  toBits : F → UInt64

/-- Doubles, with text limited to whole numbers. -/
instance : F64 Float where
  lt a b := decide (a < b)
  ne a b := a != b
  nearly a b := decide ((a - b).abs < Float.ofBits 0x3CB0000000000000)
  parse s := (parseI64 s).map Int64.toFloat
  display v := toString v.toInt64
  ofMillis := Float.ofNat
  toBits := Float.toBits

/-- A command, or a part of one, as a program over the store operations. -/
abbrev Cmd (F : Type) : Type → Type := Prog (Op F) Op.Ret

section
variable {F : Type}

def await (o : Op F) : Cmd F o.Ret := Prog.call o

@[simp] theorem await_def (o : Op F) : await o = .op o .ret := rfl
theorem await_bind {α : Type} (o : Op F) (f : o.Ret → Cmd F α) : (await o >>= f) = .op o f := rfl

theorem all_await {α : Type} {P : Op F → Prop} {Q : α → Prop} {o : Op F} {k : o.Ret → Cmd F α} (ho : P o)
    (hk : ∀ r, (k r).All P Q) : (await o >>= k).All P Q :=
  ⟨ho, hk⟩

/-! ## Error responses (`handler.rs:774-805`) -/

def errArg : Response := .err ERR_ARG "wrong number of arguments"
def errArgMsg (msg : String) : Response := .err ERR_ARG msg
def errType (msg : String) : Response := .err ERR_TYPE msg
def errUnknown (msg : String) : Response := .err ERR_UNKNOWN msg

/-- `match args[i].parse() { Ok(v) => v, Err(_) => return err_arg_msg(msg) }` -/
def parsed {α : Type} (arg : Option α) (msg : String) (k : α → Cmd F Response) : Cmd F Response :=
  match arg with
  | some v => k v
  | none => pure (errArgMsg msg)

theorem all_parsed {α : Type} {arg : Option α} {msg : String} {k : α → Cmd F Response} {P : Op F → Prop}
    (h : ∀ v, (k v).All P fun _ => True) : (parsed arg msg k).All P fun _ => True := by
  cases arg with
  | none => trivial
  | some v => exact h v

def flag (b : Bool) : Response := .int (if b then 1 else 0)

def strOrNil : Option String → Response
  | some v => .str v
  | none => .nil

def strs (vals : List String) : Response := .arr (vals.map .str)

/-! ## Connection commands -/

def auth : List String → Cmd F Response
  | [pw'] => do
    let config ← await .readAuth
    match config.password with
    | some pw => if pw = pw' then pure (.str "OK") else pure (errType "invalid password")
    | none => pure (.str "OK")
  | _ => pure errArg

def config : List String → Cmd F Response
  | sub :: key :: rest =>
    if toLowercase sub = "set" then
      match rest with
      | [val] =>
        if toLowercase key = "tls-cert" then do
          await (.setTlsCert val)
          pure (.str "OK")
        else if toLowercase key = "tls-key" then do
          await (.setTlsKey val)
          pure (.str "OK")
        else pure (errUnknown "unknown config key")
      | _ => pure errArg
    else if toLowercase sub = "get" then do
      let cfg ← await .readAuth
      if toLowercase key = "tls-cert" then pure (.str (cfg.tlsCert.getD ""))
      else if toLowercase key = "tls-key" then pure (.str (cfg.tlsKey.getD ""))
      else pure (errUnknown "unknown config key")
    else pure (errUnknown "unknown config command")
  | _ => pure errArg

/-! ## Keys and strings -/

def keysCmd : List String → Cmd F Response
  | [] => do
    let ks ← await .keys
    pure (strs ks)
  | _ => pure errArg

def get : List String → Cmd F Response
  | [key] => do
    let (val, wrongType) ← await (.getStr key)
    if wrongType then pure (errType "expect string type") else pure (strOrNil val)
  | _ => pure errArg

def set : List String → Cmd F Response
  | [key, val] => do
    await (.setStr key val)
    pure .nil
  | _ => pure errArg

def delCmd : List String → Cmd F Response
  | [key] => do
    let ok ← await (.del key)
    pure (flag ok)
  | _ => pure errArg

def pexpire : List String → Cmd F Response
  | [key, ms] => parsed (parseI64 ms) "expect int64" fun ms => do
    let ok ← await (.expire key ms)
    pure (flag ok)
  | _ => pure errArg

def pttl : List String → Cmd F Response
  | [key] => do
    let ttl ← await (.ttlMs key)
    pure (.int ttl)
  | _ => pure errArg

/-! ## Sorted sets -/

section ZSet
variable [F64 F]

def zadd : List String → Cmd F Response
  | [key, score, name] => parsed (F64.parse score) "expect fp number" fun score => do
    let (added, wrongType) ← await (.zAdd key name score)
    if wrongType then pure (errType "expect zset") else pure (flag added)
  | _ => pure errArg

def zrem : List String → Cmd F Response
  | [key, name] => do
    let (removed, wrongType) ← await (.zRem key name)
    if wrongType then pure (errType "expect zset") else pure (flag removed)
  | _ => pure errArg

def zscore : List String → Cmd F Response
  | [key, name] => do
    let (score, wrongType) ← await (.zScore key name)
    if wrongType then pure (errType "expect zset") else
    match score with
    | some v => pure (.dbl (F64.toBits v))
    | none => pure .nil
  | _ => pure errArg

/-- The name and the score of each entry, one after the other (`:206-209`). -/
def entryResponses (entries : List (Zset.Entry F)) : List Response :=
  entries.flatMap fun e => [.str e.name, .dbl (F64.toBits e.score)]

def zquery : List String → Cmd F Response
  | [key, score, minName, offset, limit] =>
    parsed (F64.parse score) "expect fp number" fun score =>
    parsed (parseI64 offset) "expect int" fun offset =>
    parsed (parseI64 limit) "expect int" fun limit => do
      let (entries, wrongType) ← await (.zQuery key score minName offset limit)
      if wrongType then pure (errType "expect zset") else pure (.arr (entryResponses entries))
  | _ => pure errArg

end ZSet

/-! ## Lists -/

def lpushCmd : List String → Cmd F Response
  | [key, val] => do
    await (.lpush key val)
    pure (.int 1)
  | _ => pure errArg

/-- `rpush` calls `store.lpush` (`:219-225`). -/
def rpush : List String → Cmd F Response
  | [key, val] => do
    await (.lpush key val)
    pure (.int 1)
  | _ => pure errArg

def lpopCmd : List String → Cmd F Response
  | [key] => do
    let v ← await (.lpop key)
    pure (strOrNil v)
  | _ => pure errArg

def rpopCmd : List String → Cmd F Response
  | [key] => do
    let v ← await (.rpop key)
    pure (strOrNil v)
  | _ => pure errArg

def lrangeCmd : List String → Cmd F Response
  | [key, start, stop] =>
    parsed (parseI64 start) "expect int" fun start =>
    parsed (parseI64 stop) "expect int" fun stop => do
      let vals ← await (.lrange key start stop)
      pure (strs vals)
  | _ => pure errArg

def lindexCmd : List String → Cmd F Response
  | [key, idx] => parsed (parseI64 idx) "expect int" fun idx => do
    let v ← await (.lindex key idx)
    pure (strOrNil v)
  | _ => pure errArg

def llenCmd : List String → Cmd F Response
  | [key] => do
    let len ← await (.llen key)
    pure (.int len)
  | _ => pure errArg

def lremCmd : List String → Cmd F Response
  | [key, count, val] => parsed (parseI64 count) "expect int" fun count => do
    let removed ← await (.lrem key count val)
    pure (.int removed)
  | _ => pure errArg

/-! ## Bits -/

def setbit : List String → Cmd F Response
  | [key, bit] => parsed (parseU32 bit) "expect uint" fun bit => do
    await (.setBit key bit true)
    pure (.int 1)
  | _ => pure errArg

def clearbit : List String → Cmd F Response
  | [key, bit] => parsed (parseU32 bit) "expect uint" fun bit => do
    await (.setBit key bit false)
    pure (.int 1)
  | _ => pure errArg

def getbit : List String → Cmd F Response
  | [key, bit] => parsed (parseU32 bit) "expect uint" fun bit => do
    let on ← await (.getBit key bit)
    pure (flag on)
  | _ => pure errArg

def bitcountCmd : List String → Cmd F Response
  | [key] => do
    let count ← await (.bitcount key)
    pure (.int count)
  | _ => pure errArg

def bfget : List String → Cmd F Response
  | [key, offset, width] =>
    parsed (parseU32 offset) "expect uint" fun offset =>
    parsed (parseU32 width) "expect uint" fun width => do
      let val ← await (.bitfieldGet key offset width)
      pure (.int val.toInt64)
  | _ => pure errArg

/-- `Store::bitfield_set` (`store/mod.rs:513-519`): a loop of `set_bit` calls, each under its own lock.
    `n` bits are left, the next one is `width - n`. -/
def bitfieldSet (key : String) (offset : UInt32) (val : UInt64) (width : Nat) :
    Nat → Cmd F Unit
  | 0 => pure ()
  | n + 1 => do
    let i := width - (n + 1)
    await (.setBit key (offset + UInt32.ofNat i) (fieldBit val i))
    bitfieldSet key offset val width n

theorem all_bitfieldSet {P : Op F → Prop} {key : String} (hP : ∀ bit on, P (.setBit key bit on)) (offset : UInt32)
    (val : UInt64) (width : Nat) : ∀ n, (bitfieldSet key offset val width n).All P fun _ => True
  | 0 => trivial
  | n + 1 => all_await (hP _ _) fun _ => all_bitfieldSet hP offset val width n

def bfset : List String → Cmd F Response
  | [key, offset, width, val] =>
    parsed (parseU32 offset) "expect uint" fun offset =>
    parsed (parseU32 width) "expect uint" fun width =>
    parsed (parseU64 val) "expect uint" fun val => do
      bitfieldSet key offset val width.toNat width.toNat
      pure (.int 1)
  | _ => pure errArg

/-! ## Jobs -/

def queueKey : String := "devops:queue"
def resultsKey : String := "devops:results"
def jobKey (id : String) : String := "devops:job:" ++ id
def jobStatusKey (id : String) : String := "devops:job:" ++ id ++ ":status"
def jobResultKey (id : String) : String := "devops:job:" ++ id ++ ":result"
def jobLogKey (id : String) : String := "devops:job:" ++ id ++ ":log"

/-- The keys of a job, whatever its id, are neither the queue nor the list of results. -/
theorem job_keys_ne (id key : String) (h : startsWith key "devops:job:" = false) :
    jobKey id ≠ key ∧ jobStatusKey id ≠ key ∧ jobResultKey id ≠ key ∧ jobLogKey id ≠ key := by
  have hp : ∀ s, "devops:job:" ++ s ≠ key := fun s => ne_of_startsWith (startsWith_append _ s) h
  exact ⟨hp id, by simpa [jobStatusKey, String.append_assoc] using hp (id ++ ":status"),
    by simpa [jobResultKey, String.append_assoc] using hp (id ++ ":result"),
    by simpa [jobLogKey, String.append_assoc] using hp (id ++ ":log")⟩

/-- `id|name|target|command|arg1,arg2,...` (`:384-389`). -/
def jobPayload (id name target command : String) (jobArgs : List String) : String :=
  id ++ "|" ++ name ++ "|" ++ target ++ "|" ++ command ++ "|" ++ join "," jobArgs

def jobSubmit : List String → Cmd F Response
  | id :: name :: target :: command :: jobArgs => do
    let payload := jobPayload id name target command jobArgs
    await (.lpush queueKey payload)
    await (.setStr (jobKey id) payload)
    await (.setStr (jobStatusKey id) "queued")
    pure (.str id)
  | _ => pure (errArgMsg "JOB SUBMIT <id> <name> <target> <command> [args...]")

/-- `job next` takes no notice of its arguments. -/
def jobNext : Cmd F Response := do
  let payload ← await (.rpop queueKey)
  match payload with
  | some payload =>
    match splitn 5 '|' payload with
    | [id, name, target, command, jobArgs] =>
      await (.setStr (jobStatusKey id) "running")
      pure (strs [id, name, target, command, jobArgs])
    | _ => pure (errUnknown "malformed job payload")
  | none => pure .nil

def jobStatus : List String → Cmd F Response
  | [id] => do
    let (status, _) ← await (.getStr (jobStatusKey id))
    pure (strOrNil status)
  | _ => pure errArg

def jobResult : List String → Cmd F Response
  | [id, exitCode, durationMs] =>
    parsed (parseI64 exitCode) "expect int" fun exitCode =>
    parsed (parseI64 durationMs) "expect int" fun durationMs => do
      let status := if exitCode = 0 then "passed" else "failed"
      await (.setStr (jobStatusKey id) status)
      await (.setStr (jobResultKey id)
        ("exit_code=" ++ toString exitCode ++ ",duration_ms=" ++ toString durationMs))
      await (.lpush resultsKey (id ++ "|" ++ status ++ "|" ++ toString durationMs))
      pure (.str status)
  | _ => pure errArg

/-- `for v in vals { store.lpush(key, v) }` -/
def lpushEach (key : String) : List String → Cmd F Unit
  | [] => pure ()
  | v :: vals => do
    await (.lpush key v)
    lpushEach key vals

theorem all_lpushEach {P : Op F → Prop} {key : String} (hP : ∀ v, P (.lpush key v)) : ∀ vals,
    (lpushEach key vals).All P fun _ => True
  | [] => trivial
  | v :: vals => all_await (hP v) fun _ => all_lpushEach hP vals

def jobLog : List String → Cmd F Response
  | id :: line :: more => do
    let vals ← await (.lrange (jobLogKey id) 0 (-1))
    let _ ← await (.del (jobLogKey id))
    lpushEach (jobLogKey id) (vals ++ [join " " (line :: more)])
    pure (.int 1)
  | _ => pure errArg

/-- The loop of `job list` (`:495-508`). -/
def jobListLoop (statusFilter : Option String) : List String → List String →
    Cmd F (List String)
  | [], jobs => pure jobs
  | key :: ks, jobs =>
    match stripPrefix key "devops:job:" with
    | some id =>
      if endsWith id ":status" || endsWith id ":result" || endsWith id ":log" then
        jobListLoop statusFilter ks jobs
      else do
        let (status, _) ← await (.getStr (jobStatusKey id))
        match status with
        | some status =>
          if statusFilter.all (· == status) then
            jobListLoop statusFilter ks (jobs ++ [id ++ ":" ++ status])
          else jobListLoop statusFilter ks jobs
        | none => jobListLoop statusFilter ks jobs
    | none => jobListLoop statusFilter ks jobs

theorem all_jobListLoop {P : Op F → Prop} (hP : ∀ key, P (.getStr key)) (f : Option String) :
    ∀ ks jobs, (jobListLoop f ks jobs).All P fun _ => True
  | [], _ => trivial
  | key :: ks, jobs => by
    have ih := all_jobListLoop hP f ks
    unfold jobListLoop
    split
    · split
      · exact ih jobs
      · apply all_await (hP _)
        rintro ⟨_ | status, wrongType⟩
        · exact ih jobs
        · change Prog.All P _ (if _ then _ else _)
          split
          · exact ih _
          · exact ih jobs
    · exact ih jobs

def jobList (args : List String) : Cmd F Response := do
  let ks ← await .keys
  let jobs ← jobListLoop args.head? ks []
  pure (strs jobs)

/-! ## Metrics -/

def metricsKey : String := "devops:metrics"
def metricsTsKey : String := "devops:metrics:ts"

def metricRecord [F64 F] (ts : Nat) : List String → Cmd F Response
  | name :: value :: labels => parsed (F64.parse (F := F) value) "expect float" fun value => do
    let entry := toString ts ++ "|" ++ name ++ "|" ++ F64.display value ++ "|" ++ join "," labels
    await (.lpush metricsKey entry)
    let _ ← await (.zAdd metricsTsKey entry (F64.ofMillis ts))
    pure (.int 1)
  | _ => pure errArg

/-- The entries of `vals` that mention the metric (`:555-559`). -/
def metricFilter (name : String) (vals : List String) : List String :=
  vals.filter fun v => contains v ("|" ++ name ++ "|")

/-- `args[i].parse().unwrap_or(dflt)` for an optional argument. -/
def limitArg (arg : Option String) (dflt : Int64) : Int64 := (arg.bind parseI64).getD dflt

def metricQuery : List String → Cmd F Response
  | name :: more => do
    let vals ← await (.lrange metricsKey 0 (limitArg more.head? 100 - 1))
    pure (strs (metricFilter name vals))
  | _ => pure errArg

/-- Counters of `metric summary`. -/
structure JobCounts where
  passed : Nat := 0
  failed : Nat := 0
  queued : Nat := 0

def JobCounts.count (c : JobCounts) : Option String → JobCounts
  | some "passed" => { c with passed := c.passed + 1 }
  | some "failed" => { c with failed := c.failed + 1 }
  | some "queued" | some "running" => { c with queued := c.queued + 1 }
  | _ => c

/-- The loop of `metric summary` (`:577-592`). -/
def countJobs : List String → JobCounts → Cmd F JobCounts
  | [], c => pure c
  | key :: ks, c =>
    match stripPrefix key "devops:job:" with
    | some id => do
      let (status, _) ← await (.getStr (jobStatusKey id))
      countJobs ks (c.count status)
    | none => countJobs ks c

def summaryText (total totalJobs : Nat) (c : JobCounts) (queueLen : Int64) : String :=
  "metrics=" ++ toString total ++ ",jobs=" ++ toString totalJobs ++ ",passed=" ++ toString c.passed ++
    ",failed=" ++ toString c.failed ++ ",queued=" ++ toString c.queued ++ ",queue_depth=" ++
    toString queueLen

def metricSummary : Cmd F Response := do
  let vals ← await (.lrange metricsKey 0 (-1))
  let ks ← await .keys
  let jobKeys := ks.filter fun k => startsWith k "devops:job:" && !contains k ":"
  let c ← countJobs jobKeys {}
  let queueLen ← await (.llen queueKey)
  pure (.str (summaryText vals.length jobKeys.length c queueLen))

/-! ## Sandboxes -/

def sandboxKey (id : String) : String := "devops:sandbox:" ++ id
def sandboxStatusKey (id : String) : String := "devops:sandbox:" ++ id ++ ":status"
def sandboxJobKey (id : String) : String := "devops:sandbox:" ++ id ++ ":job"

theorem startsWith_sandbox_keys (id : String) {pat : String} (h : pat.toList.length ≤ "devops:sandbox:".toList.length) :
    startsWith (sandboxKey id) pat = startsWith "devops:sandbox:" pat ∧
      startsWith (sandboxStatusKey id) pat = startsWith "devops:sandbox:" pat ∧
      startsWith (sandboxJobKey id) pat = startsWith "devops:sandbox:" pat := by
  have hp : ∀ t, startsWith ("devops:sandbox:" ++ t) pat = startsWith "devops:sandbox:" pat := startsWith_append_left h
  have hstatus : sandboxStatusKey id = "devops:sandbox:" ++ (id ++ ":status") := String.append_assoc ..
  have hjob : sandboxJobKey id = "devops:sandbox:" ++ (id ++ ":job") := String.append_assoc ..
  rw [hstatus, hjob]
  exact ⟨hp id, hp _, hp _⟩

def sandboxStatus : Cmd F Response := do
  let ks ← await .keys
  pure (strs (ks.filterMap fun k => stripPrefix k "devops:sandbox:"))

def sandboxRegister : List String → Cmd F Response
  | [id, targetType, addr] => do
    await (.setStr (sandboxKey id) (targetType ++ "|" ++ addr))
    await (.setStr (sandboxStatusKey id) "idle")
    pure (.str id)
  | _ => pure errArg

def sandboxClaim : List String → Cmd F Response
  | [id, jobId] => do
    await (.setStr (sandboxStatusKey id) "busy")
    await (.setStr (sandboxJobKey id) jobId)
    pure (.int 1)
  | _ => pure errArg

def sandboxRelease : List String → Cmd F Response
  | [id] => do
    await (.setStr (sandboxStatusKey id) "idle")
    let _ ← await (.del (sandboxJobKey id))
    pure (.int 1)
  | _ => pure errArg

/-! ## Time series -/

def seriesKey (name : String) : String := "ts:" ++ name
def seriesLastKey (name : String) : String := "ts:meta:" ++ name ++ ":last"
def seriesCountKey (name : String) : String := "ts:meta:" ++ name ++ ":count"

theorem series_keys_ne (name : String) :
    seriesLastKey name ≠ seriesKey name ∧ seriesCountKey name ≠ seriesKey name := by
  have h₁ : ("ts:meta:" : String).length = 8 := rfl
  have h₂ : ("ts:" : String).length = 3 := rfl
  constructor <;> intro h <;> have hlen := congrArg String.length h <;>
    simp only [seriesKey, seriesLastKey, seriesCountKey, String.length_append, h₁, h₂] at hlen <;> omega

/-- The label map (`:677-682`), listed in an unspecified order. -/
def labelMap (labelArgs : List String) : AList (fun _ : String => String) :=
  labelArgs.foldl (fun labels arg =>
    match splitOnce arg '=' with
    | some (k, v) => labels.insert k v
    | none => labels) ∅

/-- A `HashMap` gives the labels in any order; nothing that is proved depends on which. -/
def labelText (labelArgs : List String) : String :=
  join "," ((labelMap labelArgs).entries.map fun kv => kv.1 ++ "=" ++ kv.2)

def tsAdd [F64 F] : List String → Cmd F Response
  | name :: ts :: val :: labelArgs =>
    parsed (parseU64 ts) "expect uint64 timestamp" fun ts =>
    parsed (F64.parse (F := F) val) "expect float value" fun val => do
      let entry := toString ts ++ "|" ++ name ++ "|" ++ F64.display val ++ "|" ++ labelText labelArgs
      await (.lpush (seriesKey name) entry)
      await (.setStr (seriesLastKey name) (F64.display val))
      let len ← await (.llen (seriesKey name))
      await (.setStr (seriesCountKey name) (toString len))
      pure (.int 1)
  | _ => pure (errArgMsg "TS.ADD <series> <timestamp_ms> <value> [label1=val1 ...]")

/-- The closure of `ts.range` (`:724-740`): is this stored point in range? -/
def pointInRange (start stop : UInt64) (v : String) : Bool :=
  match splitn 4 '|' v with
  | p0 :: _ :: _ :: _ =>
    match parseU64 p0 with
    | some ts => start ≤ ts && ts ≤ stop
    | none => false
  | _ => false

def tsRange : List String → Cmd F Response
  | name :: start :: stop :: more =>
    parsed (parseU64 start) "expect uint64 timestamp" fun start =>
    parsed (parseU64 stop) "expect uint64 timestamp" fun stop => do
      let vals ← await (.lrange (seriesKey name) 0 (limitArg more.head? 1000 - 1))
      pure (strs (vals.filter (pointInRange start stop)))
  | _ => pure (errArgMsg "TS.RANGE <series> <start_ms> <end_ms> [limit]")

def tsInfo : List String → Cmd F Response
  | [name] => do
    let count ← await (.llen (seriesKey name))
    let (last, _) ← await (.getStr (seriesLastKey name))
    pure (.str ("name=" ++ name ++ ",points=" ++ toString count ++ ",last_value=" ++ last.getD ""))
  | _ => pure errArg

def tsList : Cmd F Response := do
  let ks ← await .keys
  let series := ks.filter fun k => startsWith k "ts:" && !startsWith k "ts:meta:"
  pure (strs (series.map fun k => String.ofList (k.toList.drop 3)))

end

/-! ## The command table -/

inductive Word where
  | auth | config
  | keys | get | set | del | pexpire | pttl
  | zadd | zrem | zscore | zquery
  | lpush | rpush | lpop | rpop | lrange | lindex | llen | lrem
  | setbit | clearbit | getbit | bitcount | bfget | bfset
  | jobSubmit | jobNext | jobStatus | jobResult | jobLog | jobList
  | metricRecord | metricQuery | metricSummary
  | sandboxStatus | sandboxRegister | sandboxClaim | sandboxRelease
  | tsAdd | tsRange | tsInfo | tsList
  deriving DecidableEq, Repr

/-- The `match cmd.as_str()` of `dispatch`. -/
def Word.ofString : String → Option Word
  | "auth" => some .auth | "config" => some .config
  | "keys" => some .keys | "get" => some .get | "set" => some .set | "del" => some .del
  | "pexpire" => some .pexpire | "pttl" => some .pttl
  | "zadd" => some .zadd | "zrem" => some .zrem | "zscore" => some .zscore | "zquery" => some .zquery
  | "lpush" => some .lpush | "rpush" => some .rpush | "lpop" => some .lpop | "rpop" => some .rpop
  | "lrange" => some .lrange | "lindex" => some .lindex | "llen" => some .llen | "lrem" => some .lrem
  | "setbit" => some .setbit | "clearbit" => some .clearbit | "getbit" => some .getbit
  | "bitcount" => some .bitcount | "bfget" => some .bfget | "bfset" => some .bfset
  | "job submit" => some .jobSubmit | "job next" => some .jobNext | "job status" => some .jobStatus
  | "job result" => some .jobResult | "job log" => some .jobLog | "job list" => some .jobList
  | "metric record" => some .metricRecord | "metric query" => some .metricQuery
  | "metric summary" => some .metricSummary
  | "sandbox status" => some .sandboxStatus | "sandbox register" => some .sandboxRegister
  | "sandbox claim" => some .sandboxClaim | "sandbox release" => some .sandboxRelease
  | "ts.add" => some .tsAdd | "ts.range" => some .tsRange | "ts.info" => some .tsInfo
  | "ts.list" => some .tsList
  | _ => none

variable {F : Type} [F64 F]

/-- The branch of a command. -/
def handle (ts : Nat) (args : List String) : Word → Cmd F Response
  | .auth => auth args | .config => config args
  | .keys => keysCmd args | .get => get args | .set => set args | .del => delCmd args
  | .pexpire => pexpire args | .pttl => pttl args
  | .zadd => zadd args | .zrem => zrem args | .zscore => zscore args | .zquery => zquery args
  | .lpush => lpushCmd args | .rpush => rpush args | .lpop => lpopCmd args | .rpop => rpopCmd args
  | .lrange => lrangeCmd args | .lindex => lindexCmd args | .llen => llenCmd args
  | .lrem => lremCmd args
  | .setbit => setbit args | .clearbit => clearbit args | .getbit => getbit args
  | .bitcount => bitcountCmd args | .bfget => bfget args | .bfset => bfset args
  | .jobSubmit => jobSubmit args | .jobNext => jobNext | .jobStatus => jobStatus args
  | .jobResult => jobResult args | .jobLog => jobLog args | .jobList => jobList args
  | .metricRecord => metricRecord ts args | .metricQuery => metricQuery args
  | .metricSummary => metricSummary
  | .sandboxStatus => sandboxStatus | .sandboxRegister => sandboxRegister args
  | .sandboxClaim => sandboxClaim args | .sandboxRelease => sandboxRelease args
  | .tsAdd => tsAdd args | .tsRange => tsRange args | .tsInfo => tsInfo args | .tsList => tsList

/-- `dispatch` up to the encoding of the response. -/
def respond (ts : Nat) : List String → Cmd F Response
  | [] => pure (errUnknown "empty command")
  | word :: args =>
    match Word.ofString (toLowercase word) with
    | some w => handle ts args w
    | none => pure (errUnknown "unknown command")

/-- `dispatch` (`handler.rs:28-772`). -/
def dispatch (ts : Nat) (args : List String) : Cmd F Bytes :=
  Response.encode <$> respond ts args

/-- A command run on its own, at time `now`: the bytes it answers (`none` if it panics) and the state it
    leaves. -/
def runDispatch (now ts : Nat) (args : List String) (w : World F) : Option Bytes × World F :=
  (dispatch ts args).run (exec now) w

end RedisOps.Handler
