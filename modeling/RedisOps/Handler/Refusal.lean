import RedisOps.Handler.Atomic
import RedisOps.Handler.Session

/-!
# Which commands are refused

`wellFormed` is the number and the shape of the arguments each branch of `dispatch` asks for. A command whose
arguments do not have it is refused before it touches the store (`refused_of_malformed`). One whose arguments do
makes no error any more (`noErr_of_wellFormed`), but for the five that report a value of the wrong type, and
`job next`.

Nothing else refuses a command: not the password, which `dispatch` reads for `auth` alone, and not the type of the
value a list or a bit command finds.
-/

namespace RedisOps.Handler

open Lib Store Proto

variable {F : Type}

/-- The argument at this place can be read as what it should be. -/
def readable {α : Type} (parse : String → Option α) (args : List String) (i : Nat) : Bool :=
  (args[i]?.bind parse).isSome

/-- The arguments pass the checks of the command. -/
def wellFormed (F : Type) [F64 F] (args : List String) : Word → Bool
  | .keys => args.length == 0
  | .auth | .get | .del | .pttl | .lpop | .rpop | .llen | .bitcount | .jobStatus | .sandboxRelease | .tsInfo =>
    args.length == 1
  | .set | .zrem | .zscore | .lpush | .rpush | .sandboxClaim => args.length == 2
  | .sandboxRegister => args.length == 3
  | .config | .jobLog => 2 ≤ args.length
  | .jobSubmit => 4 ≤ args.length
  | .metricQuery => 1 ≤ args.length
  | .pexpire | .lindex => args.length == 2 && readable parseI64 args 1
  | .setbit | .clearbit | .getbit => args.length == 2 && readable parseU32 args 1
  | .zadd => args.length == 3 && readable (F64.parse (F := F)) args 1
  | .lrem => args.length == 3 && readable parseI64 args 1
  | .lrange | .jobResult => args.length == 3 && readable parseI64 args 1 && readable parseI64 args 2
  | .bfget => args.length == 3 && readable parseU32 args 1 && readable parseU32 args 2
  | .bfset => args.length == 4 && readable parseU32 args 1 && readable parseU32 args 2 && readable parseU64 args 3
  | .zquery => args.length == 5 && readable (F64.parse (F := F)) args 1 && readable parseI64 args 3 &&
    readable parseI64 args 4
  | .metricRecord => 2 ≤ args.length && readable (F64.parse (F := F)) args 1
  | .tsAdd => 3 ≤ args.length && readable parseU64 args 1 && readable (F64.parse (F := F)) args 2
  | .tsRange => 3 ≤ args.length && readable parseU64 args 1 && readable parseU64 args 2
  | .jobNext | .jobList | .metricSummary | .sandboxStatus | .tsList => true

theorem parsed_refused {α : Type} {arg : Option α} {msg : String} {k : α → Cmd F Response}
    (h : ∀ v, arg = some v → ∃ msg, k v = .ret (.err ERR_ARG msg)) :
    ∃ msg', parsed arg msg k = .ret (.err ERR_ARG msg') := by
  cases arg with
  | none => exact ⟨msg, rfl⟩
  | some v => exact h v rfl

section
variable [F64 F]

/-- **Malformed arguments** are refused at once. -/
theorem refused_of_malformed (ts : Nat) {args : List String} {word : Word} (h : wellFormed F args word = false) :
    ∃ msg, (handle ts args word : Cmd F Response) = .ret (.err ERR_ARG msg) := by
  cases word
  case jobNext | jobList | metricSummary | sandboxStatus | tsList => cases h
  all_goals
    simp only [handle, auth, config, get, zscore, zquery, zadd, zrem, keysCmd, set, delCmd, pexpire, pttl, lpushCmd,
      rpush, lpopCmd, rpopCmd, lrangeCmd, lindexCmd, llenCmd, lremCmd, setbit, clearbit, getbit, bitcountCmd, bfget,
      bfset, jobSubmit, jobStatus, jobResult, jobLog, metricRecord, metricQuery, sandboxRegister, sandboxClaim,
      sandboxRelease, tsAdd, tsRange, tsInfo]
    split
    · -- the number of arguments is right: a number among them is not
      repeat refine parsed_refused fun v hv => ?_
      simp_all [wellFormed, readable]
    · exact ⟨_, rfl⟩

omit [F64 F] in
theorem noErr_parsed {α : Type} {arg : Option α} {msg : String} {k : α → Cmd F Response} (harg : arg.isSome = true)
    (h : ∀ v, NoErr (k v)) : NoErr (parsed arg msg k) := by
  obtain ⟨v, rfl⟩ := Option.isSome_iff_exists.1 harg
  exact h v

/-- The commands that may still find something wrong. -/
def mayReport : Word → Bool
  | .auth | .config | .get | .zadd | .zrem | .zscore | .zquery | .jobNext => true
  | _ => false

/-- **Well-formed arguments** are enough for the others. -/
theorem noErr_of_wellFormed (ts : Nat) {args : List String} {word : Word} (h : wellFormed F args word = true)
    (hw : mayReport word = false) : NoErr (handle ts args word : Cmd F Response) := by
  cases word
  case auth | config | get | zadd | zrem | zscore | zquery | jobNext => cases hw
  case jobList | metricSummary | sandboxStatus | tsList =>
    simp only [handle, jobList, metricSummary, sandboxStatus, tsList]
    repeat refine noErr_bind fun _ => ?_
    rfl
  all_goals
    simp only [handle, keysCmd, set, delCmd, pexpire, pttl, lpushCmd, rpush, lpopCmd, rpopCmd, lrangeCmd, lindexCmd,
      llenCmd, lremCmd, setbit, clearbit, getbit, bitcountCmd, bfget, bfset, jobSubmit, jobStatus, jobResult, jobLog,
      metricRecord, metricQuery, sandboxRegister, sandboxClaim, sandboxRelease, tsAdd, tsRange, tsInfo]
    split
    · simp only [wellFormed, readable, List.getElem?_cons_succ, List.getElem?_cons_zero, Option.bind_some,
        Bool.and_eq_true] at h
      repeat refine noErr_parsed (by simp_all) fun _ => ?_
      repeat refine noErr_bind fun _ => ?_
      first | rfl | exact isErr_strOrNil _
    · -- the number of arguments would be wrong
      rename_i hne
      rcases args with _ | ⟨a, _ | ⟨b, _ | ⟨c, _ | ⟨d, _ | ⟨e, _⟩⟩⟩⟩⟩
      all_goals first
        | exact absurd rfl hne
        | exact absurd rfl (hne _)
        | exact absurd rfl (hne _ _)
        | exact absurd rfl (hne _ _ _)
        | exact absurd rfl (hne _ _ _ _)
        | exact absurd rfl (hne _ _ _ _ _)
        | exact absurd h (by simp [wellFormed])

/-! ## Values of the wrong type -/

omit [F64 F] in
def Value.isText : Value F → Bool
  | .str _ | .bytes _ => true
  | _ => false

omit [F64 F] in
def Value.isZSet : Value F → Bool
  | .zset _ => true
  | _ => false

omit [F64 F] in
/-- The command reports the type of the value at its key. -/
def wrongType (now : Nat) (s : Data F) (args : List String) : Word → Bool
  | .get => (args.head?.bind fun key => s.lookup key).any fun e => !e.expired now && !Value.isText e.typ
  | .zadd | .zrem | .zscore | .zquery => (args.head?.bind fun key => s.lookup key).any fun e => !Value.isZSet e.typ
  | _ => false

/-- What the commands do that look at the type. -/
theorem run_reporting (now ts : Nat) (w : World F) {args : List String} {word : Word}
    (h : wellFormed F args word = true) (hw : word ∈ [Word.get, .zadd, .zrem, .zscore, .zquery]) :
    (wrongType now w.store args word = true →
      ∃ msg, (handle ts args word).run (exec now) w = (some (.err ERR_TYPE msg), w)) ∧
    (wrongType now w.store args word = false →
      ∃ r, ((handle ts args word).run (exec now) w).1 = some r ∧ r.isErr = false) := by
  simp only [List.mem_cons, List.not_mem_nil, or_false] at hw
  rcases hw with rfl | rfl | rfl | rfl | rfl
  · -- `get`
    obtain ⟨key, rfl⟩ := List.length_eq_one_iff.1 (by simpa [wellFormed] using h)
    rcases hl : w.store.lookup key with _ | ⟨typ, expAt⟩
    · simp [wrongType, hl, handle, get, Prog.run, exec, getStr, isErr_strOrNil]
    · by_cases he : Entry.expired now ⟨typ, expAt⟩ = true
      · simp [wrongType, hl, he, handle, get, Prog.run, exec, getStr, isErr_strOrNil]
      · cases typ <;>
          simp [wrongType, hl, he, handle, get, Prog.run, exec, getStr, isErr_strOrNil, Value.isText, errType]
  · -- `zadd`
    obtain ⟨key, score, name, rfl⟩ := List.length_eq_three.1 (by simp [wellFormed] at h; exact h.1)
    obtain ⟨v, hv⟩ := Option.isSome_iff_exists.1 (by simpa [wellFormed, readable] using h)
    rcases hl : w.store.lookup key with _ | ⟨typ, expAt⟩
    · simp [wrongType, hl, handle, zadd, hv, parsed, Prog.run, exec, zAdd, flag, Response.isErr]
    · cases typ <;> simp [wrongType, hl, handle, zadd, hv, parsed, Prog.run, exec, zAdd, flag, Response.isErr,
        Value.isZSet, errType]
  · -- `zrem`
    obtain ⟨key, name, rfl⟩ := List.length_eq_two.1 (by simpa [wellFormed] using h)
    rcases hl : w.store.lookup key with _ | ⟨typ, expAt⟩
    · simp [wrongType, hl, handle, zrem, Prog.run, exec, zRem, flag, Response.isErr]
    · cases typ <;> simp [wrongType, hl, handle, zrem, Prog.run, exec, zRem, flag, Response.isErr, Value.isZSet, errType]
  · -- `zscore`
    obtain ⟨key, name, rfl⟩ := List.length_eq_two.1 (by simpa [wellFormed] using h)
    rcases hl : w.store.lookup key with _ | ⟨typ, expAt⟩
    · simp [wrongType, hl, handle, zscore, Prog.run, exec, zScore, Response.isErr]
    · cases typ with
      | zset z =>
        cases hz : z.score name <;>
          simp [wrongType, hl, hz, handle, zscore, Prog.run, exec, zScore, Response.isErr, Value.isZSet]
      | _ => simp [wrongType, hl, handle, zscore, Prog.run, exec, zScore, Value.isZSet, errType]
  · -- `zquery`
    obtain ⟨key, score, minName, offset, limit, rfl⟩ : ∃ key score minName offset limit,
        args = [key, score, minName, offset, limit] := by
      rcases args with _ | ⟨key, _ | ⟨score, _ | ⟨minName, _ | ⟨offset, _ | ⟨limit, _ | _⟩⟩⟩⟩⟩ <;>
        simp [wellFormed] at h ⊢
    simp only [wellFormed, readable, Bool.and_eq_true, List.getElem?_cons_succ, List.getElem?_cons_zero,
      Option.bind_some, Option.isSome_iff_exists] at h
    obtain ⟨⟨⟨-, v, hv⟩, o, ho⟩, l, hl'⟩ := h
    rcases hl : w.store.lookup key with _ | ⟨typ, expAt⟩
    · simp [wrongType, hl, handle, zquery, hv, ho, hl', parsed, Prog.run, exec, zQuery, Response.isErr]
    · cases typ <;> simp [wrongType, hl, handle, zquery, hv, ho, hl', parsed, Prog.run, exec, zQuery, Response.isErr,
        Value.isZSet, errType]

/-! ## Refusals -/

/-- The command is unknown, its arguments are malformed, or it reports a value of the wrong type. -/
def Refused (now : Nat) (s : Data F) (q : Request) : Prop :=
  ∀ word, q.word = some word → wellFormed F q.args.tail word = false ∨ wrongType now s q.args.tail word = true

/-- The answer is an error and the store is as it was. -/
def Gated (now : Nat) (q : Request) (w : World F) : Prop :=
  (∃ code msg, (serve now q w).1 = some (.err code msg)) ∧ (serve now q w).2.store = w.store

theorem serve_unknown {q : Request} (hq : q.word = none) (now : Nat) (w : World F) :
    ∃ msg, serve now q w = (some (.err ERR_UNKNOWN msg), w) := by
  obtain ⟨ts, args⟩ := q
  cases args with
  | nil => exact ⟨_, rfl⟩
  | cons word args =>
    have hword : Word.ofString (toLowercase word) = none := by simpa [Request.word] using hq
    refine ⟨"unknown command", ?_⟩
    simp [serve, respond, hword, errUnknown]

/-- `job next` is never refused: an error of it comes with a payload lost. -/
theorem not_gated_jobNext (now : Nat) (w : World F) :
    ¬((∃ code msg, (jobNext.run (exec now) w).1 = some (.err code msg)) ∧ (jobNext.run (exec now) w).2.store = w.store) := by
  rintro ⟨⟨code, msg, hmsg⟩, hstore⟩
  by_cases hp : ∀ payload, nextPayload w.store = some payload → 4 ≤ payload.toList.count '|'
  · exact absurd (run_jobNext_noErr now hp hmsg) (by simp [Response.isErr])
  · push Not at hp
    obtain ⟨payload, hn, hcount⟩ := hp
    obtain ⟨w', hne, hrun⟩ := run_jobNext_malformed now hn hcount
    rw [hrun] at hstore
    exact hne hstore

/-- **When a command is refused.** -/
theorem gated_iff (now : Nat) {q : Request} (hauth : q.word ≠ some .auth) (hconfig : q.word ≠ some .config)
    (w : World F) : Gated now q w ↔ Refused now w.store q := by
  cases hq : q.word with
  | none =>
    obtain ⟨msg, hmsg⟩ := serve_unknown hq now w
    simp [Gated, Refused, hmsg, hq]
  | some word =>
    have hrefused : Refused now w.store q ↔
        wellFormed F q.args.tail word = false ∨ wrongType now w.store q.args.tail word = true := by
      simp [Refused, hq]
    rw [hrefused, Gated, serve_of_word hq]
    cases hwf : wellFormed F q.args.tail word with
    | false =>
      obtain ⟨msg, hmsg⟩ := refused_of_malformed (F := F) q.ts hwf
      simp [hmsg]
    | true =>
      by_cases hrep : word ∈ [Word.get, .zadd, .zrem, .zscore, .zquery]
      · obtain ⟨hwrong, hright⟩ := run_reporting now q.ts w hwf hrep
        cases hwt : wrongType now w.store q.args.tail word with
        | true =>
          obtain ⟨msg, hmsg⟩ := hwrong hwt
          simp [hmsg]
        | false =>
          obtain ⟨r, hr, hok⟩ := hright hwt
          simp only [hr, Option.some.injEq, Bool.true_eq_false, Bool.false_eq_true, or_self, iff_false]
          rintro ⟨⟨code, msg, rfl⟩, -⟩
          cases hok
      · have hwt : wrongType now w.store q.args.tail word = false := by
          cases word <;> first | rfl | exact absurd (by decide) hrep
        simp only [hwt, Bool.true_eq_false, Bool.false_eq_true, or_self, iff_false]
        by_cases hnext : word = .jobNext
        · subst hnext
          exact not_gated_jobNext now w
        · have hmay : mayReport word = false := by
            cases word <;> simp_all [mayReport]
          rintro ⟨⟨code, msg, hmsg⟩, -⟩
          have hno := (Prog.run_inv (I := fun _ => True) (by simp) (noErr_of_wellFormed q.ts hwf hmay) (s := w)
            trivial).2 _ hmsg
          cases hno

/-- **Who is refused on a connection.** In every session the commands but `auth` and `config` are answered with an
    error and leave the store alone exactly when each of them is unknown, malformed or reports a wrong type: the
    password, and whether it was given, play no part. -/
theorem session_gated_iff (w₀ : World F) (cmds : List (Nat × Request)) :
    (∀ pre now q post, cmds = pre ++ (now, q) :: post → q.word ≠ some .auth → q.word ≠ some .config →
        Gated now q (serveAll pre w₀).2) ↔
      ∀ pre now q post, cmds = pre ++ (now, q) :: post → q.word ≠ some .auth → q.word ≠ some .config →
        Refused now (serveAll pre w₀).2.store q := by
  constructor
  · intro h pre now q post hcmds hauth hconfig
    exact (gated_iff now hauth hconfig _).1 (h pre now q post hcmds hauth hconfig)
  · intro h pre now q post hcmds hauth hconfig
    exact (gated_iff now hauth hconfig _).2 (h pre now q post hcmds hauth hconfig)

end

/-- **No password is asked for.** A client that never sends `AUTH` writes and reads. -/
theorem session_without_auth :
    let w₀ : World Float := ⟨∅, { password := some "secret" }⟩
    let set : Request := ⟨0, ["SET", "k", "v"]⟩
    let get : Request := ⟨0, ["GET", "k"]⟩
    w₀.auth.password = some "secret" ∧
      (serveAll [(0, set), (0, get)] w₀).1 = [(set, some .nil), (get, some (.str "v"))] := by
  intro w₀ set get
  have hs : set.word = some .set := by decide
  have hg : get.word = some .get := by decide
  refine ⟨rfl, ?_⟩
  simp only [serveAll, serve_of_word hs, serve_of_word hg]
  rfl

/-! ## Typed commands on a value of another type -/

section
variable [F64 F]

omit [F64 F] in
def Value.isList : Value F → Bool
  | .list _ => true
  | _ => false

omit [F64 F] in
/-- The command is for values of another type. -/
def mismatched (v : Value F) : Word → Bool
  | .get | .setbit | .clearbit | .getbit | .bitcount | .bfget | .bfset => !Value.isText v
  | .zadd | .zrem | .zscore | .zquery => !Value.isZSet v
  | .lpush | .rpush | .lpop | .rpop | .lrange | .lindex | .llen | .lrem => !Value.isList v
  | _ => false

omit [F64 F] in
/-- The operation finds nothing to change in a value of this type at this key. -/
def InertOn (key : String) (v : Value F) : Op F → Prop
  | .lpush k _ | .rpop k | .lpop k | .lrem k _ _ => k = key ∧ Value.isList v = false
  | .setBit k _ _ => k = key ∧ Value.isText v = false
  | o => writeKey o = none

theorem exec_inert {key : String} {e : Store.Entry F} {o : Op F} {now : Nat} {w w' : World F} {r : o.Ret}
    (ho : InertOn key e.typ o) (hl : w.store.lookup key = some e) (hx : exec now o w = some (r, w')) :
    w'.store = w.store := by
  obtain ⟨typ, expAt⟩ := e
  cases o
  case lpush | rpop | lpop | lrem =>
    obtain ⟨rfl, hv⟩ := ho
    cases hx
    cases typ <;> simp_all [lpush, rpop, lpop, lrem, Value.isList]
  case setBit =>
    obtain ⟨rfl, hv⟩ := ho
    cases hx
    cases typ <;> simp_all [setBit, Value.isText]
  all_goals first
    | exact exec_unchanged hx rfl
    | cases ho

/-- A list or a bit command on a value of another type changes nothing. -/
theorem all_inert (ts : Nat) {key : String} {rest : List String} {v : Value F} {word : Word}
    (hm : mismatched v word = true) (hw : mayReport word = false) :
    (handle ts (key :: rest) word : Cmd F Response).All (InertOn key v) fun _ => True := by
  cases word
  case auth | config | get | zadd | zrem | zscore | zquery | jobNext => cases hw
  case bfset =>
    simp only [handle, bfset]
    split
    · rename_i k offset width val heq
      obtain ⟨rfl, -⟩ := List.cons.inj heq
      repeat refine all_parsed fun _ => ?_
      refine (Prog.all_bind _ _).2 ((all_bitfieldSet (fun bit on => ?_) _ _ _ _).mono (fun _ h => h) fun _ _ => trivial)
      exact ⟨rfl, by simpa [mismatched] using hm⟩
    · trivial
  case lpush | rpush | lpop | rpop | lrange | lindex | llen | lrem | setbit | clearbit | getbit | bitcount | bfget =>
    simp only [handle, lpushCmd, rpush, lpopCmd, rpopCmd, lrangeCmd, lindexCmd, llenCmd, lremCmd, setbit, clearbit,
      getbit, bitcountCmd, bfget]
    split
    · repeat refine all_parsed fun _ => ?_
      refine all_await ?_ fun _ => trivial
      simp_all [InertOn, mismatched, writeKey]
    · trivial
  all_goals cases hm

/-- **A wrong type is reported by five commands, and harmless to all.** -/
theorem wrong_type_iff (now : Nat) {q : Request} {word : Word} {key : String} {rest : List String}
    {e : Store.Entry F} {w : World F} (hq : q.word = some word) (hargs : q.args.tail = key :: rest)
    (hl : w.store.lookup key = some e) (he : e.expired now = false) (hm : mismatched e.typ word = true) :
    (serve now q w).2.store = w.store ∧
      (((∃ msg, (serve now q w).1 = some (.err ERR_TYPE msg)) ∧ (serve now q w).2.store = w.store) ↔
        wellFormed F q.args.tail word = true ∧ word ∈ [Word.get, .zadd, .zrem, .zscore, .zquery]) := by
  rw [serve_of_word hq]
  cases hwf : wellFormed F q.args.tail word with
  | false =>
    obtain ⟨msg, hmsg⟩ := refused_of_malformed (F := F) q.ts hwf
    simp [hmsg, ERR_TYPE, ERR_ARG]
  | true =>
    by_cases hrep : word ∈ [Word.get, .zadd, .zrem, .zscore, .zquery]
    · have hwt : wrongType now w.store q.args.tail word = true := by
        rw [hargs]
        simp only [List.mem_cons, List.not_mem_nil, or_false] at hrep
        rcases hrep with rfl | rfl | rfl | rfl | rfl <;> simpa [wrongType, hl, he, mismatched] using hm
      obtain ⟨msg, hmsg⟩ := (run_reporting now q.ts w hwf hrep).1 hwt
      simp [hmsg, hrep]
    · have hmay : mayReport word = false := by
        cases word <;> simp_all [mayReport, mismatched]
      rw [hargs]
      have hinert : (((handle q.ts (key :: rest) word).run (exec now) w).2).store = w.store := by
        refine (Prog.run_inv (I := fun w' : World F => w'.store = w.store) ?_ (all_inert q.ts hm hmay) rfl).1
        intro o v r v' ho hv hx
        rw [exec_inert ho (by rw [hv]; exact hl) hx, hv]
      refine ⟨hinert, ?_⟩
      simp only [hrep, and_false, iff_false]
      rintro ⟨⟨msg, hmsg⟩, -⟩
      have hno := (Prog.run_inv (I := fun _ => True) (by simp) (noErr_of_wellFormed q.ts (hargs ▸ hwf) hmay) (s := w)
        trivial).2 _ hmsg
      cases hno

end

/-- `GET` on a list. -/
theorem wrong_type_iff_get :
    let get : Request := ⟨0, ["GET", "l"]⟩
    ∃ msg, (serve 0 get (⟨lpush ∅ "l" "a", {}⟩ : World Float)).1 = some (.err ERR_TYPE msg) := by
  intro get
  have hl : (lpush ∅ "l" "a" : Data Float).lookup "l" = some ⟨.list ["a"], none⟩ := rfl
  exact ((wrong_type_iff 0 (show get.word = some .get by decide) (show get.args.tail = "l" :: [] from rfl) hl rfl
    rfl).2.2 ⟨by decide, by decide⟩).1

/-- **A push that never happened.** `LPUSH` on a text is acknowledged. -/
theorem wrong_type_lpush :
    let push : Request := ⟨0, ["LPUSH", "s", "a"]⟩
    let w : World Float := ⟨setStr ∅ "s" "text", {}⟩
    w.store.lookup "s" = some ⟨.str "text", none⟩ ∧ (serve 0 push w).1 = some (.int 1) ∧
      (serve 0 push w).2.store.lookup "s" = some ⟨.str "text", none⟩ := by
  intro push w
  rw [serve_of_word (show push.word = some .lpush by decide)]
  exact ⟨rfl, rfl, rfl⟩

end RedisOps.Handler
