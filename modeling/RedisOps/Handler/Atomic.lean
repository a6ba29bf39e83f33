import RedisOps.Handler.Dispatch

/-!
# Error responses and the store

A response whose tag is `SER_ERR` should mean that nothing happened. `ErrSafe p` says so of the program
of a command: once an operation may have changed the store, no error can follow. Every command of the
table is `ErrSafe` but one: `job next` pops the payload before it looks at its shape
(`handler.rs:404-411`), so an entry with fewer than four `|` is lost with the error. The exact condition
is `dispatch_err_atomic_iff`.
-/

namespace RedisOps.Handler

open Lib Store Proto

variable {F : Type}

/-- Given its answer, may the operation have changed the store? -/
def mayChange : (o : Op F) → o.Ret → Bool
  | .setStr _ _, _ | .lpush _ _, _ | .setBit _ _ _, _ | .lrem _ _ _, _ => true
  | .del _, found | .expire _ _, found => found
  | .zAdd _ _ _, (_, wrongType) | .zRem _ _, (_, wrongType) => !wrongType
  | .rpop _, v | .lpop _, v => v.isSome
  | _, _ => false

/-- No result is an error. -/
def NoErr (p : Cmd F Response) : Prop := p.All (fun _ => True) (fun r => r.isErr = false)

/-- No error after an operation that may have changed the store. -/
def ErrSafe : Cmd F Response → Prop
  | .ret _ => True
  | .fail => True
  | .op o k => ∀ r, (mayChange o r = true → NoErr (k r)) ∧ (mayChange o r = false → ErrSafe (k r))

@[simp] theorem errSafe_ret (r : Response) : ErrSafe (.ret r : Cmd F Response) := trivial

@[simp] theorem noErr_ret (r : Response) : NoErr (.ret r : Cmd F Response) ↔ r.isErr = false := Iff.rfl

/-- A program without an error is safe whatever it changes. -/
theorem ErrSafe.of_noErr {p : Cmd F Response} (h : NoErr p) : ErrSafe p := by
  induction p with
  | ret r => trivial
  | fail => trivial
  | op o k ih => exact fun r => ⟨fun _ => h.2 r, fun _ => ih r (h.2 r)⟩

theorem errSafe_parsed {α : Type} {arg : Option α} {msg : String} {k : α → Cmd F Response}
    (h : ∀ v, ErrSafe (k v)) : ErrSafe (parsed arg msg k) := by
  cases arg with
  | none => trivial
  | some v => exact h v

section
variable [Zset.Score F]

/-- The operation's answer tells when the store is as before. -/
theorem exec_unchanged {now : Nat} {o : Op F} {w w' : World F} {r : o.Ret}
    (h : exec now o w = some (r, w')) (hr : mayChange o r = false) : w'.store = w.store := by
  cases o <;> simp only [exec, Option.some.injEq, Prod.mk.injEq] at h <;>
    first
    | (obtain ⟨_, rfl⟩ := h; rfl)
    | (simp [mayChange] at hr; done)
    | skip
  case del key =>
    obtain ⟨rfl, rfl⟩ := h
    have hl : w.store.lookup key = none := by simpa [mayChange, del] using hr
    simp only [del]
    exact AList.ext (List.kerase_of_notMem_keys (AList.lookup_eq_none.1 hl))
  case expire key ms =>
    obtain ⟨rfl, rfl⟩ := h
    cases hl : w.store.lookup key with
    | none => simp [expire, hl]
    | some e => simp [mayChange, expire, hl] at hr
  case zAdd key name score =>
    obtain ⟨rfl, rfl⟩ := h
    simp only [mayChange, zAdd] at hr ⊢
    split at hr
    · simp at hr
    · split at hr
      · simp at hr
      · rfl
  case zRem key name =>
    obtain ⟨rfl, rfl⟩ := h
    simp only [mayChange, zRem] at hr ⊢
    split at hr
    · split at hr
      · simp at hr
      · rfl
    · rfl
  case rpop key =>
    obtain ⟨rfl, rfl⟩ := h
    simp only [mayChange, rpop] at hr ⊢
    split at hr
    · split at hr
      · split at hr
        · simp at hr
        · rfl
      · rfl
    · rfl
  case lpop key =>
    obtain ⟨rfl, rfl⟩ := h
    simp only [mayChange, lpop] at hr ⊢
    split at hr
    · split at hr
      · simp at hr
      · rfl
    · rfl
  case lrange key start stop =>
    simp only [Option.map_eq_some_iff, Prod.mk.injEq] at h
    obtain ⟨_, _, _, rfl⟩ := h
    rfl

/-- **Soundness.** A safe program that ends in an error leaves the store as it was. -/
theorem ErrSafe.run {now : Nat} {p : Cmd F Response} (hp : ErrSafe p) {w : World F} {r : Response}
    (hr : (p.run (exec now) w).1 = some r) (he : r.isErr = true) :
    (p.run (exec now) w).2.store = w.store := by
  induction p generalizing w with
  | ret a => rfl
  | fail => rfl
  | op o k ih =>
    cases hx : exec now o w with
    | none => rw [Prog.run_op_none _ hx]
    | some x =>
      obtain ⟨a, w'⟩ := x
      rw [Prog.run_op_some _ hx] at hr ⊢
      cases hc : mayChange o a with
      | true =>
        -- past a change every result is a success
        have hne := (Prog.run_inv (I := fun _ => True) (by simp) ((hp a).1 hc) (s := w') trivial).2 r hr
        rw [hne] at he
        exact absurd he (by simp)
      | false => rw [ih a ((hp a).2 hc) hr, exec_unchanged hx hc]

end

/-! ## The commands -/

theorem noErr_bind {α : Type} {p : Cmd F α} {k : α → Cmd F Response} (h : ∀ a, NoErr (k a)) :
    NoErr (p >>= k) := by
  induction p with
  | ret a => exact h a
  | fail => trivial
  | op o f ih => exact ⟨trivial, ih⟩

theorem errSafe_read {o : Op F} {k : o.Ret → Cmd F Response} (ho : ∀ r, mayChange o r = false)
    (h : ∀ r, ErrSafe (k r)) : ErrSafe (await o >>= k) :=
  fun r => ⟨fun hr => by simp [ho r] at hr, fun _ => h r⟩

theorem isErr_strOrNil (v : Option String) : (strOrNil v).isErr = false := by cases v <;> rfl

theorem errSafe_auth (args : List String) : ErrSafe (auth args : Cmd F Response) := by
  unfold auth
  split
  · refine errSafe_read (fun _ => rfl) fun cfg => ?_
    split
    · split <;> trivial
    · trivial
  · trivial

theorem errSafe_config (args : List String) : ErrSafe (config args : Cmd F Response) := by
  unfold config
  split
  · split
    · split
      · split
        · exact .of_noErr (noErr_bind fun _ => rfl)
        · split
          · exact .of_noErr (noErr_bind fun _ => rfl)
          · trivial
      · trivial
    · split
      · refine errSafe_read (fun _ => rfl) fun cfg => ?_
        split
        · trivial
        · split <;> trivial
      · trivial
  · trivial

section
variable [F64 F]

theorem errSafe_handle (ts : Nat) (args : List String) {w : Word} (hw : w ≠ .jobNext) :
    ErrSafe (handle ts args w : Cmd F Response) := by
  cases w
  case jobNext => exact absurd rfl hw
  case auth => exact errSafe_auth args
  case config => exact errSafe_config args
  case get | zscore | zquery =>
    simp only [handle, get, zscore, zquery]
    split
    · repeat refine errSafe_parsed fun _ => ?_
      refine errSafe_read (fun _ => rfl) fun r => ?_
      repeat' split
      all_goals trivial
    · trivial
  -- a wrong type is found before anything is written
  case zadd | zrem =>
    simp only [handle, zadd, zrem]
    split
    · repeat refine errSafe_parsed fun _ => ?_
      rintro ⟨a, _ | _⟩
      · exact ⟨fun _ => rfl, fun _ => trivial⟩
      · exact ⟨by simp [mayChange], fun _ => trivial⟩
    · trivial
  -- these make no error once their arguments are read
  case jobList | metricSummary | sandboxStatus | tsList =>
    exact .of_noErr (by
      simp only [handle, jobList, metricSummary, sandboxStatus, tsList]
      repeat refine noErr_bind fun _ => ?_
      rfl)
  all_goals
    simp only [handle, keysCmd, set, delCmd, pexpire, pttl, lpushCmd, rpush, lpopCmd, rpopCmd, lrangeCmd,
      lindexCmd, llenCmd, lremCmd, setbit, clearbit, getbit, bitcountCmd, bfget, bfset, jobSubmit,
      jobStatus, jobResult, jobLog, metricRecord, metricQuery, sandboxRegister, sandboxClaim,
      sandboxRelease, tsAdd, tsRange, tsInfo]
    split
    · repeat refine errSafe_parsed fun _ => ?_
      refine .of_noErr ?_
      repeat refine noErr_bind fun _ => ?_
      first | rfl | exact isErr_strOrNil _
    · trivial

/-! ## `job next` -/

omit [F64 F] in
/-- The payload `rpop` would take from the queue. -/
def nextPayload (s : Data F) : Option String :=
  match s.lookup queueKey with
  | some ⟨.list l, _⟩ => l.getLast?
  | _ => none

/-- The command is `job next` and the next payload has fewer than four `|`. -/
def MalformedNext (s : Data F) (args : List String) : Prop :=
  (∃ word rest, args = word :: rest ∧ Word.ofString (toLowercase word) = some .jobNext) ∧
    ∃ payload, nextPayload s = some payload ∧ payload.toList.count '|' < 4

omit [F64 F] in
theorem rpop_none {s : Data F} (h : nextPayload s = none) : rpop s queueKey = (none, s) := by
  unfold nextPayload at h
  unfold rpop
  cases hl : s.lookup queueKey with
  | none => rfl
  | some e =>
    obtain ⟨v, expAt⟩ := e
    cases v <;> simp_all

omit [F64 F] in
theorem rpop_some {s : Data F} {payload : String} (h : nextPayload s = some payload) :
    ∃ s', rpop s queueKey = (some payload, s') ∧ s' ≠ s := by
  unfold nextPayload at h
  split at h
  · rename_i l expAt hl
    refine ⟨setTyp s queueKey ⟨.list l, expAt⟩ (.list l.dropLast), by simp [rpop, hl, h], ?_⟩
    intro hs
    have hq := congrArg (AList.lookup queueKey) hs
    simp only [setTyp, AList.lookup_insert, hl, Option.some.injEq, Entry.mk.injEq,
      Value.list.injEq, and_true] at hq
    have hne : l ≠ [] := by rintro rfl; simp at h
    have hlen := congrArg List.length hq
    have := List.length_pos_iff.2 hne
    simp only [List.length_dropLast] at hlen
    omega
  · simp at h

omit [F64 F] in
theorem splitn_five {payload : String} : (∃ a b c d e, splitn 5 '|' payload = [a, b, c, d, e]) ↔
    4 ≤ payload.toList.count '|' := by
  have hlen := length_splitn 4 '|' payload
  constructor
  · rintro ⟨a, b, c, d, e, h⟩
    simp [h] at hlen
    omega
  · intro h
    rw [Nat.min_eq_left (by omega)] at hlen
    cases hs : splitn 5 '|' payload with
    | nil => simp [hs] at hlen
    | cons a t =>
      obtain ⟨b, c, d, e, rfl⟩ := List.length_eq_four.1 (by simpa [hs] using hlen)
      exact ⟨a, b, c, d, e, rfl⟩

omit [F64 F] in
theorem exec_rpop [Zset.Score F] (now : Nat) (key : String) (w : World F) : exec now (.rpop key) w =
    some ((rpop w.store key).1, { w with store := (rpop w.store key).2 }) := rfl

/-- A malformed payload is popped and answered with an error. -/
theorem run_jobNext_malformed (now : Nat) {w : World F} {payload : String}
    (h : nextPayload w.store = some payload) (hp : payload.toList.count '|' < 4) :
    ∃ w', w'.store ≠ w.store ∧
      jobNext.run (exec now) w = (some (errUnknown "malformed job payload"), w') := by
  obtain ⟨s', hs, hne⟩ := rpop_some h
  refine ⟨{ w with store := s' }, hne, ?_⟩
  unfold jobNext
  rw [await_bind, Prog.run_op_some _ (exec_rpop now queueKey w), hs]
  dsimp only
  split
  · rename_i a b c d e hsplit
    have := splitn_five.1 ⟨a, b, c, d, e, hsplit⟩
    omega
  · rfl

/-- With a well-formed payload, or none, `job next` makes no error. -/
theorem run_jobNext_noErr (now : Nat) {w : World F}
    (h : ∀ payload, nextPayload w.store = some payload → 4 ≤ payload.toList.count '|') {r : Response}
    (hr : (jobNext.run (exec now) w).1 = some r) : r.isErr = false := by
  unfold jobNext at hr
  rw [await_bind, Prog.run_op_some _ (exec_rpop now queueKey w)] at hr
  cases hn : nextPayload w.store with
  | none =>
    rw [rpop_none hn] at hr
    cases hr
    rfl
  | some payload =>
    obtain ⟨s', hs, -⟩ := rpop_some hn
    obtain ⟨a, b, c, d, e, hsplit⟩ := splitn_five.2 (h payload hn)
    rw [hs] at hr
    simp only [hsplit] at hr
    cases hr
    rfl

theorem run_dispatch (now ts : Nat) (args : List String) (w : World F) : runDispatch now ts args w =
    (((respond ts args).run (exec now) w).1.map Response.encode,
      ((respond ts args).run (exec now) w).2) :=
  Prog.run_map _ _ _ _

/-- `job next`, in any spelling of its letters. -/
theorem respond_jobNext (ts : Nat) {word : String} (rest : List String)
    (h : Word.ofString (toLowercase word) = some .jobNext) :
    (respond ts (word :: rest) : Cmd F Response) = jobNext := by
  simp [respond, h, handle]

theorem errSafe_respond (ts : Nat) {args : List String}
    (h : ¬ ∃ word rest, args = word :: rest ∧ Word.ofString (toLowercase word) = some .jobNext) :
    ErrSafe (respond ts args : Cmd F Response) := by
  unfold respond
  split
  · trivial
  · rename_i word rest
    split
    · rename_i w hw
      exact errSafe_handle ts rest fun hn => h ⟨word, rest, rfl, hn ▸ hw⟩
    · trivial

/-- **When error responses are atomic.** An error response means an unchanged store exactly when the
    command is not a `job next` that meets a malformed payload. -/
theorem dispatch_err_atomic_iff (now ts : Nat) (args : List String) (w : World F) :
    (∀ bytes, (runDispatch now ts args w).1 = some bytes → bytes.head? = some SER_ERR →
      (runDispatch now ts args w).2.store = w.store) ↔ ¬ MalformedNext w.store args := by
  rw [run_dispatch]
  constructor
  · rintro h ⟨⟨word, rest, rfl, hw⟩, payload, hn, hp⟩
    obtain ⟨w', hne, hrun⟩ := run_jobNext_malformed now hn hp
    rw [respond_jobNext ts rest hw, hrun] at h
    exact hne (h _ rfl ((Response.encode_head? _).2 rfl))
  · intro hm bytes hb he
    obtain ⟨r, hr, rfl⟩ := Option.map_eq_some_iff.1 hb
    have herr := (Response.encode_head? r).1 he
    by_cases hw : ∃ word rest, args = word :: rest ∧ Word.ofString (toLowercase word) = some .jobNext
    · -- an error of `job next` needs a malformed payload
      obtain ⟨word, rest, rfl, hw'⟩ := hw
      rw [respond_jobNext ts rest hw'] at hr
      have hwf : ∀ payload, nextPayload w.store = some payload → 4 ≤ payload.toList.count '|' :=
        fun payload hn => by
          by_contra hlt
          exact hm ⟨⟨word, rest, rfl, hw'⟩, payload, hn, by omega⟩
      rw [run_jobNext_noErr now hwf hr] at herr
      exact absurd herr (by simp)
    · exact (errSafe_respond ts hw).run hr herr

/-- `LPUSH devops:queue foo`, then `JOB NEXT`: an error, and the entry is gone. -/
theorem malformed_job_lost :
    ¬ ∀ (now ts : Nat) (args : List String) (w : World Float) (bytes : Bytes),
      (runDispatch now ts args w).1 = some bytes → bytes.head? = some SER_ERR →
        (runDispatch now ts args w).2.store = w.store := by
  intro h
  let w : World Float := ⟨lpush ∅ queueKey "foo", {}⟩
  have hn : nextPayload w.store = some "foo" := rfl
  obtain ⟨w', hne, hrun⟩ := run_jobNext_malformed 0 hn (by decide)
  have hd := run_dispatch 0 0 ["JOB NEXT"] w
  rw [respond_jobNext 0 [] (by decide), hrun] at hd
  have := h 0 0 ["JOB NEXT"] w _ (by rw [hd]; rfl) ((Response.encode_head? _).2 rfl)
  rw [hd] at this
  exact hne this

end

end RedisOps.Handler
