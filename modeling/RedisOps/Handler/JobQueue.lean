import RedisOps.Handler.Atomic
import RedisOps.Store.Expiry

/-!
# The job queue under any interleaving

Any number of clients issue `job` commands; the commands interleave at the granularity of single store
operations (`Lib.Step`), and the sweeper may run between any two of them. `pushes` and `takes` read off a
run what `job submit` has pushed and what `job next` has popped, in order.

The invariant: what has been pushed is what has been taken followed by what the queue holds, read from
its back (`lpush` adds in front, `rpop` takes from the back), and the queue never expires. No other `job`
command writes the queue key, whatever the job id (`job_keys_ne`).
-/

namespace RedisOps.Handler

open Lib Store Proto

variable {F : Type}

/-- What a client sends, with the clock it is served at. -/
structure Request where
  ts : Nat
  args : List String

def Request.word (q : Request) : Option Word :=
  q.args.head?.bind fun word => Word.ofString (toLowercase word)

def jobWords : List Word := [.jobSubmit, .jobNext, .jobStatus, .jobResult, .jobLog, .jobList]

/-- What happens in one step of a run of `job` commands. -/
abbrev JobEvent (F : Type) := Event Request (Op F) Op.Ret Response

/-- The payload a step pushes onto the queue for a `job submit`. -/
def pushOf : JobEvent F → List String
  | .did _ q (.lpush key payload) _ _ =>
    if q.word = some .jobSubmit ∧ key = queueKey then [payload] else []
  | _ => []

/-- The payload a step takes from the queue for a `job next`. -/
def takeOf : JobEvent F → List String
  | .did _ q (.rpop key) (some payload) _ =>
    if q.word = some .jobNext ∧ key = queueKey then [payload] else []
  | _ => []

def pushes (evs : List (JobEvent F)) : List String := evs.flatMap pushOf
def takes (evs : List (JobEvent F)) : List String := evs.flatMap takeOf

/-- The response a step gives to a `job next`. -/
def nextAnswer : JobEvent F → Option Response
  | .began _ q answer | .did _ q _ _ answer => if q.word = some .jobNext then answer else none
  | _ => none

/-! ## The queue -/

/-- The queue holds `rest`, oldest payload first, and does not expire. -/
def Holds (s : Data F) (rest : List String) : Prop :=
  s.lookup queueKey = some ⟨.list rest.reverse, none⟩ ∨ s.lookup queueKey = none ∧ rest = []

theorem holds_congr {s t : Data F} {rest : List String} (h : t.lookup queueKey = s.lookup queueKey)
    (hs : Holds s rest) : Holds t rest := by
  rwa [Holds, h]

theorem holds_sweep {now : Nat} {s : Data F} {rest : List String} (hs : Holds s rest) :
    Holds (sweep now s) rest := by
  rcases hs with h | ⟨h, rfl⟩
  · exact .inl (by simp [lookup_sweep, h, Option.filter_some, Entry.expired])
  · exact .inr ⟨by simp [lookup_sweep, h], rfl⟩

theorem holds_lpush {s : Data F} {rest : List String} (hs : Holds s rest) (payload : String) :
    Holds (lpush s queueKey payload) (rest ++ [payload]) := by
  rcases hs with h | ⟨h, rfl⟩
  · exact .inl (by simp [lpush, h, setTyp])
  · exact .inl (by simp [lpush, h, insertNew])

/-- `rpop` takes the oldest payload. -/
theorem holds_rpop {s : Data F} {rest : List String} (hs : Holds s rest) :
    (rpop s queueKey).1 = rest.head? ∧ Holds (rpop s queueKey).2 rest.tail := by
  cases rest with
  | nil =>
    have hr : rpop s queueKey = (none, s) := by
      rcases hs with h | ⟨h, -⟩ <;> simp [rpop, h]
    rw [hr]
    exact ⟨rfl, hs⟩
  | cons payload rest =>
    have h : s.lookup queueKey = some ⟨.list (payload :: rest).reverse, none⟩ := by
      rcases hs with h | ⟨-, h⟩
      · exact h
      · cases h
    refine ⟨by simp [rpop, h], .inl ?_⟩
    simp [rpop, h, setTyp]

/-! ## What each command does -/

def Submits (id : String) (q : Request) : Prop :=
  q.word = some .jobSubmit ∧ q.args.tail.head? = some id

def Reports (id : String) (q : Request) : Prop :=
  q.word = some .jobResult ∧ q.args.tail.head? = some id

def Done (v : String) : Prop := v = "passed" ∨ v = "failed"

/-- The operations of the `job` commands. -/
inductive JobOp (q : Request) : Op F → Prop
  | read {o : Op F} : writeKey o = none → JobOp q o
  | push {payload : String} : q.word = some .jobSubmit → 4 ≤ payload.toList.count '|' →
      JobOp q (.lpush queueKey payload)
  | payload {id payload : String} : Submits id q → JobOp q (.setStr (jobKey id) payload)
  | queued {id : String} : Submits id q → JobOp q (.setStr (jobStatusKey id) "queued")
  | pop : q.word = some .jobNext → JobOp q (.rpop queueKey)
  | running {id : String} : q.word = some .jobNext → JobOp q (.setStr (jobStatusKey id) "running")
  | status {id v : String} : Reports id q → Done v → JobOp q (.setStr (jobStatusKey id) v)
  | result {id text : String} : JobOp q (.setStr (jobResultKey id) text)
  | entry {entry : String} : JobOp q (.lpush resultsKey entry)
  | clearLog {id : String} : JobOp q (.del (jobLogKey id))
  | log {id line : String} : JobOp q (.lpush (jobLogKey id) line)

theorem count_jobPayload (id name target command : String) (jobArgs : List String) :
    4 ≤ (jobPayload id name target command jobArgs).toList.count '|' := by
  have hbar : "|".toList.count '|' = 1 := by decide
  simp only [jobPayload, String.toList_append, List.count_append, hbar]
  omega

/-- **What a `job` command may do.** -/
theorem all_jobOp {q : Request} {word : Word} (hw : word ∈ jobWords) (hq : q.word = some word) (ts : Nat) [F64 F] :
    (handle (F := F) ts q.args.tail word).All (JobOp q) fun _ => True := by
  simp only [jobWords, List.mem_cons, List.not_mem_nil, or_false] at hw
  rcases hw with rfl | rfl | rfl | rfl | rfl | rfl <;> simp only [handle]
  · -- `job submit`
    unfold jobSubmit
    split
    · rename_i id name target command jobArgs hargs
      have hsub : Submits id q := ⟨hq, by rw [hargs]; rfl⟩
      apply all_await (.push hq (count_jobPayload id name target command jobArgs))
      intro _
      exact all_await (.payload hsub) fun _ => all_await (.queued hsub) fun _ => trivial
    · trivial
  · -- `job next`
    apply all_await (.pop hq)
    intro payload
    split
    · split
      · exact all_await (.running hq) fun _ => trivial
      · trivial
    · trivial
  · -- `job status`
    unfold jobStatus
    split
    · exact all_await (.read rfl) fun _ => trivial
    · trivial
  · -- `job result`
    unfold jobResult
    split
    · rename_i id exitCode durationMs hargs
      have hrep : Reports id q := ⟨hq, by rw [hargs]; rfl⟩
      refine all_parsed fun e => all_parsed fun d => all_await (.status hrep ?_) fun _ => ?_
      · by_cases he : e = 0 <;> simp [he, Done]
      · exact all_await .result fun _ => all_await .entry fun _ => trivial
    · trivial
  · -- `job log`
    unfold jobLog
    split
    · refine all_await (.read rfl) fun vals => all_await .clearLog fun _ => (Prog.all_bind _ _).2 ?_
      exact (all_lpushEach (fun _ => .log) _).mono (fun _ h => h) fun _ _ => trivial
    · trivial
  · -- `job list`
    refine all_await (.read rfl) fun ks => (Prog.all_bind _ _).2 ?_
    exact (all_jobListLoop (fun _ => .read rfl) _ ks []).mono (fun _ h => h) fun _ _ => trivial

/-- An operation on the queue key is the push of a well-formed payload by `job submit`, or the pop of
    `job next`. -/
def QueueOp (q : Request) (o : Op F) : Prop :=
  writeKey o = some queueKey →
    (∃ payload, o = .lpush queueKey payload ∧ q.word = some .jobSubmit ∧ 4 ≤ payload.toList.count '|') ∨
      o = .rpop queueKey ∧ q.word = some .jobNext

theorem JobOp.queueOp {q : Request} {o : Op F} (h : JobOp q o) : QueueOp q o := by
  intro hkey
  have hkeys := fun id => job_keys_ne id queueKey (by decide)
  have hresults : resultsKey ≠ queueKey := by decide
  cases h with
  | read h => simp [h] at hkey
  | push hw hcount => exact .inl ⟨_, rfl, hw, hcount⟩
  | pop hw => exact .inr ⟨rfl, hw⟩
  | payload => exact absurd (Option.some.inj hkey) (hkeys _).1
  | queued | running | status => exact absurd (Option.some.inj hkey) (hkeys _).2.1
  | result => exact absurd (Option.some.inj hkey) (hkeys _).2.2.1
  | entry => exact absurd (Option.some.inj hkey) hresults
  | clearLog | log => exact absurd (Option.some.inj hkey) (hkeys _).2.2.2

/-! ## Runs -/

section
variable [F64 F]

/-- Clients that issue `job` commands only, with the sweeper at any time. -/
def jobRules : Rules (World F) Request (Op F) Op.Ret Response Nat where
  exec := exec
  progOf q := respond q.ts q.args
  admitted q := ∃ word ∈ jobWords, q.word = some word
  env w w' := ∃ now, w' = w.swept now

theorem respond_of_word {q : Request} {word : Word} (h : q.word = some word) :
    (respond q.ts q.args : Cmd F Response) = handle q.ts q.args.tail word := by
  obtain ⟨ts, args⟩ := q
  cases args with
  | nil => simp [Request.word] at h
  | cons w args => simp_all [Request.word, respond]

theorem all_job (q : Request) (h : (jobRules (F := F)).admitted q) :
    ((jobRules (F := F)).progOf q).All (QueueOp q) fun _ => True := by
  obtain ⟨word, hw, hq⟩ := h
  change Prog.All _ _ (respond q.ts q.args)
  rw [respond_of_word hq]
  exact (all_jobOp hw hq _).mono (fun _ h => h.queueOp) fun _ h => h

/-- Rules that change the queue only as the `job` commands do. -/
structure Queueing (R : Rules (World F) Request (Op F) Op.Ret Response Nat) : Prop where
  exec : R.exec = exec
  all : ∀ q, R.admitted q → (R.progOf q).All (QueueOp q) fun _ => True
  env : ∀ w w', R.env w w' → ∃ now, w' = w.swept now

theorem queueing_jobRules : Queueing (jobRules (F := F)) := ⟨rfl, all_job, fun _ _ h => h⟩

/-- What has been pushed is what has been taken followed by what the queue holds. -/
structure QueueInv (evs : List (JobEvent F)) (s : Data F) : Prop where
  fifo : ∃ rest, pushes evs = takes evs ++ rest ∧ Holds s rest
  wellFormed : ∀ payload ∈ pushes evs, 4 ≤ payload.toList.count '|'

omit [F64 F] in
/-- A step that neither pushes nor takes and leaves the queue alone. -/
theorem QueueInv.quiet {evs : List (JobEvent F)} {s t : Data F} {e : JobEvent F} (h : QueueInv evs s)
    (hp : pushOf e = []) (ht : takeOf e = []) (hq : ∀ rest, Holds s rest → Holds t rest) :
    QueueInv (evs ++ [e]) t := by
  obtain ⟨rest, hrest, hs⟩ := h.fifo
  exact ⟨⟨rest, by simpa [pushes, takes, hp, ht] using hrest, hq rest hs⟩,
    by simpa [pushes, hp] using h.wellFormed⟩

omit [F64 F] in
/-- An operation off the queue key neither pushes nor takes. -/
theorem pushOf_takeOf_ne {c : Nat} {q : Request} {o : Op F} {r : o.Ret} {a : Option Response}
    (h : writeKey o ≠ some queueKey) :
    pushOf (.did c q o r a) = [] ∧ takeOf (.did c q o r a) = [] := by
  cases o <;> simp_all [writeKey, pushOf, takeOf]
  rename_i key
  cases r <;> simp_all

omit [F64 F] in
theorem pushes_snoc (evs : List (JobEvent F)) (e : JobEvent F) :
    pushes (evs ++ [e]) = pushes evs ++ pushOf e := by simp [pushes]

omit [F64 F] in
theorem takes_snoc (evs : List (JobEvent F)) (e : JobEvent F) :
    takes (evs ++ [e]) = takes evs ++ takeOf e := by simp [takes]

omit [F64 F] in
theorem takeOf_rpop {c : Nat} {q : Request} {r : Option String} {a : Option Response}
    (h : q.word = some .jobNext) :
    takeOf (.did c q (.rpop queueKey) r a : JobEvent F) = r.toList := by
  cases r <;> simp [takeOf, h]

variable {w₀ : World F} {evs : List (JobEvent F)} {s s' : Sys (World F) Request (Op F) Op.Ret Response}
  {e : JobEvent F}

/-- **Step.** -/
theorem queueInv_step {R : Rules (World F) Request (Op F) Op.Ret Response Nat} (hR : Queueing R) (htr : Trace R w₀ evs s)
    (hstep : Step R s e s') (hi : QueueInv evs s.shared.store) : QueueInv (evs ++ [e]) s'.shared.store := by
  cases hstep with
  | begin c q _ _ => exact hi.quiet rfl rfl fun _ h => h
  | opFails c q o k now _ _ => exact hi.quiet rfl rfl fun _ h => h
  | fails c q _ => exact hi.quiet rfl rfl fun _ h => h
  | env w' hw =>
    obtain ⟨now, rfl⟩ := hR.env _ _ hw
    exact hi.quiet rfl rfl fun _ h => holds_sweep h
  | op c q o k now r w' hc hex =>
    rw [hR.exec] at hex
    by_cases hw : writeKey o = some queueKey
    · obtain ⟨rest, hrest, hs⟩ := hi.fifo
      rcases (htr.op_all hR.all hc) hw with ⟨payload, rfl, hword, hcount⟩ | ⟨rfl, hword⟩
      · -- a push goes behind everything the queue holds
        obtain ⟨-, rfl⟩ : () = r ∧ { s.shared with store := lpush s.shared.store queueKey payload } = w' := by
          simpa [exec] using hex
        refine ⟨⟨rest ++ [payload], ?_, holds_lpush hs payload⟩, ?_⟩
        · simp [pushes, takes, pushOf, takeOf, hword] at hrest ⊢
          simp [hrest]
        · intro p hp
          simp only [pushes, List.flatMap_append, List.mem_append] at hp
          rcases hp with hp | hp
          · exact hi.wellFormed p hp
          · simp [pushOf, hword] at hp
            exact hp ▸ hcount
      · -- a pop takes the oldest payload
        obtain ⟨rfl, rfl⟩ : (rpop s.shared.store queueKey).1 = r ∧
            { s.shared with store := (rpop s.shared.store queueKey).2 } = w' := by
          simpa [exec] using hex
        obtain ⟨hhead, htail⟩ := holds_rpop hs
        refine ⟨⟨rest.tail, ?_, htail⟩, by simpa [pushes, pushOf] using hi.wellFormed⟩
        rw [takes_snoc, takeOf_rpop hword, hhead, pushes_snoc, hrest]
        cases rest <;> simp [pushOf]
    · obtain ⟨hp, ht⟩ := pushOf_takeOf_ne (c := c) (q := q) (r := r) (a := (k r).answer?) hw
      exact hi.quiet hp ht fun _ h => holds_congr (exec_frame hex hw) h

/-- **Run.** -/
theorem Queueing.queueInv {R : Rules (World F) Request (Op F) Op.Ret Response Nat} (hR : Queueing R) (h₀ : w₀.store = ∅)
    (h : Trace R w₀ evs s) : QueueInv evs s.shared.store := by
  induction h with
  | start => exact ⟨⟨[], rfl, .inr ⟨by rw [h₀]; rfl, rfl⟩⟩, by simp [pushes]⟩
  | next htr hstep ih => exact queueInv_step hR htr hstep ih

theorem queueInv_trace (h₀ : w₀.store = ∅) (h : Trace jobRules w₀ evs s) : QueueInv evs s.shared.store :=
  queueing_jobRules.queueInv h₀ h

/-! ## `job next` -/

/-- What `job next` does with what it has popped. -/
def afterPop : Option String → Cmd F Response
  | some payload =>
    match splitn 5 '|' payload with
    | [id, name, target, command, jobArgs] => .op (.setStr (jobStatusKey id) "running") fun _ =>
      .ret (strs [id, name, target, command, jobArgs])
    | _ => .ret (errUnknown "malformed job payload")
  | none => .ret .nil

omit [F64 F] in
theorem jobNext_eq : (jobNext : Cmd F Response) = .op (.rpop queueKey) afterPop := by
  unfold jobNext
  rw [await_bind]
  congr 1
  funext payload
  cases payload with
  | none => rfl
  | some payload =>
    unfold afterPop
    dsimp only
    -- five fields or any other number of them
    rcases splitn 5 '|' payload with _ | ⟨id, _ | ⟨name, _ | ⟨target, _ | ⟨command, _ | ⟨jobArgs, _ | _⟩⟩⟩⟩⟩ <;> rfl

omit [F64 F] in
/-- The operations of `job next`: the pop, or the one that marks a popped job as running. -/
theorem reach_jobNext {o : Op F} {k : o.Ret → Cmd F Response} (h : Prog.Reach jobNext (.op o k)) :
    Prog.op o k = jobNext ∨
      ∃ id jobs, o = .setStr (jobStatusKey id) "running" ∧ ∀ a, k a = .ret (strs (id :: jobs)) := by
  rw [jobNext_eq] at h ⊢
  obtain heq | ⟨o', k', r, heq, hr⟩ := h.cases
  · exact .inl heq
  · cases heq
    cases r with
    | none => cases hr.of_ret
    | some payload =>
      simp only [afterPop] at hr
      split at hr
      · obtain heq | ⟨_, _, _, heq, hr'⟩ := hr.cases
        · cases heq
          exact .inr ⟨_, _, rfl, fun _ => rfl⟩
        · cases heq
          cases hr'.of_ret
      · cases hr.of_ret

/-- A `job next` about to perform an operation. -/
theorem reach_respond_next {q : Request} {o : Op F} {k : o.Ret → Cmd F Response} (hw : q.word = some .jobNext)
    (hr : Prog.Reach (respond q.ts q.args) (.op o k)) :
    Prog.op o k = jobNext ∨
      ∃ id jobs, o = .setStr (jobStatusKey id) "running" ∧ ∀ a, k a = .ret (strs (id :: jobs)) := by
  rw [respond_of_word hw] at hr
  exact reach_jobNext hr

theorem jobNext_task (htr : Trace jobRules w₀ evs s) {c : Nat} {q : Request} {o : Op F}
    {k : o.Ret → Cmd F Response} (hc : s.tasks c = some ⟨q, .op o k⟩) (hw : q.word = some .jobNext) :
    Prog.op o k = jobNext ∨
      ∃ id jobs, o = .setStr (jobStatusKey id) "running" ∧ ∀ a, k a = .ret (strs (id :: jobs)) :=
  reach_respond_next hw (htr.task_reach hc).2

omit [F64 F] in
theorem afterPop_nil {r : Option String} (h : (afterPop r : Cmd F Response).answer? = some .nil) :
    r = none := by
  cases r with
  | none => rfl
  | some payload =>
    unfold afterPop at h
    dsimp only at h
    split at h <;> cases h

theorem exec_rpop_answer {now : Nat} {w w' : World F} {r : Option String}
    (h : (jobRules (F := F)).exec now (.rpop queueKey) w = some (r, w')) :
    (rpop w.store queueKey).1 = r := by
  have h' : some ((rpop w.store queueKey).1, { w with store := (rpop w.store queueKey).2 }) = some (r, w') := h
  simp only [Option.some.injEq, Prod.mk.injEq] at h'
  exact h'.1

/-- `Nil` is answered only by the pop of an empty queue. -/
theorem nil_means_empty (htr : Trace jobRules w₀ evs s) (hi : QueueInv evs s.shared.store)
    (hstep : Step jobRules s e s') (hn : nextAnswer e = some .nil) :
    takes (evs ++ [e]) = pushes (evs ++ [e]) := by
  cases hstep with
  | begin c q hc hadm =>
    -- `job next` performs an operation before it answers
    obtain ⟨hw, ha⟩ : q.word = some .jobNext ∧ (respond q.ts q.args : Cmd F Response).answer? = some .nil := by
      simpa [nextAnswer, jobRules] using hn
    rw [respond_of_word hw] at ha
    cases ha
  | op c q o k now r w' hc hex =>
    obtain ⟨hw, ha⟩ : q.word = some .jobNext ∧ (k r).answer? = some .nil := by
      simpa [nextAnswer] using hn
    obtain heq | ⟨id, jobs, -, hk⟩ := jobNext_task htr hc hw
    · rw [jobNext_eq] at heq
      cases heq
      obtain rfl := afterPop_nil ha
      obtain ⟨rest, hrest, hs⟩ := hi.fifo
      have hpop : (rpop s.shared.store queueKey).1 = none := exec_rpop_answer hex
      have hnil : rest = [] := by
        rw [(holds_rpop hs).1] at hpop
        simpa using hpop
      rw [takes_snoc, pushes_snoc, takeOf_rpop hw, hrest, hnil]
      simp [pushOf]
    · rw [hk r] at ha
      cases ha
  | opFails => cases hn
  | fails => cases hn
  | env => cases hn

/-- The `job next` that takes a payload answers its five fields. -/
theorem taker_succeeds (htr : Trace jobRules w₀ evs s) (hi : QueueInv evs s.shared.store) {c : Nat}
    {q : Request} {payload : String} {a : Option Response} (hw : q.word = some .jobNext)
    (hstep : Step jobRules s (.did c q (.rpop queueKey) (some payload) a) s') :
    ∃ id name target command jobArgs, splitn 5 '|' payload = [id, name, target, command, jobArgs] ∧
      s'.tasks c = some ⟨q, .op (.setStr (jobStatusKey id) "running") fun _ =>
        .ret (strs [id, name, target, command, jobArgs])⟩ := by
  cases hstep with
  | op c q o k now r w' hc hex =>
    obtain heq | ⟨id, jobs, ho, -⟩ := jobNext_task htr hc hw
    · rw [jobNext_eq] at heq
      cases heq
      -- the payload is one that was pushed, so it has its five fields
      obtain ⟨rest, hrest, hs⟩ := hi.fifo
      have hhead : rest.head? = some payload := (holds_rpop hs).1.symm.trans (exec_rpop_answer hex)
      have hmem : payload ∈ pushes evs := by
        rw [hrest]
        exact List.mem_append_right _ (List.mem_of_head? hhead)
      obtain ⟨id, name, target, command, jobArgs, hsplit⟩ := splitn_five.2 (hi.wellFormed payload hmem)
      refine ⟨id, name, target, command, jobArgs, hsplit, ?_⟩
      simp [afterPop, hsplit, settle]
    · cases ho

/-- **FIFO, exactly once.** In every run of `job` commands from an empty store: what has been taken is a
    prefix of what has been pushed; the `job next` that takes a payload answers its five fields; and a
    `job next` answers `Nil` only when everything pushed so far has been taken. -/
theorem job_queue_fifo (h₀ : w₀.store = ∅) (h : Trace jobRules w₀ evs s) :
    takes evs <+: pushes evs ∧
      (∀ c q payload a s', q.word = some .jobNext →
        Step jobRules s (.did c q (.rpop queueKey) (some payload) a) s' →
        ∃ id name target command jobArgs, splitn 5 '|' payload = [id, name, target, command, jobArgs] ∧
          s'.tasks c = some ⟨q, .op (.setStr (jobStatusKey id) "running") fun _ =>
            .ret (strs [id, name, target, command, jobArgs])⟩) ∧
      ∀ e s', Step jobRules s e s' → nextAnswer e = some .nil →
        takes (evs ++ [e]) = pushes (evs ++ [e]) := by
  have hi := queueInv_trace h₀ h
  obtain ⟨rest, hrest, -⟩ := hi.fifo
  exact ⟨⟨rest, hrest.symm⟩, fun c q payload a s' hw hstep => taker_succeeds h hi hw hstep,
    fun e s' hstep hn => nil_means_empty h hi hstep hn⟩

end

/-- The tasks of a state one by one. -/
theorem trace_congr {w₀ w : World Float} {evs : List (JobEvent Float)}
    {tasks tasks' : Nat → Option (Task Request (Op Float) Op.Ret Response)} (h : Trace jobRules w₀ evs ⟨w, tasks⟩)
    (htasks : ∀ c, tasks c = tasks' c) : Trace jobRules w₀ evs ⟨w, tasks'⟩ := by
  rwa [← funext htasks]

/-- One client has pushed a job and not set its status yet when another one comes for it. -/
def pushedSys (args : List String) (payload : String) (k : Unit → Cmd Float Response) :
    Sys (World Float) Request (Op Float) Op.Ret Response where
  shared := ⟨lpush ∅ queueKey payload, {}⟩
  tasks
    | 0 => some ⟨⟨0, "JOB SUBMIT" :: args⟩, k ()⟩
    | 1 => some ⟨⟨0, ["JOB NEXT"]⟩, jobNext⟩
    | _ => none

theorem trace_pushed {args : List String} {payload : String} {k : Unit → Cmd Float Response}
    (hs : jobSubmit args = .op (.lpush queueKey payload) k) (hk : (k ()).answer? = none) :
    Trace jobRules ⟨∅, {}⟩
      [.began 0 ⟨0, "JOB SUBMIT" :: args⟩ none,
        .did 0 ⟨0, "JOB SUBMIT" :: args⟩ (.lpush queueKey payload) () none,
        .began 1 ⟨0, ["JOB NEXT"]⟩ none] (pushedSys args payload k) := by
  let submit : Request := ⟨0, "JOB SUBMIT" :: args⟩
  let next : Request := ⟨0, ["JOB NEXT"]⟩
  have hsubmit : submit.word = some .jobSubmit := rfl
  have hnext : next.word = some .jobNext := rfl
  have hp : (jobRules (F := Float)).progOf submit = .op (.lpush queueKey payload) k :=
    (respond_of_word hsubmit).trans hs
  have hn : (jobRules (F := Float)).progOf next = jobNext := respond_of_word hnext
  have t₀ : Trace (jobRules (F := Float)) ⟨∅, {}⟩ [] ⟨⟨∅, {}⟩, fun _ => none⟩ := .start
  have t₁ := t₀.next (.begin _ 0 submit rfl ⟨.jobSubmit, by decide, hsubmit⟩)
  have t₂ := t₁.next (.op _ 0 submit (.lpush queueKey payload) k 0 () _ (by rw [hp]; rfl) rfl)
  have t₃ := t₂.next (.begin _ 1 next rfl ⟨.jobNext, by decide, hnext⟩)
  have hsettle : settle submit (k ()) = some ⟨submit, k ()⟩ := by
    cases hprog : k () with
    | ret a => simp [hprog] at hk
    | _ => rfl
  rw [hp, hn, hk, hsettle] at t₃
  exact trace_congr t₃ fun c => by rcases c with _ | _ | c <;> rfl

/-- One client submits a job; before it has set the job's status another one takes it. -/
theorem job_queue_fifo_submit_next :
    ∃ (evs : List (JobEvent Float)) (s : Sys (World Float) Request (Op Float) Op.Ret Response),
      Trace jobRules ⟨∅, {}⟩ evs s ∧ takes evs = ["1|build|linux|make|"] ∧ takes evs <+: pushes evs := by
  have t₃ := @trace_pushed ["1", "build", "linux", "make"] "1|build|linux|make|" _ rfl rfl
  have t₄ := t₃.next (.op _ 1 ⟨0, ["JOB NEXT"]⟩ (.rpop queueKey) _ 0 (some "1|build|linux|make|") _ rfl rfl)
  exact ⟨_, _, t₄, rfl, (job_queue_fifo rfl t₄).1⟩

end RedisOps.Handler
