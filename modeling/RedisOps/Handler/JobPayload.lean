import RedisOps.Handler.JobStatus
import RedisOps.Handler.Session

/-!
# The payload of a job (`handler.rs:384-389, 404-427`)

`job submit` joins the fields of a job with `|`, `job next` splits what it pops into five pieces at the first
four `|`. Which job a `job next` has popped is said by its place: the queue hands them out in the order they
were pushed (`QueueInv`). The pieces are the fields of that job exactly when none of the first four has a `|` of
its own.
-/

namespace RedisOps.Handler

open Lib Store Proto

variable {F : Type}

/-! ## Joining and splitting -/

theorem toList_jobPayload (id name target command : String) (jobArgs : List String) :
    (jobPayload id name target command jobArgs).toList = id.toList ++ '|' :: (name.toList ++ '|' ::
      (target.toList ++ '|' :: (command.toList ++ '|' :: (join "," jobArgs).toList))) := by
  have hbar : "|".toList = ['|'] := by decide
  simp [jobPayload, hbar]

/-- The five pieces are the fields: the first four have no separator; the arguments may. -/
theorem splitn_jobPayload {id name target command : String} {jobArgs : List String} :
    splitn 5 '|' (jobPayload id name target command jobArgs) = [id, name, target, command, join "," jobArgs] ↔
      '|' ∉ id.toList ∧ '|' ∉ name.toList ∧ '|' ∉ target.toList ∧ '|' ∉ command.toList := by
  have hfields : [id, name, target, command, join "," jobArgs] = [id.toList, name.toList, target.toList,
      command.toList, (join "," jobArgs).toList].map String.ofList := by simp
  have hinj : Function.Injective String.ofList := fun a b h => by simpa using congrArg String.toList h
  rw [splitn, hfields, (List.map_injective_iff.2 hinj).eq_iff, toList_jobPayload]
  rw [splitnChars_append_eq_cons, splitnChars_append_eq_cons, splitnChars_append_eq_cons,
    splitnChars_append_eq_cons]
  simp [splitnChars]

/-- The first piece alone. -/
theorem head?_splitn_jobPayload {id name target command : String} {jobArgs : List String} (h : '|' ∉ id.toList) :
    (splitn 5 '|' (jobPayload id name target command jobArgs)).head? = some id := by
  rw [splitn, toList_jobPayload, splitnChars_append_eq_cons.2 ⟨h, rfl⟩]
  simp

/-! ## Submissions -/

/-- The request whose payload a step pushes onto the queue. -/
def submissionOf : JobEvent F → List Request
  | .did _ q (.lpush key _) _ _ => if q.word = some .jobSubmit ∧ key = queueKey then [q] else []
  | _ => []

def submissions (evs : List (JobEvent F)) : List Request := evs.flatMap submissionOf

/-- The payload is made of the request's fields. -/
def Payload (q : Request) (payload : String) : Prop :=
  ∃ id name target command jobArgs, q.args.tail = id :: name :: target :: command :: jobArgs ∧
    payload = jobPayload id name target command jobArgs

section
variable [F64 F]

omit [F64 F] in
/-- What a `job submit` pushes onto the queue is made of its own fields. -/
theorem all_jobSubmit_payload (q : Request) :
    (jobSubmit q.args.tail : Cmd F Response).All (fun o => ∀ payload, o = .lpush queueKey payload → Payload q payload)
      fun _ => True := by
  unfold jobSubmit
  split
  · rename_i id name target command jobArgs hargs
    refine all_await (fun payload ho => ?_) fun _ => all_await nofun fun _ => all_await nofun fun _ => trivial
    cases ho
    exact ⟨id, name, target, command, jobArgs, hargs, rfl⟩
  · trivial

variable {R : Rules (World F) Request (Op F) Op.Ret Response Nat} {w₀ : World F} {evs : List (JobEvent F)}
  {s s' : Sys (World F) Request (Op F) Op.Ret Response} {e : JobEvent F}

/-- The payload of a push by a `job submit` of the run. -/
theorem pushes_own_payload (hR : ∀ q, R.progOf q = respond q.ts q.args) (h : Trace R w₀ evs s) {c : Nat} {q : Request}
    {payload : String} {k : (Op.lpush (F := F) queueKey payload).Ret → Cmd F Response}
    (hc : s.tasks c = some ⟨q, .op (.lpush queueKey payload) k⟩) (hw : q.word = some .jobSubmit) :
    Payload q payload := by
  have hr := (h.task_reach hc).2
  rw [hR, respond_of_word hw] at hr
  exact (hr.all (all_jobSubmit_payload q)).1 payload rfl

/-- **Step.** -/
theorem submissionOf_pushOf (hR : ∀ q, R.progOf q = respond q.ts q.args) (htr : Trace R w₀ evs s) (hstep : Step R s e s') :
    List.Forall₂ Payload (submissionOf e) (pushOf e) := by
  cases hstep with
  | begin | opFails | fails | env => exact .nil
  | op c q o k now r w' hc hex =>
    cases o with
    | lpush key payload =>
      simp only [submissionOf, pushOf]
      split
      · rename_i hq
        obtain ⟨hw, rfl⟩ := hq
        exact .cons (pushes_own_payload hR htr hc hw) .nil
      · exact .nil
    | _ => exact .nil

/-- **Run.** The payloads pushed are those of the submissions, in order. -/
theorem submissions_pushes (hR : ∀ q, R.progOf q = respond q.ts q.args) (h : Trace R w₀ evs s) :
    List.Forall₂ Payload (submissions evs) (pushes evs) := by
  induction h with
  | start => exact .nil
  | next htr hstep ih =>
    rw [submissions, List.flatMap_append, pushes_snoc]
    exact List.rel_append ih (by simpa using submissionOf_pushOf hR htr hstep)

/-! ## The job that is taken -/

/-- What is popped next is the payload of the submission at that place. -/
theorem popped_payload (h₀ : w₀.store = ∅) (h : Trace jobRules w₀ evs s) {c : Nat} {q : Request} {payload : String}
    {a : Option Response} (hstep : Step jobRules s (.did c q (.rpop queueKey) (some payload) a) s') {sub : Request}
    (hsub : (submissions evs)[(takes evs).length]? = some sub) : Payload sub payload := by
  obtain ⟨rest, hrest, hs⟩ := (queueInv_trace h₀ h).fifo
  have hhead : rest.head? = some payload := by
    cases hstep with
    | op c q o k now r w' hc hex => exact (holds_rpop hs).1.symm.trans (exec_rpop_answer hex)
  have hpush : (pushes evs)[(takes evs).length]? = some payload := by
    rw [hrest, List.getElem?_append_right le_rfl, Nat.sub_self, ← List.head?_eq_getElem?, hhead]
  obtain ⟨hi, hget⟩ := List.getElem?_eq_some_iff.1 hsub
  obtain ⟨hj, hget'⟩ := List.getElem?_eq_some_iff.1 hpush
  have := (submissions_pushes (fun _ => rfl) h).get hi hj
  simpa [hget, hget'] using this

/-- **A job comes back as it was submitted exactly when none of its first four fields has a `|`.** The `i`-th job
    taken is the `i`-th one submitted; the step that takes it leaves the `job next` with one operation, which marks
    the job as running, and the five strings to answer. -/
theorem job_payload_round_trip (h₀ : w₀.store = ∅) (h : Trace jobRules w₀ evs s) {sub : Request}
    (hsub : (submissions evs)[(takes evs).length]? = some sub) {id name target command : String}
    {jobArgs : List String} (hargs : sub.args.tail = id :: name :: target :: command :: jobArgs) {c : Nat}
    {q : Request} {payload : String} {a : Option Response} (hw : q.word = some .jobNext)
    (hstep : Step jobRules s (.did c q (.rpop queueKey) (some payload) a) s') :
    s'.tasks c = some ⟨q, .op (.setStr (jobStatusKey id) "running") fun _ =>
        .ret (strs [id, name, target, command, join "," jobArgs])⟩ ↔
      '|' ∉ id.toList ∧ '|' ∉ name.toList ∧ '|' ∉ target.toList ∧ '|' ∉ command.toList := by
  have hpayload : payload = jobPayload id name target command jobArgs := by
    obtain ⟨id', name', target', command', jobArgs', hargs', rfl⟩ := popped_payload h₀ h hstep hsub
    rw [hargs] at hargs'
    simp only [List.cons.injEq] at hargs'
    obtain ⟨rfl, rfl, rfl, rfl, rfl⟩ := hargs'
    rfl
  obtain ⟨id', name', target', command', jobArgs', hsplit, htask⟩ :=
    taker_succeeds h (queueInv_trace h₀ h) hw hstep
  rw [← @splitn_jobPayload id name target command jobArgs, ← hpayload, hsplit, htask]
  constructor
  · intro heq
    simp only [Option.some.injEq, Task.mk.injEq, Prog.op.injEq, Op.setStr.injEq, true_and, and_true] at heq
    obtain ⟨hkey, hk⟩ := heq
    obtain rfl := jobStatusKey_inj.1 hkey
    have hans := congrFun (eq_of_heq hk) ()
    simpa [strs] using hans
  · intro heq
    simp only [List.cons.injEq, and_true] at heq
    obtain ⟨rfl, rfl, rfl, rfl, rfl⟩ := heq
    rfl

end

/-- A job that is taken as it was submitted. -/
theorem job_payload_round_trip_make :
    ∃ (evs : List (JobEvent Float)) (s : Sys (World Float) Request (Op Float) Op.Ret Response) (q : Request),
      Trace jobRules ⟨∅, {}⟩ evs s ∧ s.tasks 1 =
        some ⟨q, .op (.setStr (jobStatusKey "1") "running") fun _ => .ret (strs ["1", "build", "linux", "make", "-j|4"])⟩ := by
  let submit : Request := ⟨0, ["JOB SUBMIT", "1", "build", "linux", "make", "-j|4"]⟩
  let next : Request := ⟨0, ["JOB NEXT"]⟩
  have t₃ := @trace_pushed ["1", "build", "linux", "make", "-j|4"] "1|build|linux|make|-j|4" _ rfl rfl
  obtain ⟨evs, s, ht, hsub, hc, w', hpop⟩ : ∃ (evs : List (JobEvent Float)) (s : _), Trace jobRules ⟨∅, {}⟩ evs s ∧
      (submissions evs)[(takes evs).length]? = some submit ∧ s.tasks 1 = some ⟨next, jobNext⟩ ∧
      ∃ w', exec 0 (.rpop queueKey) s.shared = some (some "1|build|linux|make|-j|4", w') :=
    ⟨_, _, t₃, rfl, rfl, _, rfl⟩
  have hstep := Step.op (R := jobRules) s 1 next (.rpop queueKey) afterPop 0 _ w' (jobNext_eq ▸ hc) hpop
  refine ⟨_, _, next, ht.next hstep, ?_⟩
  exact (job_payload_round_trip rfl ht hsub rfl (by decide) hstep).2 (by decide)

/-- **A command with a pipe.** The job comes back with its command cut at the pipe, not as it was submitted. -/
theorem job_payload_pipe :
    let submit : Request := ⟨0, ["JOB SUBMIT", "1", "wc", "linux", "cat log | wc -l"]⟩
    let next : Request := ⟨0, ["JOB NEXT"]⟩
    (serveAll (F := Float) [(0, submit), (0, next)] ⟨∅, {}⟩).1 =
        [(submit, some (.str "1")), (next, some (strs ["1", "wc", "linux", "cat log ", " wc -l|"]))] ∧
      strs ["1", "wc", "linux", "cat log ", " wc -l|"] ≠ strs ["1", "wc", "linux", "cat log | wc -l", join "," []] := by
  intro submit next
  have hs : submit.word = some .jobSubmit := by decide
  have hn : next.word = some .jobNext := by decide
  refine ⟨?_, by simp [strs]⟩
  simp only [serveAll, serve_of_word hs, serve_of_word hn]
  rfl

end RedisOps.Handler
