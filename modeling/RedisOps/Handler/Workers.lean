import RedisOps.Handler.JobPayload
import RedisOps.Proto.Rounds

/-!
# Workers and the queue

A worker is a client of the store whose requests depend on the answers it gets. What the queue guarantees to `job next` under
any interleaving and what the worker makes of an answer together bound what the store is told about a job.

`conversation` is what one client of a run has asked and been answered, in the worker's terms. The workers are those clients
whose conversation is one of the main loop (`Working`); the others may send anything that leaves the queue to the `job`
commands.

* `handed_le_takes` — no client is handed a job more often than it has taken it from the queue.
* `pool_reports_le` — so all the workers together report on no job more often than it was submitted, as long as the ids that
  are submitted have no `|`: a job `a|b` is handed out under the id `a`.
-/

namespace RedisOps.Handler

open Lib Store Proto

variable {F : Type}

/-! ## A client of a run -/

/-- What a step tells client `c`, or is told by it. A client whose handler dies gets no answer. -/
def said (c : Nat) : JobEvent F → List Said
  | .began c' q answer =>
    if c' = c then .asked (q.args.map utf8) :: answer.toList.map fun a => .got (q.args.map utf8) (some a.toClient) else []
  | .did c' q _ _ answer => if c' = c then answer.toList.map fun a => .got (q.args.map utf8) (some a.toClient) else []
  | .died c' q => if c' = c then [.got (q.args.map utf8) none] else []
  | .env => []

def conversation (c : Nat) (evs : List (JobEvent F)) : List Said := evs.flatMap (said c)

/-- A payload of the job `id`. -/
def payloadOf (id : Bytes) (payload : String) : Bool := (splitn 5 '|' payload).head?.map utf8 = some id

/-- What client `c` has taken from the queue. -/
def takesOf (c : Nat) (evs : List (JobEvent F)) : List String := takes (evs.filter fun e => e.client? = some c)

theorem conversation_snoc (c : Nat) (evs : List (JobEvent F)) (e : JobEvent F) :
    conversation c (evs ++ [e]) = conversation c evs ++ said c e := by
  simp [conversation]

theorem takesOf_snoc (c : Nat) (evs : List (JobEvent F)) (e : JobEvent F) :
    takesOf c (evs ++ [e]) = takesOf c evs ++ if e.client? = some c then takeOf e else [] := by
  unfold takesOf
  rw [List.filter_append]
  by_cases h : e.client? = some c
  · simp [takes, h]
  · simp [takes, h]

theorem said_of_ne {c : Nat} {e : JobEvent F} (h : e.client? ≠ some c) : said c e = [] := by
  cases e <;> simp_all [said, Event.client?]

/-- A step takes for one client at most. -/
theorem sum_takesOf_le (W : Finset Nat) (p : String → Bool) (evs : List (JobEvent F)) :
    ∑ c ∈ W, (takesOf c evs).countP p ≤ (takes evs).countP p := by
  induction evs using List.reverseRecOn with
  | nil => simp [takesOf, takes]
  | append_singleton evs e ih =>
    have hlast : ∑ c ∈ W, (if e.client? = some c then takeOf e else []).countP p ≤ (takeOf e).countP p := by
      cases hc : e.client? with
      | none => simp
      | some c =>
        have hif : ∀ d, (if (some c : Option Nat) = some d then takeOf e else []).countP p =
            if c = d then (takeOf e).countP p else 0 := by
          intro d
          by_cases hd : c = d <;> simp [hd]
        simp only [hif, Finset.sum_ite_eq]
        split
        · exact Nat.le_refl _
        · exact Nat.zero_le _
    simp only [takesOf_snoc, takes_snoc, List.countP_append, Finset.sum_add_distrib]
    exact Nat.add_le_add ih hlast

/-! ## What the answers hand out -/

theorem args_jobNext {args : List String} (h : args.map utf8 = jobNextArgs) : args = ["job next"] := by
  cases args with
  | nil => cases h
  | cons a args =>
    rw [List.map_cons, jobNextArgs, List.cons.injEq] at h
    obtain ⟨ha, hargs⟩ := h
    rw [utf8_injective ha, List.map_eq_nil_iff.1 hargs]

theorem word_jobNext {q : Request} (h : q.args.map utf8 = jobNextArgs) : q.word = some .jobNext := by
  rw [Request.word, args_jobNext h]
  rfl

/-- The five fields of a job hand out its id. -/
theorem jobOf_strs {id : String} {jobs : List String} {b : Bytes} (h : jobOf (strs (id :: jobs)).toClient = some b) :
    b = utf8 id := by
  simp only [jobOf, strs, List.map_cons, Response.toClient, Response.toClientAll] at h
  split at h
  · cases h
  · simpa using h.symm

theorem hands_of_ne {args : List Bytes} (h : args ≠ jobNextArgs) (id : Bytes) (answer : Option ClientResponse) :
    Said.hands id (.got args answer) = false := by
  simp [Said.hands, handOf, h]

theorem not_hands_of_jobOf {args : List Bytes} {answer : Option ClientResponse} (h : answer.bind jobOf = none)
    (id : Bytes) : Said.hands id (.got args answer) = false := by
  simp [Said.hands, handOf, h]

/-! ## Runs -/

section
variable [F64 F]

/-- The `job` commands, and whatever leaves the queue alone. -/
def poolRules : Rules (World F) Request (Op F) Op.Ret Response Nat where
  exec := exec
  progOf q := respond q.ts q.args
  admitted q := (∃ word ∈ jobWords, q.word = some word) ∨
    (respond q.ts q.args : Cmd F Response).All (fun o => writeKey o ≠ some queueKey) fun _ => True
  env w w' := ∃ now, w' = w.swept now

theorem queueing_poolRules : Queueing (poolRules (F := F)) := by
  refine ⟨rfl, ?_, fun _ _ h => h⟩
  rintro q (h | h)
  · exact all_job q h
  · exact Prog.All.mono h (fun o ho hkey => absurd hkey ho) fun _ h => h

/-- What a sandbox sends about itself leaves the queue alone. -/
theorem admitted_sandbox {q : Request}
    (h : q.word = some .sandboxRegister ∨ q.word = some .sandboxClaim ∨ q.word = some .sandboxRelease) :
    (poolRules (F := F)).admitted q := by
  have hkey : ∀ id, sandboxKey id ≠ queueKey ∧ sandboxStatusKey id ≠ queueKey ∧ sandboxJobKey id ≠ queueKey := by
    intro id
    obtain ⟨h, hstatus, hjob⟩ := startsWith_sandbox_keys id (le_refl "devops:sandbox:".toList.length)
    have hqueue : startsWith queueKey "devops:sandbox:" = false := by decide
    exact ⟨ne_of_startsWith (h.trans (by decide)) hqueue, ne_of_startsWith (hstatus.trans (by decide)) hqueue,
      ne_of_startsWith (hjob.trans (by decide)) hqueue⟩
  have hset : ∀ key val, key ≠ queueKey → writeKey (.setStr key val : Op F) ≠ some queueKey := by
    intro key val h heq
    exact h (Option.some.inj heq)
  right
  rcases h with h | h | h <;> rw [respond_of_word h] <;> simp only [handle]
  · unfold sandboxRegister
    split
    · exact all_await (hset _ _ (hkey _).1) fun _ => all_await (hset _ _ (hkey _).2.1) fun _ => trivial
    · trivial
  · unfold sandboxClaim
    split
    · exact all_await (hset _ _ (hkey _).2.1) fun _ => all_await (hset _ _ (hkey _).2.2) fun _ => trivial
    · trivial
  · unfold sandboxRelease
    split
    · refine all_await (hset _ _ (hkey _).2.1) fun _ => all_await ?_ fun _ => trivial
      intro heq
      exact (hkey _).2.2 (Option.some.inj heq)
    · trivial

variable {w₀ : World F} {evs : List (JobEvent F)} {s s' : Sys (World F) Request (Op F) Op.Ret Response}
  {e : JobEvent F}

/-- Every job of the id that client `c` was handed it has taken, and one more if the answer is still to come. -/
structure HandedInv (c : Nat) (id : Bytes) (evs : List (JobEvent F)) (s : Sys (World F) Request (Op F) Op.Ret Response) :
    Prop where
  le : (conversation c evs).countP (Said.hands id) ≤ (takesOf c evs).countP (payloadOf id)
  coming : ∀ q job k, s.tasks c = some ⟨q, .op (.setStr (jobStatusKey job) "running") k⟩ →
    q.word = some .jobNext → utf8 job = id →
    (conversation c evs).countP (Said.hands id) + 1 ≤ (takesOf c evs).countP (payloadOf id)

omit [F64 F] in
/-- A step that hands nothing to the client and does not bring it before an answer. -/
theorem HandedInv.quiet {c : Nat} {id : Bytes} (h : HandedInv c id evs s)
    (hsaid : (said c e).countP (Said.hands id) = 0)
    (htasks : ∀ q job k, s'.tasks c = some ⟨q, .op (.setStr (jobStatusKey job) "running") k⟩ →
      q.word = some .jobNext → s'.tasks c = s.tasks c) :
    HandedInv c id (evs ++ [e]) s' := by
  constructor
  · rw [conversation_snoc, takesOf_snoc, List.countP_append, List.countP_append, hsaid]
    have hle := h.le
    omega
  · intro q job k htask hw hid
    rw [conversation_snoc, takesOf_snoc, List.countP_append, List.countP_append, hsaid]
    have hle := h.coming q job k (htasks q job k htask hw ▸ htask) hw hid
    omega

omit [F64 F] in
/-- The task behind a step of client `c` is one of the request of the step. -/
theorem task_of_settle {c : Nat} {q q' : Request} {p p' : Cmd F Response}
    {tasks : Nat → Option (Task Request (Op F) Op.Ret Response)}
    (h : Function.update tasks c (settle q p) c = some ⟨q', p'⟩) : q' = q ∧ p' = p := by
  rw [Function.update_self] at h
  have heq := settle_some h
  cases heq
  exact ⟨rfl, rfl⟩

omit [F64 F] in
/-- The pop of a `job next`. -/
theorem handedInv_pop {c : Nat} {id : Bytes} {q : Request} {r : Option String} {w' : World F} (hword : q.word = some .jobNext)
    (h : HandedInv c id evs s) :
    HandedInv c id (evs ++ [.did c q (.rpop queueKey) r (afterPop r : Cmd F Response).answer?])
      ⟨w', Function.update s.tasks c (settle q (afterPop r))⟩ := by
  have hquiet : ∀ a : Response, (afterPop r : Cmd F Response) = .ret a → jobOf a.toClient = none →
      HandedInv c id (evs ++ [.did c q (.rpop queueKey) r (afterPop r : Cmd F Response).answer?])
        ⟨w', Function.update s.tasks c (settle q (afterPop r))⟩ := by
    intro a ha hjob
    rw [ha]
    apply h.quiet
    · have hnone : (some a.toClient).bind jobOf = none := hjob
      have hnot : Said.hands id (.got (q.args.map utf8) (some a.toClient)) = false := not_hands_of_jobOf hnone id
      simp [said, hnot]
    · intro q' job k htask
      cases (task_of_settle htask).2
  cases r with
  | none => exact hquiet .nil rfl rfl
  | some payload =>
    by_cases hfive : ∃ id name target command jobArgs, splitn 5 '|' payload = [id, name, target, command, jobArgs]
    · obtain ⟨job, name, target, command, jobArgs, hsplit⟩ := hfive
      have hafter : (afterPop (some payload) : Cmd F Response) =
          .op (.setStr (jobStatusKey job) "running") fun _ => .ret (strs [job, name, target, command, jobArgs]) := by
        simp only [afterPop, hsplit]
      rw [hafter]
      have hsaid : said c (.did c q (.rpop queueKey) (some payload) none : JobEvent F) = [] := by simp [said]
      have htakes : takesOf c (evs ++ [.did c q (.rpop queueKey) (some payload) none]) = takesOf c evs ++ [payload] := by
        rw [takesOf_snoc, takeOf_rpop hword]
        simp [Event.client?]
      constructor
      · rw [Prog.answer?_op, conversation_snoc, hsaid, List.append_nil, htakes, List.countP_append]
        exact Nat.le_trans h.le (Nat.le_add_right _ _)
      · intro q' job' k htask _ hid
        obtain ⟨-, hprog⟩ := task_of_settle htask
        injection hprog with hop
        injection hop with hkey
        have hjob : job' = job := jobStatusKey_inj.1 hkey
        have hpayload : payloadOf id payload = true := by
          rw [payloadOf, hsplit, List.head?_cons, Option.map_some, ← hjob, hid]
          exact decide_eq_true rfl
        rw [Prog.answer?_op, conversation_snoc, hsaid, List.append_nil, htakes, List.countP_append, List.countP_singleton,
          if_pos hpayload]
        exact Nat.add_le_add_right h.le 1
    · have hafter : (afterPop (some payload) : Cmd F Response) = .ret (errUnknown "malformed job payload") := by
        unfold afterPop
        dsimp only
        split
        · rename_i job name target command jobArgs hsplit
          exact absurd ⟨_, _, _, _, _, hsplit⟩ hfive
        · rfl
      exact hquiet _ hafter rfl

/-- **Step.** -/
theorem handedInv_step {c : Nat} {id : Bytes} (htr : Trace poolRules w₀ evs s) (hstep : Step poolRules s e s')
    (h : HandedInv c id evs s) : HandedInv c id (evs ++ [e]) s' := by
  by_cases hc : e.client? = some c
  · cases hstep with
    | begin d q hd hadm =>
      obtain rfl : d = c := by simpa [Event.client?] using hc
      change HandedInv d id (evs ++ [.began d q (respond q.ts q.args : Cmd F Response).answer?])
        ⟨s.shared, Function.update s.tasks d (settle q (respond q.ts q.args))⟩
      by_cases hword : q.word = some .jobNext
      · -- the pop comes before any answer
        have hprog : (respond q.ts q.args : Cmd F Response) = .op (.rpop queueKey) afterPop :=
          (respond_of_word hword).trans jobNext_eq
        rw [hprog]
        apply h.quiet
        · simp [said, Said.hands]
        · intro q' job k htask
          cases (task_of_settle htask).2
      · apply h.quiet
        · have hnot := hands_of_ne (fun hargs => hword (word_jobNext hargs)) id
          have hasked : Said.hands id (.asked (q.args.map utf8)) = false := rfl
          cases (respond q.ts q.args : Cmd F Response).answer? <;> simp [said, hasked, hnot]
        · intro q' job k htask hw
          rw [(task_of_settle htask).1] at hw
          exact absurd hw hword
    | op d q o k now r w' hd hex =>
      obtain rfl : d = c := by simpa [Event.client?] using hc
      by_cases hword : q.word = some .jobNext
      · rcases reach_respond_next hword (htr.task_reach hd).2 with heq | ⟨job, jobs, rfl, hk⟩
        · rw [jobNext_eq] at heq
          cases heq
          exact handedInv_pop hword h
        · -- the answer of a job that was popped before
          rw [hk r]
          have hsaid : said d (.did d q (.setStr (jobStatusKey job) "running") r (some (strs (job :: jobs))) : JobEvent F) =
              [.got (q.args.map utf8) (some (strs (job :: jobs)).toClient)] := by simp [said]
          have hle : (conversation d evs ++ [Said.got (q.args.map utf8) (some (strs (job :: jobs)).toClient)]).countP
              (Said.hands id) ≤ (takesOf d evs).countP (payloadOf id) := by
            rw [List.countP_append, List.countP_singleton]
            split
            · rename_i hhands
              have hid : utf8 job = id := by
                have hhand : handOf (q.args.map utf8) (some (strs (job :: jobs)).toClient) = some id :=
                  of_decide_eq_true hhands
                rw [handOf] at hhand
                split at hhand
                · exact (jobOf_strs hhand).symm
                · cases hhand
              exact h.coming q job k hd hword hid
            · exact h.le
          refine ⟨?_, ?_⟩
          · rw [Prog.answer?_ret, conversation_snoc, hsaid, takesOf_snoc, List.countP_append (p := payloadOf id)]
            exact Nat.le_trans hle (Nat.le_add_right _ _)
          · intro q' job' k' htask
            cases (task_of_settle htask).2
      · apply h.quiet
        · have hnot := hands_of_ne (fun hargs => hword (word_jobNext hargs)) id
          cases (k r).answer? <;> simp [said, hnot]
        · intro q' job k htask hw
          rw [(task_of_settle htask).1] at hw
          exact absurd hw hword
    | opFails d q o k now hd hex | fails d q hd =>
      obtain rfl : d = c := by simpa [Event.client?] using hc
      apply h.quiet
      · simp [said, not_hands_of_jobOf]
      · intro q' job k htask
        change Function.update s.tasks d none d = some _ at htask
        rw [Function.update_self] at htask
        cases htask
    | env w' hw => cases hc
  · apply h.quiet
    · rw [said_of_ne hc]
      rfl
    · intro q job k htask _
      obtain ⟨hold, -⟩ | ⟨-, -, rfl⟩ | ⟨_, _, _, _, -, -, -, rfl⟩ := hstep.task_cases htask
      · rw [htask, hold]
      · exact absurd rfl hc
      · exact absurd rfl hc

/-- **Run.** -/
theorem handed_le_takes (h : Trace poolRules w₀ evs s) (c : Nat) (id : Bytes) :
    (conversation c evs).countP (Said.hands id) ≤ (takesOf c evs).countP (payloadOf id) := by
  have hinv : HandedInv c id evs s := by
    induction h with
    | start =>
      refine ⟨Nat.le_refl _, ?_⟩
      intro q job k htask
      cases htask
    | next htr hstep ih => exact handedInv_step htr hstep ih
  exact hinv.le

/-- The ids that are submitted are not cut by the queue. -/
def PlainIds (subs : List Request) : Prop := ∀ q ∈ subs, ∀ id, q.args.tail.head? = some id → '|' ∉ id.toList

omit [F64 F] in
/-- What is queued under an id is what was submitted under it. -/
theorem countP_pushes {subs : List Request} {payloads : List String} (hplain : PlainIds subs)
    (h : List.Forall₂ Payload subs payloads) (id : String) :
    payloads.countP (payloadOf (utf8 id)) = subs.countP fun q => q.args.tail.head? = some id := by
  induction h with
  | nil => rfl
  | @cons q payload subs payloads hpayload _ ih =>
    obtain ⟨hq, hsubs⟩ := List.forall_mem_cons.1 hplain
    obtain ⟨job, name, target, command, jobArgs, hargs, rfl⟩ := hpayload
    have hjob : q.args.tail.head? = some job := by rw [hargs]; rfl
    have hiff : payloadOf (utf8 id) (jobPayload job name target command jobArgs) = true ↔
        q.args.tail.head? = some id := by
      rw [payloadOf, head?_splitn_jobPayload (hq job hjob), hjob, decide_eq_true_eq, Option.map_some, Option.some.injEq,
        Option.some.injEq]
      exact ⟨fun heq => utf8_injective heq, fun heq => heq ▸ rfl⟩
    simp only [List.countP_cons, ih hsubs, hiff, decide_eq_true_eq]

/-- **At most once.** Any number of clients, any interleaving of their operations, any of them dying on the way. All
    the workers together report on no job more often than they were handed it, that is no more often than a payload with this
    first field was taken from the queue, and that is no more often than one was pushed: where the ids have no `|`, no more
    often than the job was submitted. -/
theorem pool_reports_le (h₀ : w₀.store = ∅) (h : Trace poolRules w₀ evs s) (W : Finset Nat) (worker : Nat → WorkerId)
    (hW : ∀ c ∈ W, ∃ p waits, Working (worker c) (conversation c evs) p waits) (id : String) :
    ∑ c ∈ W, (conversation c evs).countP (Said.reports (utf8 id)) ≤
        ∑ c ∈ W, (conversation c evs).countP (Said.hands (utf8 id)) ∧
      ∑ c ∈ W, (conversation c evs).countP (Said.hands (utf8 id)) ≤ (takes evs).countP (payloadOf (utf8 id)) ∧
      (takes evs).countP (payloadOf (utf8 id)) ≤ (pushes evs).countP (payloadOf (utf8 id)) ∧
      (PlainIds (submissions evs) → ∑ c ∈ W, (conversation c evs).countP (Said.reports (utf8 id)) ≤
        (submissions evs).countP fun q => q.args.tail.head? = some id) := by
  have hreports : ∑ c ∈ W, (conversation c evs).countP (Said.reports (utf8 id)) ≤
      ∑ c ∈ W, (conversation c evs).countP (Said.hands (utf8 id)) := by
    apply Finset.sum_le_sum
    intro c hc
    obtain ⟨p, waits, hworking⟩ := hW c hc
    exact hworking.reports_le (utf8 id)
  have hhands : ∑ c ∈ W, (conversation c evs).countP (Said.hands (utf8 id)) ≤ (takes evs).countP (payloadOf (utf8 id)) :=
    calc ∑ c ∈ W, (conversation c evs).countP (Said.hands (utf8 id))
        ≤ ∑ c ∈ W, (takesOf c evs).countP (payloadOf (utf8 id)) :=
          Finset.sum_le_sum fun c _ => handed_le_takes h c (utf8 id)
      _ ≤ (takes evs).countP (payloadOf (utf8 id)) := sum_takesOf_le W _ evs
  have htakes : (takes evs).countP (payloadOf (utf8 id)) ≤ (pushes evs).countP (payloadOf (utf8 id)) := by
    obtain ⟨rest, hrest, -⟩ := (queueing_poolRules.queueInv h₀ h).fifo
    rw [hrest, List.countP_append]
    exact Nat.le_add_right _ _
  refine ⟨hreports, hhands, htakes, fun hplain => ?_⟩
  rw [← countP_pushes hplain (submissions_pushes (fun _ => rfl) h)]
  exact (hreports.trans hhands).trans htakes

end

/-- A request that is not answered at once. -/
theorem begins {w₀ : World Float} {evs : List (JobEvent Float)} {s : Sys (World Float) Request (Op Float) Op.Ret Response}
    (h : Trace poolRules w₀ evs s) (c : Nat) {q : Request} {word : Word} (hword : q.word = some word)
    {o : Op Float} {k : o.Ret → Cmd Float Response} (hprog : handle q.ts q.args.tail word = .op o k)
    (hadm : (poolRules (F := Float)).admitted q) (hfree : s.tasks c = none) :
    Trace poolRules w₀ (evs ++ [.began c q none])
      ⟨s.shared, Function.update s.tasks c (some ⟨q, .op o k⟩)⟩ := by
  have hbegin := h.next (.begin s c q hfree hadm)
  have hp : (poolRules (F := Float)).progOf q = .op o k := (respond_of_word hword).trans hprog
  rwa [hp] at hbegin

/-- One client submits a job; the worker does all the others. -/
def submitOne : Request := ⟨0, ["job submit", "1", "build", "linux", "make"]⟩
def enlist : Request := ⟨0, ["sandbox register", "sb", "linux", "a"]⟩
def fetch : Request := ⟨0, ["job next"]⟩
def claimOne : Request := ⟨0, ["sandbox claim", "sb", "1"]⟩
def logOne : Request := ⟨0, ["job log", "1", "SECURITY: command blocked by policy"]⟩
def reportOne : Request := ⟨0, ["job result", "1", "126", "0"]⟩

def workerOne : WorkerId := ⟨utf8 "sb", utf8 "linux", utf8 "a"⟩

/-- The worker is handed the job, claims its sandbox, logs that the command is blocked, and reports. -/
def blockedTalk : List Said :=
  [.asked (enlist.args.map utf8), .got (enlist.args.map utf8) (some (Response.str "sb").toClient),
    .asked jobNextArgs, .got jobNextArgs (some (strs ["1", "build", "linux", "make", ""]).toClient),
    .asked (claimOne.args.map utf8), .got (claimOne.args.map utf8) (some (Response.int 1).toClient),
    .asked (logOne.args.map utf8), .got (logOne.args.map utf8) (some (Response.int 1).toClient),
    .asked (reportOne.args.map utf8)]

theorem working_blockedTalk : ∃ p waits, Working workerOne blockedTalk p waits := by
  have w₀ : Working workerOne [] (register workerOne) false := .start
  have w₁ := w₀.ask.get (some (Response.str "sb").toClient)
  have w₂ := (w₁.round fun _ => .blocked).ask.get (some (strs ["1", "build", "linux", "make", ""]).toClient)
  have w₃ := w₂.ask.get (some (Response.int 1).toClient)
  have w₄ := w₃.ask.get (some (Response.int 1).toClient)
  exact ⟨_, _, w₄.ask⟩

/-- The job is taken before its submitter has set its status. -/
theorem trace_blocked : ∃ (evs : List (JobEvent Float)) (s : Sys (World Float) Request (Op Float) Op.Ret Response),
    Trace poolRules ⟨∅, {}⟩ evs s ∧ conversation 1 evs = blockedTalk ∧ submissions evs = [submitOne] := by
  have job : ∀ {q : Request} {word : Word}, q.word = some word → word ∈ jobWords → (poolRules (F := Float)).admitted q :=
    fun hq hw => .inl ⟨_, hw, hq⟩
  have t₀ : Trace (poolRules (F := Float)) ⟨∅, {}⟩ [] ⟨⟨∅, {}⟩, fun _ => none⟩ := .start
  have t₁ := begins t₀ 0 (q := submitOne) rfl rfl (job rfl (by decide)) rfl
  have t₂ := t₁.next (.op _ 0 submitOne _ _ 0 () _ rfl rfl)
  have t₃ := begins t₂ 1 (q := enlist) rfl rfl (admitted_sandbox (.inl rfl)) rfl
  have t₄ := t₃.next (.op _ 1 enlist _ _ 0 () _ rfl rfl)
  have t₅ := t₄.next (.op _ 1 enlist _ _ 0 () _ rfl rfl)
  have t₆ := begins t₅ 1 (q := fetch) rfl rfl (job rfl (by decide)) rfl
  have t₇ := t₆.next (.op _ 1 fetch _ _ 0 (some "1|build|linux|make|") _ rfl rfl)
  have t₈ := t₇.next (.op _ 1 fetch _ _ 0 () _ rfl rfl)
  have t₉ := begins t₈ 1 (q := claimOne) rfl rfl (admitted_sandbox (.inr (.inl rfl))) rfl
  have t₁₀ := t₉.next (.op _ 1 claimOne _ _ 0 () _ rfl rfl)
  have t₁₁ := t₁₀.next (.op _ 1 claimOne _ _ 0 () _ rfl rfl)
  have t₁₂ := begins t₁₁ 1 (q := logOne) rfl rfl (job rfl (by decide)) rfl
  have t₁₃ := t₁₂.next (.op _ 1 logOne _ _ 0 [] _ rfl rfl)
  have t₁₄ := t₁₃.next (.op _ 1 logOne _ _ 0 false _ rfl rfl)
  have t₁₅ := t₁₄.next (.op _ 1 logOne _ _ 0 () _ rfl rfl)
  have t₁₆ := begins t₁₅ 1 (q := reportOne) rfl rfl (job rfl (by decide)) rfl
  exact ⟨_, _, t₁₆, rfl, rfl⟩

theorem pool_reports_le_blocked :
    ∃ (evs : List (JobEvent Float)) (s : Sys (World Float) Request (Op Float) Op.Ret Response),
      Trace poolRules ⟨∅, {}⟩ evs s ∧
      (∀ c ∈ ({1} : Finset Nat), ∃ p waits, Working workerOne (conversation c evs) p waits) ∧
      (conversation 1 evs).countP (Said.reports (utf8 "1")) = 1 ∧ submissions evs = [submitOne] ∧
      ∑ c ∈ ({1} : Finset Nat), (conversation c evs).countP (Said.reports (utf8 "1")) ≤
        (submissions evs).countP fun q => q.args.tail.head? = some "1" := by
  obtain ⟨evs, s, h, hconv, hsubs⟩ := trace_blocked
  have hW : ∀ c ∈ ({1} : Finset Nat), ∃ p waits, Working workerOne (conversation c evs) p waits := by
    intro c hc
    rw [Finset.mem_singleton.1 hc, hconv]
    exact working_blockedTalk
  refine ⟨evs, s, h, hW, ?_, hsubs, (pool_reports_le rfl h {1} (fun _ => workerOne) hW "1").2.2.2 ?_⟩
  · rw [hconv]
    decide
  · rw [hsubs]
    intro q hq id hid
    obtain rfl := List.mem_singleton.1 hq
    cases hid
    decide

end RedisOps.Handler
