import RedisOps.Handler.Expiry
import RedisOps.Handler.JobStatus
import RedisOps.Handler.Session

/-!
# What `metric summary` counts (`handler.rs:562-599`)

Jobs are submitted, taken and reported, one command after another, on a store that was empty. `submittedIds` and
`taken` read off the history what there is to count. The queue holds as many payloads as were submitted and not
taken (`QueueDepth`), and the summary says so. The jobs themselves it never sees: it asks for keys that start with
`devops:job:` and have no colon (`jobKeys_nil`).
-/

namespace RedisOps.Handler

open Lib Store Proto

variable {F : Type}

/-! ## What there is to count -/

/-- The id of the job a request submits, when it has the arguments for it. -/
def submittedId (q : Request) : Option String :=
  match q.args.tail with
  | id :: _ :: _ :: _ :: _ => if q.word = some .jobSubmit then some id else none
  | _ => none

/-- The ids of the jobs submitted, in order. -/
def submittedIds (log : List (Request × Option Response)) : List String := log.filterMap fun x => submittedId x.1

def TakesJob (x : Request × Option Response) : Prop := x.1.word = some .jobNext ∧ ∃ job, x.2 = some (strs job)

open Classical in
/-- How many `job next` have handed out a job. -/
noncomputable def taken (log : List (Request × Option Response)) : Nat := log.countP fun x => TakesJob x

open Classical in
/-- How many of the jobs have one of the statuses. -/
noncomputable def jobsWith [F64 F] (now : Nat) (w : World F) (statuses ids : List String) : Nat :=
  ids.countP fun id => ∃ v ∈ statuses, statusAnswer now id w = some (.str v)

/-- The text of a summary. -/
def reportText (metrics jobs passed failed queued queueDepth : Nat) : String :=
  "metrics=" ++ toString metrics ++ ",jobs=" ++ toString jobs ++ ",passed=" ++ toString passed ++ ",failed=" ++
    toString failed ++ ",queued=" ++ toString queued ++ ",queue_depth=" ++ toString queueDepth

/-- The three commands, with job ids free of `:`. -/
def JobCommand (q : Request) : Prop :=
  q.word = some .jobSubmit ∧ (∀ id, q.args.tail.head? = some id → ':' ∉ id.toList) ∨ q.word = some .jobNext ∨
    q.word = some .jobResult

/-! ## The queue -/

/-- The queue holds what was submitted and not taken. -/
def QueueDepth (log : List (Request × Option Response)) (w : World F) : Prop :=
  ∃ rest, Holds w.store rest ∧ (∀ payload ∈ rest, 4 ≤ payload.toList.count '|') ∧
    (submittedIds log).length = taken log + rest.length

section
variable [F64 F]

/-- A command that neither submits nor takes leaves the queue alone. -/
theorem queue_kept {q : Request} {word : Word} (hw : word ∈ jobWords) (hq : q.word = some word)
    (hsubmit : word ≠ .jobSubmit) (hnext : word ≠ .jobNext) (now : Nat) (w : World F) :
    (serve now q w).2.store.lookup queueKey = w.store.lookup queueKey := by
  rw [serve_of_word hq]
  refine (Prog.run_inv (I := fun w' : World F => w'.store.lookup queueKey = w.store.lookup queueKey) ?_
    (all_jobOp hw hq q.ts) rfl).1
  intro o v r v' ho hv hex
  rw [← hv]
  apply exec_frame hex
  intro hkey
  rcases ho.queueOp hkey with ⟨_, -, h, -⟩ | ⟨-, h⟩
  · exact hsubmit (Option.some.inj (hq.symm.trans h))
  · exact hnext (Option.some.inj (hq.symm.trans h))

theorem serve_submit {q : Request} {id name target command : String} {jobArgs : List String}
    (hq : q.word = some .jobSubmit) (hargs : q.args.tail = id :: name :: target :: command :: jobArgs) (now : Nat)
    {w : World F} {rest : List String} (hs : Holds w.store rest) :
    Holds (serve now q w).2.store (rest ++ [jobPayload id name target command jobArgs]) := by
  obtain ⟨hjob, hstatus, -⟩ := job_keys_ne id queueKey (by decide)
  rw [serve_of_word hq, hargs]
  refine holds_congr ?_ (holds_lpush hs (jobPayload id name target command jobArgs))
  change AList.lookup _ (insertNew (insertNew _ _ _) _ _) = _
  rw [lookup_insertNew_ne hstatus.symm, lookup_insertNew_ne hjob.symm]

theorem serve_next_nil {q : Request} (hq : q.word = some .jobNext) (now : Nat) {w : World F}
    (hs : Holds w.store []) :
    (serve now q w).1 = some .nil ∧ Holds (serve now q w).2.store [] := by
  obtain ⟨hhead, htail⟩ := holds_rpop hs
  rw [serve_of_word hq]
  change ((jobNext).run (exec now) w).1 = _ ∧ Holds ((jobNext).run (exec now) w).2.store []
  rw [jobNext_eq, Prog.run_op_some (exec now) rfl, hhead]
  exact ⟨rfl, htail⟩

theorem serve_next_cons {q : Request} (hq : q.word = some .jobNext) (now : Nat) {w : World F} {payload : String}
    {rest : List String} (hs : Holds w.store (payload :: rest)) (hp : 4 ≤ payload.toList.count '|') :
    (∃ job, (serve now q w).1 = some (strs job)) ∧ Holds (serve now q w).2.store rest := by
  obtain ⟨hhead, htail⟩ := holds_rpop hs
  obtain ⟨id, name, target, command, jobArgs, hsplit⟩ := splitn_five.2 hp
  rw [serve_of_word hq]
  change (∃ job, ((jobNext).run (exec now) w).1 = _) ∧ Holds ((jobNext).run (exec now) w).2.store rest
  rw [jobNext_eq, Prog.run_op_some (exec now) rfl, hhead]
  simp only [List.head?_cons, afterPop, hsplit]
  refine ⟨⟨_, rfl⟩, holds_congr ?_ htail⟩
  exact lookup_insertNew_ne (job_keys_ne id queueKey (by decide)).2.1.symm _

omit [F64 F] in
theorem submittedId_of_word {q : Request} {word : Word} (hq : q.word = some word) (hw : word ≠ .jobSubmit) :
    submittedId q = none := by
  unfold submittedId
  split
  · simp [hq, hw]
  · rfl

omit [F64 F] in
theorem submittedId_some {q : Request} {id : String} (h : submittedId q = some id) :
    ∃ name target command jobArgs, q.args.tail = id :: name :: target :: command :: jobArgs := by
  unfold submittedId at h
  split at h
  · rename_i a name target command jobArgs hargs
    split at h
    · obtain rfl := Option.some.inj h
      exact ⟨name, target, command, jobArgs, hargs⟩
    · cases h
  · cases h

/-- A `job submit` with too few arguments. -/
theorem serve_refused {q : Request} (hq : q.word = some .jobSubmit) (hid : submittedId q = none) {now : Nat}
    {w : World F} : (serve now q w).2 = w := by
  have hfew : ∀ id name target command jobArgs, q.args.tail ≠ id :: name :: target :: command :: jobArgs := by
    intro id name target command jobArgs hargs
    simp [submittedId, hargs, hq] at hid
  rw [serve_of_word hq]
  simp only [handle, jobSubmit]
  rfl

omit [F64 F] in
theorem submittedIds_snoc (log : List (Request × Option Response)) (x : Request × Option Response) :
    submittedIds (log ++ [x]) = submittedIds log ++ (submittedId x.1).toList := by
  cases h : submittedId x.1 <;> simp [submittedIds, h]

theorem submittedIds_nil_iff {cmds : List (Nat × Request)} {w : World F} :
    submittedIds (serveAll cmds w).1 = [] ↔ ∀ c ∈ cmds, submittedId c.2 = none := by
  have hmap : submittedIds (serveAll cmds w).1 = (cmds.map Prod.snd).filterMap submittedId := by
    rw [← serveAll_requests cmds w, List.filterMap_map]
    rfl
  rw [hmap, List.filterMap_eq_nil_iff, List.forall_mem_map]

omit [F64 F] in
open Classical in
theorem taken_snoc (log : List (Request × Option Response)) (x : Request × Option Response) :
    taken (log ++ [x]) = taken log + if TakesJob x then 1 else 0 := by
  simp [taken, List.countP_append]

omit [F64 F] in
/-- A command that neither submits nor takes a job. -/
theorem QueueDepth.quiet {log : List (Request × Option Response)} {w w' : World F} {x : Request × Option Response}
    (h : QueueDepth log w) (hsub : submittedId x.1 = none) (htake : ¬TakesJob x)
    (hq : ∀ rest, Holds w.store rest → Holds w'.store rest) : QueueDepth (log ++ [x]) w' := by
  obtain ⟨rest, hs, hp, hlen⟩ := h
  refine ⟨rest, hq rest hs, hp, ?_⟩
  rw [submittedIds_snoc, taken_snoc, hsub, if_neg htake]
  simpa using hlen

/-- **Step.** -/
theorem queueDepth_step (log : List (Request × Option Response)) (w : World F) (now : Nat) (q : Request)
    (hq : JobCommand q) (h : QueueDepth log w) :
    QueueDepth (log ++ [(q, (serve now q w).1)]) (serve now q w).2 := by
  rcases hq with ⟨hq, -⟩ | hq | hq
  · -- `job submit`
    have htake : ¬TakesJob (q, (serve now q w).1) := fun h => absurd (hq.symm.trans h.1) (by decide)
    cases hid : submittedId q with
    | none =>
      refine h.quiet hid htake fun rest => holds_congr ?_
      rw [serve_refused hq hid]
    | some id =>
      obtain ⟨rest, hs, hp, hlen⟩ := h
      obtain ⟨name, target, command, jobArgs, hargs⟩ := submittedId_some hid
      refine ⟨_, serve_submit hq hargs now hs, ?_, ?_⟩
      · intro payload hmem
        rcases List.mem_append.1 hmem with hmem | hmem
        · exact hp payload hmem
        · rw [List.mem_singleton.1 hmem]
          exact count_jobPayload id name target command jobArgs
      · rw [submittedIds_snoc, taken_snoc, hid, if_neg htake]
        simp [hlen, Nat.add_assoc]
  · -- `job next`
    have hid := submittedId_of_word hq (by decide)
    obtain ⟨rest, hs, hp, hlen⟩ := h
    cases rest with
    | nil =>
      obtain ⟨hans, hnil⟩ := serve_next_nil hq now hs
      refine ⟨[], hnil, by simp, ?_⟩
      have htake : ¬TakesJob (q, (serve now q w).1) := by
        rintro ⟨-, job, hjob⟩
        rw [hans] at hjob
        cases hjob
      rw [submittedIds_snoc, taken_snoc, hid, if_neg htake]
      simpa using hlen
    | cons payload rest =>
      obtain ⟨hans, hrest⟩ := serve_next_cons hq now hs (hp payload (by simp))
      refine ⟨rest, hrest, fun p hmem => hp p (List.mem_cons_of_mem _ hmem), ?_⟩
      rw [submittedIds_snoc, taken_snoc, hid, if_pos ⟨hq, hans⟩]
      simp only [List.length_cons, Option.toList_none, List.append_nil] at hlen ⊢
      omega
  · -- `job result`
    refine h.quiet (submittedId_of_word hq (by decide)) (fun h => ?_) fun rest => holds_congr ?_
    · exact absurd (hq.symm.trans h.1) (by decide)
    · exact queue_kept (by decide) hq (by decide) (by decide) now w

/-- **Run.** -/
theorem queueDepth_serveAll {w₀ : World F} (h₀ : w₀.store = ∅) {cmds : List (Nat × Request)}
    (hcmds : ∀ c ∈ cmds, JobCommand c.2) : QueueDepth (serveAll cmds w₀).1 (serveAll cmds w₀).2 := by
  refine serveAll_inv ?_ queueDepth_step cmds hcmds
  exact ⟨[], .inr ⟨by rw [h₀]; rfl, rfl⟩, by simp, by simp [submittedIds, taken]⟩

/-! ## The summary -/

/-- **What is reported.** No job at all, and the length of the queue. -/
theorem serve_summary {q : Request} (hq : q.word = some .metricSummary) (now : Nat)
    {log : List (Request × Option Response)} {w : World F} (h : QueueDepth log w) :
    ∃ m, (serve now q w).1 =
      some (.str (summaryText m 0 {} (Int64.ofNat ((submittedIds log).length - taken log)))) := by
  obtain ⟨rest, hs, -, hlen⟩ := h
  obtain ⟨vals, hvals⟩ := lrange_all w.store metricsKey
  have hdepth : llen w.store queueKey = Int64.ofNat rest.length := by
    rcases hs with h | ⟨h, rfl⟩
    · simp [llen, h]
    · simp only [llen, h]
      rfl
  refine ⟨vals.length, ?_⟩
  rw [serve_of_word hq]
  change (metricSummary.run (exec now) w).1 = _
  rw [run_metricSummary hvals, hdepth, hlen, Nat.add_sub_cancel_left]

omit [F64 F] in
/-- The number of jobs can be read off the text. -/
theorem jobs_of_text {m m' n n' passed failed queued depth : Nat} {c : JobCounts} {d : Int64}
    (h : summaryText m n c d = reportText m' n' passed failed queued depth) : n = n' := by
  have hj : ",jobs=" = "," ++ "jobs=" := by decide
  have hp : ",passed=" = "," ++ "passed=" := by decide
  have hc : ",".toList = [','] := by decide
  unfold summaryText reportText at h
  simp only [hj, hp, String.append_assoc] at h
  have hl := congrArg String.toList h
  simp only [String.toList_append, hc, List.cons_append, List.nil_append] at hl
  have hcut := (toString_cut (by decide) (List.append_cancel_left hl)).2
  exact (toString_cut (by decide) (List.append_cancel_left hcut)).1

/-- **The summary counts the jobs exactly when there are none.** -/
theorem summary_counts_iff {w₀ : World F} (h₀ : w₀.store = ∅) {cmds : List (Nat × Request)}
    (hcmds : ∀ c ∈ cmds, JobCommand c.2) {q : Request} (hq : q.word = some .metricSummary) (now : Nat) :
    let log := (serveAll cmds w₀).1
    let w := (serveAll cmds w₀).2
    let ids := (submittedIds log).dedup
    (∃ metrics, (serve now q w).1 = some (.str (reportText metrics ids.length (jobsWith now w ["passed"] ids)
        (jobsWith now w ["failed"] ids) (jobsWith now w ["queued", "running"] ids)
        ((submittedIds log).length - taken log)))) ↔
      ∀ c ∈ cmds, submittedId c.2 = none := by
  intro log w ids
  obtain ⟨m, hm⟩ := serve_summary hq now (queueDepth_serveAll h₀ hcmds)
  rw [hm, ← submittedIds_nil_iff (w := w₀)]
  constructor
  · rintro ⟨metrics, h⟩
    have hjobs := jobs_of_text (Response.str.inj (Option.some.inj h))
    exact (List.dedup_eq_nil _).1 (List.length_eq_zero_iff.1 hjobs.symm)
  · intro hsub
    have hids : ids = [] := (List.dedup_eq_nil _).2 hsub
    refine ⟨m, ?_⟩
    rw [hids, hsub, List.length_nil, Nat.zero_sub]
    simp only [jobsWith, List.countP_nil]
    rfl

end

/-- Nothing is submitted: a `job submit` without target and command, a `job next`, the result of a job of somebody else. -/
theorem summary_counts_idle :
    let cmds : List (Nat × Request) := [(0, ⟨0, ["JOB SUBMIT", "1", "build"]⟩), (0, ⟨0, ["JOB NEXT"]⟩),
      (1, ⟨1, ["JOB RESULT", "7", "passed", "0", "12", "ok"]⟩)]
    let summary : Request := ⟨2, ["METRIC SUMMARY"]⟩
    ∃ metrics, (serve 2 summary (serveAll (F := Float) cmds ⟨∅, {}⟩).2).1 = some (.str (reportText metrics 0 0 0 0 0)) := by
  intro cmds summary
  have hcmds : ∀ c ∈ cmds, JobCommand c.2 := by
    refine List.forall_mem_cons.2 ⟨.inl ⟨by decide, fun id hid => ?_⟩, List.forall_mem_cons.2 ⟨.inr (.inl (by decide)),
      List.forall_mem_singleton.2 (.inr (.inr (by decide)))⟩⟩
    obtain rfl := Option.some.inj hid
    decide
  have hnone : ∀ c ∈ cmds, submittedId c.2 = none := by
    refine List.forall_mem_cons.2 ⟨rfl, List.forall_mem_cons.2 ⟨rfl, List.forall_mem_singleton.2 ?_⟩⟩
    exact submittedId_of_word (show _ = some Word.jobResult by decide) (by decide)
  have h₀ : (⟨∅, {}⟩ : World Float).store = ∅ := rfl
  obtain ⟨metrics, h⟩ := (summary_counts_iff h₀ hcmds (show summary.word = some .metricSummary by decide) 2).2 hnone
  have hlog : submittedIds (serveAll cmds (⟨∅, {}⟩ : World Float)).1 = [] := submittedIds_nil_iff.2 hnone
  exact ⟨metrics, by simpa [hlog, jobsWith] using h⟩

/-- **A job is submitted** and reported as none. -/
theorem summary_counts_one :
    let submit : Request := ⟨0, ["JOB SUBMIT", "1", "build", "linux", "make"]⟩
    let summary : Request := ⟨0, ["METRIC SUMMARY"]⟩
    (serveAll (F := Float) [(0, submit), (0, summary)] ⟨∅, {}⟩).1 = [(submit, some (.str "1")),
        (summary, some (.str "metrics=0,jobs=0,passed=0,failed=0,queued=0,queue_depth=1"))] ∧
      (submittedIds [(submit, some (.str "1"))]).dedup = ["1"] := by
  intro submit summary
  refine ⟨?_, by decide⟩
  have hs : submit.word = some .jobSubmit := by decide
  have hm : summary.word = some .metricSummary := by decide
  let w : World Float := (serve 0 submit ⟨∅, {}⟩).2
  have hw : w = ((jobSubmit submit.args.tail).run (exec 0) ⟨∅, {}⟩).2 :=
    congrArg Prod.snd (serve_of_word hs 0 _)
  have hans : (serve 0 submit (⟨∅, {}⟩ : World Float)).1 = some (.str "1") := by
    rw [serve_of_word hs]
    rfl
  have hmetrics : lrange w.store metricsKey 0 (-1) = some [] := by rw [hw]; rfl
  have hqueue : llen w.store queueKey = 1 := by rw [hw]; rfl
  have hsummary : (serve 0 summary w).1 = some (.str (summaryText 0 0 {} 1)) := by
    rw [serve_of_word hm]
    change (metricSummary.run (exec 0) w).1 = _
    rw [run_metricSummary hmetrics, hqueue]
    rfl
  have htext : summaryText 0 0 {} 1 = "metrics=0,jobs=0,passed=0,failed=0,queued=0,queue_depth=1" := by decide
  simp only [serveAll]
  rw [hans, hsummary, htext]

end RedisOps.Handler
