import RedisOps.Handler.JobQueue

/-!
# The status of a job

What is kept of a job stands in one flat key space, under keys built from its id, which may be any string.
`jobKey_eq_jobStatusKey` says when two of these keys are the same, `StatusOp` what a command can do to the
status of a job; from them follows when a command for one job changes the status of another.
-/

namespace RedisOps.Handler

open Lib Store Proto

variable {F : Type}

/-! ## Keys -/

theorem jobStatusKey_inj {a b : String} : jobStatusKey a = jobStatusKey b ↔ a = b := by
  simp [jobStatusKey]

/-- The payload of the job `b:status` stands where the status of the job `b` does. -/
theorem jobKey_eq_jobStatusKey {a b : String} : jobKey a = jobStatusKey b ↔ a = b ++ ":status" := by
  simp [jobKey, jobStatusKey, String.append_assoc]

/-- Texts that end in different characters. -/
theorem append_ne_append {u v : String} (hu : u ≠ "") (hv : v ≠ "")
    (h : u.toList.getLast? ≠ v.toList.getLast?) (x y : String) : x ++ u ≠ y ++ v := by
  intro heq
  have hlast := congrArg (fun s => s.toList.getLast?) heq
  simp only [String.toList_append] at hlast
  rw [List.getLast?_append_of_ne_nil _ (by simpa using hu),
    List.getLast?_append_of_ne_nil _ (by simpa using hv)] at hlast
  exact h hlast

theorem jobResultKey_ne_jobStatusKey (a b : String) : jobResultKey a ≠ jobStatusKey b :=
  append_ne_append (by decide) (by decide) (by decide) _ _

theorem jobLogKey_ne_jobStatusKey (a b : String) : jobLogKey a ≠ jobStatusKey b :=
  append_ne_append (by decide) (by decide) (by decide) _ _

theorem queueKey_ne_jobStatusKey (b : String) : queueKey ≠ jobStatusKey b :=
  (job_keys_ne b queueKey (by decide)).2.1.symm

theorem resultsKey_ne_jobStatusKey (b : String) : resultsKey ≠ jobStatusKey b :=
  (job_keys_ne b resultsKey (by decide)).2.1.symm

/-! ## Who writes the status of a job -/

/-- An operation on the status of job `id` is the write of `job submit id`, of `job next` or of
    `job result id`, or that of the payload of the job `id:status`. -/
def StatusOp (id : String) (q : Request) (o : Op F) : Prop :=
  writeKey o = some (jobStatusKey id) →
    (o = .setStr (jobStatusKey id) "queued" ∧ Submits id q) ∨
    (o = .setStr (jobStatusKey id) "running" ∧ q.word = some .jobNext) ∨
    (∃ v, o = .setStr (jobStatusKey id) v ∧ Done v ∧ Reports id q) ∨
    Submits (id ++ ":status") q

theorem JobOp.statusOp {q : Request} {o : Op F} (h : JobOp q o) (id : String) : StatusOp id q o := by
  intro hkey
  cases h with
  | read h => simp [h] at hkey
  | push | pop => exact absurd (Option.some.inj hkey) (queueKey_ne_jobStatusKey id)
  | payload hq => exact .inr (.inr (.inr (jobKey_eq_jobStatusKey.1 (Option.some.inj hkey) ▸ hq)))
  | queued hq =>
    obtain rfl := jobStatusKey_inj.1 (Option.some.inj hkey)
    exact .inl ⟨rfl, hq⟩
  | running hq =>
    obtain rfl := jobStatusKey_inj.1 (Option.some.inj hkey)
    exact .inr (.inl ⟨rfl, hq⟩)
  | status hq hv =>
    obtain rfl := jobStatusKey_inj.1 (Option.some.inj hkey)
    exact .inr (.inr (.inl ⟨_, rfl, hv, hq⟩))
  | result => exact absurd (Option.some.inj hkey) (jobResultKey_ne_jobStatusKey _ id)
  | entry => exact absurd (Option.some.inj hkey) (resultsKey_ne_jobStatusKey id)
  | clearLog | log => exact absurd (Option.some.inj hkey) (jobLogKey_ne_jobStatusKey _ id)

/-! ## Jobs apart -/

/-- The response of `job status id` at time `now`. -/
def statusAnswer [F64 F] (now : Nat) (id : String) (w : World F) : Option Response :=
  ((jobStatus [id]).run (exec now) w).1

section
variable [F64 F]

theorem statusAnswer_eq (now : Nat) (id : String) (w : World F) :
    statusAnswer now id w = some (strOrNil (getStr now w.store (jobStatusKey id)).1) :=
  rfl

theorem statusAnswer_congr {now : Nat} {id : String} {w w' : World F}
    (h : w'.store.lookup (jobStatusKey id) = w.store.lookup (jobStatusKey id)) :
    statusAnswer now id w' = statusAnswer now id w := by
  rw [statusAnswer_eq, statusAnswer_eq, getStr, getStr, h]

theorem statusAnswer_of_str {now : Nat} {id v : String} {w : World F}
    (h : w.store.lookup (jobStatusKey id) = some ⟨.str v, none⟩) :
    statusAnswer now id w = some (.str v) := by
  simp [statusAnswer_eq, getStr, h, Entry.expired, strOrNil]

/-- A command that may write the status of `b` neither as its own nor as a payload leaves it alone. -/
theorem status_kept {q : Request} {word : Word} {b : String} (hw : word ∈ jobWords) (hq : q.word = some word)
    (hnext : word ≠ .jobNext) (hid : q.args.tail.head? ≠ some b) (hsub : ¬Submits (b ++ ":status") q) (now : Nat)
    (w : World F) :
    ((respond q.ts q.args).run (exec now) w).2.store.lookup (jobStatusKey b) =
      w.store.lookup (jobStatusKey b) := by
  rw [respond_of_word hq]
  refine (Prog.run_inv (I := fun w' : World F => w'.store.lookup (jobStatusKey b) = w.store.lookup (jobStatusKey b))
    ?_ (all_jobOp hw hq q.ts) rfl).1
  intro o v r v' ho hv hex
  rw [← hv]
  apply exec_frame hex
  intro hkey
  rcases ho.statusOp b hkey with ⟨-, h⟩ | ⟨-, h⟩ | ⟨_, -, -, h⟩ | h
  · exact hid h.2
  · exact hnext (Option.some.inj (hq.symm.trans h))
  · exact hid h.2
  · exact hsub h

/-- What `job submit` leaves at the key of its payload. -/
theorem submit_payload {q : Request} {a name target command : String} {jobArgs : List String}
    (hq : q.word = some .jobSubmit) (hargs : q.args.tail = a :: name :: target :: command :: jobArgs) (now : Nat)
    (w : World F) :
    ((respond q.ts q.args).run (exec now) w).2.store.lookup (jobKey a) =
      some ⟨.str (jobPayload a name target command jobArgs), none⟩ := by
  have hne : jobKey a ≠ jobStatusKey a := by
    intro h
    have hlen := congrArg String.length (jobKey_eq_jobStatusKey.1 h)
    have hs : (":status" : String).length = 7 := rfl
    rw [String.length_append, hs] at hlen
    omega
  rw [respond_of_word hq, hargs]
  change AList.lookup _ (insertNew (insertNew _ _ _) _ _) = _
  rw [lookup_insertNew_ne hne]
  exact AList.lookup_insert _

/-- **Jobs apart.** A `job submit`, `job result` or `job log` of one job leaves the response of
    `job status` of another as it was, except a `job submit` of the job `b:status`: its payload becomes
    the status of the job `b`. -/
theorem status_kept_iff {q : Request} {word : Word} {a b : String} {args : List String}
    (hq : q.word = some word) (hw : word = .jobSubmit ∨ word = .jobResult ∨ word = .jobLog)
    (hargs : q.args.tail = a :: args) (hab : a ≠ b) (now t : Nat) (w : World F) :
    statusAnswer t b ((respond q.ts q.args).run (exec now) w).2 = statusAnswer t b w ↔
      ¬(word = .jobSubmit ∧ a = b ++ ":status" ∧ ∃ name target command jobArgs,
        args = name :: target :: command :: jobArgs ∧
          statusAnswer t b w ≠ some (.str (jobPayload a name target command jobArgs))) := by
  have hjob : word ∈ jobWords := by rcases hw with rfl | rfl | rfl <;> decide
  have hnext : word ≠ .jobNext := by rcases hw with rfl | rfl | rfl <;> decide
  have hid : q.args.tail.head? ≠ some b := by simpa [hargs] using hab
  by_cases hsub : Submits (b ++ ":status") q
  · obtain rfl : word = .jobSubmit := Option.some.inj (hq.symm.trans hsub.1)
    obtain rfl : a = b ++ ":status" := by simpa [hargs] using hsub.2
    rcases args with _ | ⟨name, _ | ⟨target, _ | ⟨command, jobArgs⟩⟩⟩
    case cons.cons.cons =>
      have hnow := submit_payload hq hargs now w
      rw [jobKey_eq_jobStatusKey.2 rfl] at hnow
      rw [statusAnswer_of_str hnow]
      simp [eq_comm]
    all_goals
      -- too few arguments: nothing is written
      rw [respond_of_word hq, hargs]
      simp [handle, jobSubmit]
  · have hkept := status_kept hjob hq hnext hid hsub now w
    refine ⟨?_, fun _ => statusAnswer_congr hkept⟩
    rintro - ⟨rfl, rfl, -⟩
    exact hsub ⟨hq, by simp [hargs]⟩

end

/-- The result of the job `1` is no news of the job `2`. -/
theorem status_kept_iff_result :
    let w := ((respond 0 ["JOB SUBMIT", "2", "build", "linux", "make"]).run (exec 0) (⟨∅, {}⟩ : World Float)).2
    let w' := ((respond 0 ["JOB RESULT", "1", "0", "250"]).run (exec 0) w).2
    statusAnswer 0 "2" w' = statusAnswer 0 "2" w := by
  intro w w'
  let q : Request := ⟨0, ["JOB RESULT", "1", "0", "250"]⟩
  have hkept := status_kept_iff (q := q) (b := "2") (show q.word = some .jobResult by decide) (.inr (.inl rfl))
    (show q.args.tail = "1" :: ["0", "250"] from rfl) (by decide) 0 0 w
  exact hkept.2 fun h => Word.noConfusion h.1

/-- The job `1` is queued; submitting the job `1:status` makes the payload of that one its status. -/
theorem submit_overwrites_status :
    let w := ((respond 0 ["JOB SUBMIT", "1", "build", "linux", "make"]).run (exec 0) (⟨∅, {}⟩ : World Float)).2
    let w' := ((respond 0 ["JOB SUBMIT", "1:status", "test", "linux", "make"]).run (exec 0) w).2
    statusAnswer 0 "1" w = some (.str "queued") ∧
      statusAnswer 0 "1" w' = some (.str "1:status|test|linux|make|") := by
  exact ⟨rfl, rfl⟩

end RedisOps.Handler
