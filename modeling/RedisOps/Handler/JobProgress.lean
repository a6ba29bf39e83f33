import RedisOps.Handler.JobStatus

/-!
# The status of a job under any interleaving

`job submit` pushes the job onto the queue before it writes the status `queued`; a worker may have taken the
job by then, or even have reported its result. `job next` and `job result` write the status in an operation of
their own too, so that the last one to write wins.

`Ordered` is what keeps the writes in order: a job is taken only once its `job submit` is through and no
result has come in, and a result comes in only once the `job next` that took the job is through. Along every
run whose steps are ordered the status moves forward. The run may hold any number of submissions of the job;
a new one starts the job over.
-/

namespace RedisOps.Handler

open Lib Store Proto

variable {F : Type}

abbrev JobSys (F : Type) := Sys (World F) Request (Op F) Op.Ret Response

/-! ## What a run shows of a job -/

/-- A `job next` takes the job from the queue. -/
def Takes (id : String) (e : JobEvent F) : Prop :=
  ∃ c q payload, e = .did c q (.rpop queueKey) (some payload) none ∧ q.word = some .jobNext ∧
    (splitn 5 '|' payload).head? = some id

/-- A `job next` completes and has returned the job. -/
def NextReturns (id : String) (e : JobEvent F) : Prop :=
  ∃ q rest, e.answered = some (q, .arr (.str id :: rest)) ∧ q.word = some .jobNext

/-- A `job result` of the job completes; one that is refused answers an error instead. -/
def ResultCompletes (id : String) (e : JobEvent F) : Prop :=
  ∃ q v, e.answered = some (q, .str v) ∧ Reports id q

section Events
variable {id : String} {e : JobEvent F}

theorem Takes.not_accepts {A : Request → Prop} (h : Takes id e) : ¬e.Accepts A := by
  obtain ⟨c, q, payload, rfl, -⟩ := h
  exact Event.not_accepts_did

theorem NextReturns.not_accepts {A : Request → Prop} (h : NextReturns id e) : ¬e.Accepts A := by
  obtain ⟨q, rest, hans, -⟩ := h
  intro ha
  simp [ha.answered] at hans

theorem ResultCompletes.not_accepts {A : Request → Prop} (h : ResultCompletes id e) : ¬e.Accepts A := by
  obtain ⟨q, v, hans, -⟩ := h
  intro ha
  simp [ha.answered] at hans

theorem not_reports_of_submits (h : e.Accepts (Submits id)) : ¬e.Accepts (Reports id) := by
  obtain ⟨c, q, rfl, hq⟩ := h
  intro h'
  exact absurd (hq.1.symm.trans (Event.accepts_began h').1) (by decide)

end Events

/-- A `job next` has taken the job and not yet marked it as running. -/
def Holding (id : String) (s : JobSys F) : Prop :=
  ∃ c q k, s.tasks c = some ⟨q, .op (.setStr (jobStatusKey id) "running") k⟩ ∧ q.word = some .jobNext

/-- `P` has happened since a submission of the job last began. -/
def SinceSubmit (id : String) (P : JobEvent F → Prop) (evs : List (JobEvent F)) : Prop :=
  Since (Event.Accepts (Submits id)) P evs

theorem sinceSubmit_snoc {id : String} {P : JobEvent F → Prop} {evs : List (JobEvent F)} {e : JobEvent F} :
    SinceSubmit id P (evs ++ [e]) ↔ P e ∨ ¬e.Accepts (Submits id) ∧ SinceSubmit id P evs :=
  since_snoc

/-- The submission, the taking and the result of the job come one after the other. -/
structure Ordered (id : String) (evs : List (JobEvent F)) (s : JobSys F) (e : JobEvent F) : Prop where
  submit : e.Accepts (Submits id) → ¬Holding id s ∧ ¬s.Serves (Reports id)
  take : Takes id e → ¬s.Serves (Submits id) ∧ ¬SinceSubmit id (Event.Accepts (Reports id)) evs
  result : e.Accepts (Reports id) → ¬s.Serves (Submits id) ∧ ¬Holding id s

/-- Between two commands. -/
theorem ordered_idle {id : String} {evs : List (JobEvent F)} {s : JobSys F} {c : Nat} {q : Request}
    {a : Option Response} (hs : ∀ c, s.tasks c = none) : Ordered id evs s (.began c q a) := by
  have hserves : ∀ A : Request → Prop, ¬s.Serves A := by
    rintro A ⟨c, t, hc, -⟩
    simp [hs c] at hc
  have hhold : ¬Holding id s := by
    rintro ⟨c, q, k, hc, -⟩
    simp [hs c] at hc
  refine ⟨fun _ => ⟨hhold, hserves _⟩, ?_, fun _ => ⟨hserves _, hhold⟩⟩
  rintro ⟨_, _, _, h, -⟩
  cases h

theorem ordered_take {id : String} {evs : List (JobEvent F)} {s : JobSys F} {c : Nat} {q : Request} {o : Op F}
    {r : o.Ret} {a : Option Response} (hs : ∀ c t, s.tasks c = some t → ¬Submits id t.tag)
    (hevs : ∀ e ∈ evs, ¬e.Accepts (Reports id)) : Ordered id evs s (.did c q o r a) where
  submit h := absurd h Event.not_accepts_did
  take _ := by
    constructor
    · rintro ⟨c, t, hc, ht⟩
      exact hs c t hc ht
    · rintro ⟨before, e, after, rfl, he, -⟩
      exact hevs e (by simp) he
  result h := absurd h Event.not_accepts_did

theorem ordered_did {id : String} {evs : List (JobEvent F)} {s : JobSys F} {c : Nat} {q : Request} {o : Op F}
    {r : o.Ret} {a : Option Response} (ho : o ≠ .rpop queueKey) : Ordered id evs s (.did c q o r a) where
  submit h := absurd h Event.not_accepts_did
  take := by
    rintro ⟨_, _, _, h, -⟩
    cases h
    exact absurd rfl ho
  result h := absurd h Event.not_accepts_did

/-- The status of the job is one of `P`, and stays until it is written again. -/
def StatusIn (id : String) (P : String → Prop) (w : World F) : Prop :=
  ∃ v, w.store.lookup (jobStatusKey id) = some ⟨.str v, none⟩ ∧ P v

theorem StatusIn.mono {id : String} {P P' : String → Prop} {w : World F} (h : StatusIn id P w)
    (hP : ∀ v, P v → P' v) : StatusIn id P' w := by
  obtain ⟨v, hv, hPv⟩ := h
  exact ⟨v, hv, hP v hPv⟩

theorem statusIn_congr {id : String} {P : String → Prop} {w w' : World F}
    (h : w'.store.lookup (jobStatusKey id) = w.store.lookup (jobStatusKey id)) (hw : StatusIn id P w) :
    StatusIn id P w' := by
  obtain ⟨v, hv, hP⟩ := hw
  exact ⟨v, h.trans hv, hP⟩

theorem statusIn_sweep {id : String} {P : String → Prop} {now : Nat} {w : World F} (hw : StatusIn id P w) :
    StatusIn id P (w.swept now) := by
  obtain ⟨v, hv, hP⟩ := hw
  refine ⟨v, ?_, hP⟩
  change (sweep now w.store).lookup _ = _
  simp [lookup_sweep, hv, Option.filter_some, Entry.expired]

/-! ## The commands -/

theorem afterPop_op {r : Option String} {o : Op F} {k : o.Ret → Cmd F Response} (h : afterPop r = .op o k) :
    ∃ payload id, r = some payload ∧ (splitn 5 '|' payload).head? = some id ∧
      o = .setStr (jobStatusKey id) "running" := by
  cases r with
  | none => cases h
  | some payload =>
    unfold afterPop at h
    dsimp only at h
    split at h
    · rename_i id _ _ _ _ hsplit
      cases h
      exact ⟨payload, id, rfl, by simp [hsplit], rfl⟩
    · cases h

theorem afterPop_ne_arr {r : Option String} {vals : List Response} :
    (afterPop r : Cmd F Response) ≠ .ret (.arr vals) := by
  intro h
  cases r with
  | none => cases h
  | some payload =>
    unfold afterPop at h
    dsimp only at h
    split at h <;> cases h

/-- The write of a result's status. -/
def Tells (id : String) (o : Op F) : Prop := ∃ v, o = .setStr (jobStatusKey id) v ∧ Done v

/-- The operations of a `job result` that is not refused. -/
theorem jobResult_ops {exitCode durationMs : String} {e d : Int64} (he : parseI64 exitCode = some e)
    (hd : parseI64 durationMs = some d) (id : String) :
    ∃ v text entry, Done v ∧ (jobResult [id, exitCode, durationMs] : Cmd F Response) =
      .op (.setStr (jobStatusKey id) v) fun _ => .op (.setStr (jobResultKey id) text) fun _ =>
        .op (.lpush resultsKey entry) fun _ => .ret (.str v) := by
  have hv : Done (if e = 0 then "passed" else "failed") := by
    by_cases h : e = 0 <;> simp [h, Done]
  simp only [jobResult, parsed, he, hd]
  exact ⟨_, _, _, hv, rfl⟩

/-- `job result` writes the status before it answers anything but an error. -/
theorem must_jobResult {id : String} {args : List String} (h : args.head? = some id) :
    (jobResult args : Cmd F Response).Must (Tells id) fun a => ∀ v, a ≠ .str v := by
  rcases args with _ | ⟨a, _ | ⟨exitCode, _ | ⟨durationMs, _ | _⟩⟩⟩
  case cons.cons.cons.nil =>
    obtain rfl : a = id := by simpa using h
    cases he : parseI64 exitCode with
    | none => simp [jobResult, parsed, he, Prog.Must, errArgMsg]
    | some e =>
      cases hd : parseI64 durationMs with
      | none => simp [jobResult, parsed, he, hd, Prog.Must, errArgMsg]
      | some d =>
        obtain ⟨v, text, entry, hv, hops⟩ := jobResult_ops (F := F) he hd a
        rw [hops]
        exact .inl ⟨v, rfl, hv⟩
  all_goals simp [jobResult, Prog.Must, errArg]

/-! ## Runs -/

section
variable [F64 F] {id : String}

/-- Clients that issue `job` commands; the job `id:status` is left out, whose payload would stand in the place of
    this job's status (`jobKey_eq_jobStatusKey`). -/
def statusRules (id : String) : Rules (World F) Request (Op F) Op.Ret Response Nat where
  exec := exec
  progOf q := respond q.ts q.args
  admitted q := (jobRules (F := F)).admitted q ∧ ¬Submits (id ++ ":status") q
  env w w' := ∃ now, w' = w.swept now

theorem all_status (q : Request) (h : (statusRules (F := F) id).admitted q) :
    ((statusRules (F := F) id).progOf q).All (StatusOp id q) fun _ => True := by
  obtain ⟨⟨word, hw, hq⟩, -⟩ := h
  change Prog.All _ _ (respond q.ts q.args)
  rw [respond_of_word hq]
  exact (all_jobOp hw hq _).mono (fun _ h => h.statusOp id) fun _ h => h

theorem statusIn_setStr {now : Nat} {v : String} {w w' : World F} {r : Unit} {P : String → Prop} (hP : P v)
    (h : (statusRules (F := F) id).exec now (.setStr (jobStatusKey id) v) w = some (r, w')) : StatusIn id P w' := by
  have h' : some ((), { w with store := setStr w.store (jobStatusKey id) v }) = some (r, w') := h
  simp only [Option.some.injEq, Prod.mk.injEq, true_and] at h'
  subst h'
  exact ⟨v, AList.lookup_insert _, hP⟩

variable {w₀ : World F} {evs : List (JobEvent F)} {s s' : JobSys F} {e : JobEvent F}

/-- **What a step can do to the status**: nothing, or it is the write of a submission in progress, of a
    `job next` that holds the job, or of a result. -/
theorem status_step (htr : Trace (statusRules id) w₀ evs s) (hstep : Step (statusRules id) s e s') :
    (∀ P, StatusIn id P s.shared → StatusIn id P s'.shared) ∨ s.Serves (Submits id) ∨
      Holding id s ∧ StatusIn id (· = "running") s'.shared ∨ StatusIn id Done s'.shared := by
  cases hstep with
  | begin c q _ _ => exact .inl fun _ h => h
  | opFails c q o k now _ _ => exact .inl fun _ h => h
  | fails c q _ => exact .inl fun _ h => h
  | env w' hw =>
    obtain ⟨now, rfl⟩ := hw
    exact .inl fun _ h => statusIn_sweep h
  | op c q o k now r w' hc hex =>
    by_cases hkey : writeKey o = some (jobStatusKey id)
    · right
      rcases htr.op_all all_status hc hkey with ⟨-, hq⟩ | ⟨rfl, hq⟩ | ⟨v, rfl, hv, -⟩ | hq
      · exact .inl ⟨c, _, hc, hq⟩
      · exact .inr (.inl ⟨⟨c, q, k, hc, hq⟩, statusIn_setStr rfl hex⟩)
      · exact .inr (.inr (statusIn_setStr hv hex))
      · exact absurd hq (htr.task_reach hc).1.2
    · exact .inl fun _ h => statusIn_congr (exec_frame hex hkey) h

theorem next_task (htr : Trace (statusRules id) w₀ evs s) {c : Nat} {q : Request} {o : Op F}
    {k : o.Ret → Cmd F Response} (hc : s.tasks c = some ⟨q, .op o k⟩) (hw : q.word = some .jobNext) :
    Prog.op o k = jobNext ∨
      ∃ id jobs, o = .setStr (jobStatusKey id) "running" ∧ ∀ a, k a = .ret (strs (id :: jobs)) :=
  reach_respond_next hw (htr.task_reach hc).2

theorem holding_step (htr : Trace (statusRules id) w₀ evs s) (hstep : Step (statusRules id) s e s')
    (h : Holding id s') : Holding id s ∨ Takes id e := by
  obtain ⟨c, q, k, hc, hq⟩ := h
  obtain ⟨hc, -⟩ | ⟨-, hp, -⟩ | ⟨i, o, k', r, hc, -, hp, rfl⟩ := hstep.task_cases hc
  · exact .inl ⟨c, q, k, hc, hq⟩
  · -- its first operation is the pop
    change _ = respond q.ts q.args at hp
    rw [respond_of_word hq, handle, jobNext_eq] at hp
    cases hp
  · obtain heq | ⟨id', jobs, -, hk⟩ := next_task htr hc hq
    · rw [jobNext_eq] at heq
      cases heq
      obtain ⟨payload, id', rfl, hhead, ho⟩ := afterPop_op hp.symm
      have hid : id = id' := jobStatusKey_inj.1 (by simpa using ho)
      exact .inr ⟨c, q, payload, rfl, hq, hid ▸ hhead⟩
    · rw [hk r] at hp
      cases hp

theorem nextReturns_step (htr : Trace (statusRules id) w₀ evs s) (hstep : Step (statusRules id) s e s')
    (h : NextReturns id e) : Holding id s ∧ StatusIn id (· = "running") s'.shared := by
  obtain ⟨q, rest, hans, hq⟩ := h
  cases hstep with
  | begin c q' hc hadm =>
    obtain ⟨a, ha, heq⟩ := Option.map_eq_some_iff.1 hans
    cases heq
    change (respond q.ts q.args : Cmd F Response).answer? = _ at ha
    rw [respond_of_word hq, handle, jobNext_eq] at ha
    cases ha
  | op c q' o k now r w' hc hex =>
    obtain ⟨a, ha, heq⟩ := Option.map_eq_some_iff.1 hans
    cases heq
    have hk := Prog.answer?_eq_some.1 ha
    obtain heq | ⟨id', jobs, rfl, hk'⟩ := next_task htr hc hq
    · rw [jobNext_eq] at heq
      cases heq
      exact absurd hk afterPop_ne_arr
    · rw [hk' r] at hk
      have harr : id' = id ∧ jobs.map Response.str = rest := by simpa [strs] using congrArg Prog.answer? hk
      obtain rfl := harr.1
      exact ⟨⟨c, q, k, hc, hq⟩, statusIn_setStr rfl hex⟩
  | opFails => cases hans
  | fails => cases hans
  | env => cases hans

/-- What holds along an ordered run. A submission in progress has no later step of the job beside or behind it;
    once a result has begun no `job next` holds the job; and a result in progress writes the status before it
    answers, unless it has already. -/
structure StatusInv (id : String) (evs : List (JobEvent F)) (s : JobSys F) : Prop where
  submitting : s.Serves (Submits id) →
    ¬Holding id s ∧ ¬SinceSubmit id (Event.Accepts (Reports id)) evs ∧ ¬SinceSubmit id (NextReturns id) evs
  reported : SinceSubmit id (Event.Accepts (Reports id)) evs → ¬Holding id s
  reporting : s.Serves (Reports id) → SinceSubmit id (Event.Accepts (Reports id)) evs
  completed : SinceSubmit id (ResultCompletes id) evs →
    SinceSubmit id (Event.Accepts (Reports id)) evs ∧ StatusIn id Done s.shared
  returned : SinceSubmit id (NextReturns id) evs → StatusIn id (· ≠ "queued") s.shared
  tells : ∀ c t, s.tasks c = some t → Reports id t.tag →
    t.prog.Must (Tells id) (fun a => ∀ v, a ≠ .str v) ∨ StatusIn id Done s.shared

/-- After a result has begun nothing but another result writes the status. -/
theorem StatusInv.done (hi : StatusInv id evs s) (htr : Trace (statusRules id) w₀ evs s)
    (hstep : Step (statusRules id) s e s') (hrep : SinceSubmit id (Event.Accepts (Reports id)) evs)
    (hd : StatusIn id Done s.shared) : StatusIn id Done s'.shared := by
  rcases status_step htr hstep with hkept | hsub | ⟨hhold, -⟩ | hd'
  · exact hkept _ hd
  · exact absurd hrep (hi.submitting hsub).2.1
  · exact absurd hhold (hi.reported hrep)
  · exact hd'

theorem StatusInv.result (hi : StatusInv id evs s) (htr : Trace (statusRules id) w₀ evs s)
    (hstep : Step (statusRules id) s e s') (h : ResultCompletes id e) :
    s.Serves (Reports id) ∧ StatusIn id Done s'.shared := by
  obtain ⟨q, v, hans, hq⟩ := h
  have hstep' := hstep
  cases hstep with
  | begin c q' hc hadm =>
    obtain ⟨a, ha, heq⟩ := Option.map_eq_some_iff.1 hans
    cases heq
    have hmust := must_jobResult (F := F) hq.2
    change (respond q.ts q.args : Cmd F Response).answer? = _ at ha
    rw [respond_of_word hq.1, handle] at ha
    rw [Prog.answer?_eq_some.1 ha] at hmust
    exact absurd rfl (hmust v)
  | op c q' o k now r w' hc hex =>
    obtain ⟨a, ha, heq⟩ := Option.map_eq_some_iff.1 hans
    cases heq
    have hserves : s.Serves (Reports id) := ⟨c, _, hc, hq⟩
    refine ⟨hserves, ?_⟩
    rcases hi.tells c _ hc hq with (⟨u, rfl, hu⟩ | hk) | hd
    · exact statusIn_setStr hu hex
    · have hmust := hk r
      rw [Prog.answer?_eq_some.1 ha] at hmust
      exact absurd rfl (hmust v)
    · exact hi.done htr hstep' (hi.reporting hserves) hd
  | opFails => cases hans
  | fails => cases hans
  | env => cases hans

/-- **Step.** -/
theorem statusInv_step (htr : Trace (statusRules id) w₀ evs s) (hstep : Step (statusRules id) s e s')
    (ho : Ordered id evs s e) (hi : StatusInv id evs s) : StatusInv id (evs ++ [e]) s' where
  submitting hs := by
    simp only [sinceSubmit_snoc]
    by_cases hbegin : e.Accepts (Submits id)
    · -- the job starts over
      have hhold : ¬Holding id s' := fun h => (holding_step htr hstep h).elim (ho.submit hbegin).1
        fun htake => htake.not_accepts hbegin
      exact ⟨hhold, fun h => h.elim (not_reports_of_submits hbegin) fun h => h.1 hbegin,
        fun h => h.elim (fun hret => hret.not_accepts hbegin) fun h => h.1 hbegin⟩
    · have hsub := (hstep.serves hs).resolve_right hbegin
      obtain ⟨hhold, hrep, hret⟩ := hi.submitting hsub
      refine ⟨fun h => ?_, fun h => ?_, fun h => ?_⟩
      · exact (holding_step htr hstep h).elim hhold fun htake => (ho.take htake).1 hsub
      · exact h.elim (fun hres => (ho.result hres).1 hsub) fun h => hrep h.2
      · exact h.elim (fun hnext => hhold (nextReturns_step htr hstep hnext).1) fun h => hret h.2
  reported hrep hhold := by
    rcases sinceSubmit_snoc.1 hrep with hres | ⟨-, hrep⟩
    · exact (holding_step htr hstep hhold).elim (ho.result hres).2 fun htake => htake.not_accepts hres
    · exact (holding_step htr hstep hhold).elim (hi.reported hrep) fun htake => (ho.take htake).2 hrep
  reporting hs := by
    rcases hstep.serves hs with hs | hres
    · exact sinceSubmit_snoc.2 (.inr ⟨fun hbegin => (ho.submit hbegin).2 hs, hi.reporting hs⟩)
    · exact sinceSubmit_snoc.2 (.inl hres)
  completed h := by
    rcases sinceSubmit_snoc.1 h with hres | ⟨hbegin, h⟩
    · obtain ⟨hs, hd⟩ := hi.result htr hstep hres
      exact ⟨sinceSubmit_snoc.2 (.inr ⟨hres.not_accepts, hi.reporting hs⟩), hd⟩
    · obtain ⟨hrep, hd⟩ := hi.completed h
      exact ⟨sinceSubmit_snoc.2 (.inr ⟨hbegin, hrep⟩), hi.done htr hstep hrep hd⟩
  returned h := by
    rcases sinceSubmit_snoc.1 h with hret | ⟨-, hret⟩
    · exact (nextReturns_step htr hstep hret).2.mono fun v hv => by rw [hv]; decide
    · rcases status_step htr hstep with hkept | hsub | ⟨-, hrun⟩ | hd
      · exact hkept _ (hi.returned hret)
      · exact absurd hret (hi.submitting hsub).2.2
      · exact hrun.mono fun v hv => by rw [hv]; decide
      · exact hd.mono fun v hv => by rcases hv with rfl | rfl <;> decide
  tells c t hc ht := by
    obtain ⟨hc, -⟩ | ⟨-, hp, -⟩ | ⟨now, o, k, r, hc, hex, hp, -⟩ := hstep.task_cases hc
    · apply (hi.tells c t hc ht).imp_right
      intro hd
      exact hi.done htr hstep (hi.reporting ⟨c, t, hc, ht⟩) hd
    · left
      rw [hp]
      change Prog.Must _ _ (respond t.tag.ts t.tag.args)
      rw [respond_of_word ht.1]
      exact must_jobResult ht.2
    · rw [hp]
      rcases hi.tells c _ hc ht with (⟨v, rfl, hv⟩ | hk) | hd
      · exact .inr (statusIn_setStr hv hex)
      · exact .inl (hk r)
      · exact .inr (hi.done htr hstep (hi.reporting ⟨c, _, hc, ht⟩) hd)

/-- **Run.** -/
theorem statusInv_trace (h : GuardedTrace (statusRules id) w₀ (Ordered id) evs s) : StatusInv id evs s := by
  induction h with
  | start =>
    have hnone : ∀ A : Request → Prop, ¬Sys.Serves A (⟨w₀, fun _ => none⟩ : JobSys F) := by
      rintro A ⟨c, t, hc, -⟩
      cases hc
    exact ⟨fun h => absurd h (hnone _), fun h => absurd h not_since_nil, fun h => absurd h (hnone _),
      fun h => absurd h not_since_nil, fun h => absurd h not_since_nil, fun c t hc => by cases hc⟩
  | next htr hstep hord ih => exact statusInv_step htr.trace hstep hord ih

/-- **The status moves forward.** In every state of an ordered run: once a `job next` that returned the job has
    completed, `job status` does not answer `queued`, and once a `job result` of the job has completed it
    answers `passed` or `failed`, as long as no further submission of the job begins. -/
theorem status_moves_forward (h : GuardedTrace (statusRules id) w₀ (Ordered id) evs s) (now : Nat) :
    (SinceSubmit id (NextReturns id) evs → statusAnswer now id s.shared ≠ some (.str "queued")) ∧
      (SinceSubmit id (ResultCompletes id) evs →
        statusAnswer now id s.shared = some (.str "passed") ∨
          statusAnswer now id s.shared = some (.str "failed")) := by
  have hi := statusInv_trace h
  constructor
  · intro hret
    obtain ⟨v, hv, hne⟩ := hi.returned hret
    rw [statusAnswer_of_str hv]
    simpa using hne
  · intro hres
    obtain ⟨v, hv, hd⟩ := (hi.completed hres).2
    rw [statusAnswer_of_str hv]
    rcases hd with rfl | rfl
    · exact .inl rfl
    · exact .inr rfl

end

theorem task_self (w : World F) (tasks : Nat → Option (Task Request (Op F) Op.Ret Response)) (c : Nat)
    (t : Option (Task Request (Op F) Op.Ret Response)) :
    (⟨w, Function.update tasks c t⟩ : JobSys F).tasks c = t :=
  Function.update_self ..

/-- Submitted, taken and reported, one after the other. -/
theorem status_moves_forward_passed :
    ∃ (evs : List (JobEvent Float)) (s : JobSys Float),
      GuardedTrace (statusRules "1") ⟨∅, {}⟩ (Ordered "1") evs s ∧
      SinceSubmit "1" (NextReturns "1") evs ∧ SinceSubmit "1" (ResultCompletes "1") evs ∧
      statusAnswer 0 "1" s.shared ≠ some (.str "queued") ∧
      (statusAnswer 0 "1" s.shared = some (.str "passed") ∨ statusAnswer 0 "1" s.shared = some (.str "failed")) := by
  let submit : Request := ⟨0, ["JOB SUBMIT", "1", "build", "linux", "make"]⟩
  let next : Request := ⟨0, ["JOB NEXT"]⟩
  let result : Request := ⟨0, ["JOB RESULT", "1", "0", "250"]⟩
  have hs : (statusRules (F := Float) "1").progOf submit = jobSubmit ["1", "build", "linux", "make"] :=
    respond_of_word (show submit.word = some .jobSubmit by decide)
  have hn : (statusRules (F := Float) "1").progOf next = jobNext :=
    respond_of_word (show next.word = some .jobNext by decide)
  obtain ⟨v, text, entry, -, hr⟩ := jobResult_ops (F := Float) (show parseI64 "0" = some 0 from rfl)
    (show parseI64 "250" = some 250 from rfl) "1"
  have hr : settle result ((statusRules (F := Float) "1").progOf result) = some ⟨result, _⟩ :=
    congrArg (settle result) ((respond_of_word (show result.word = some .jobResult by decide)).trans hr)
  have t₀ : GuardedTrace (statusRules (F := Float) "1") ⟨∅, {}⟩ (Ordered "1") [] ⟨⟨∅, {}⟩, fun _ => none⟩ := .start
  have t₁ := t₀.next (.begin _ 0 submit rfl ⟨⟨.jobSubmit, by decide, by decide⟩, fun h => absurd h.2 (by decide)⟩)
    (ordered_idle fun c => rfl)
  have t₂ := t₁.next (.op _ 0 submit (.lpush queueKey "1|build|linux|make|") _ 0 () _ (by rw [hs]; rfl) rfl)
    (ordered_did nofun)
  have t₃ := t₂.next (.op _ 0 submit (.setStr (jobKey "1") "1|build|linux|make|") _ 0 () _ rfl rfl)
    (ordered_did nofun)
  have t₄ := t₃.next (.op _ 0 submit (.setStr (jobStatusKey "1") "queued") _ 0 () _ rfl rfl) (ordered_did nofun)
  have t₅ := t₄.next (.begin _ 1 next rfl ⟨⟨.jobNext, by decide, by decide⟩, fun h => absurd h.1 (by decide)⟩)
    (ordered_idle fun c => by rcases c with _ | c <;> rfl)
  have t₆ := t₅.next (.op _ 1 next (.rpop queueKey) _ 0 (some "1|build|linux|make|") _ (by rw [hn]; rfl) rfl)
    (ordered_take
      (by
        rintro (_ | _ | c) t hc ht
        · cases (show none = some t from hc)
        · obtain rfl := Option.some.inj (show some ⟨next, _⟩ = some t from hc)
          exact absurd ht.1 (by decide)
        · cases (show none = some t from hc))
      (by
        simp only [List.nil_append, List.forall_mem_append, List.forall_mem_singleton]
        exact ⟨⟨⟨⟨fun h => absurd (Event.accepts_began h).1 (by decide), Event.not_accepts_did⟩,
          Event.not_accepts_did⟩, Event.not_accepts_did⟩, fun h => absurd (Event.accepts_began h).1 (by decide)⟩))
  have t₇ := t₆.next (.op _ 1 next (.setStr (jobStatusKey "1") "running") _ 0 () _ rfl rfl) (ordered_did nofun)
  have t₈ := t₇.next (.begin _ 2 result rfl ⟨⟨.jobResult, by decide, by decide⟩, fun h => absurd h.1 (by decide)⟩)
    (ordered_idle fun c => by rcases c with _ | _ | c <;> rfl)
  have t₉ := t₈.next (.op _ 2 result (.setStr (jobStatusKey "1") v) _ 0 () _
    ((task_self ..).trans hr) rfl) (ordered_did nofun)
  have t₁₀ := t₉.next (.op _ 2 result (.setStr (jobResultKey "1") text) _ 0 () _ (task_self ..) rfl)
    (ordered_did nofun)
  have t₁₁ := t₁₀.next (.op _ 2 result (.lpush resultsKey entry) _ 0 () _ (task_self ..) rfl)
    (ordered_did nofun)
  obtain ⟨hforward, hdone⟩ := status_moves_forward t₁₁ 0
  refine ⟨_, _, t₁₁, ?returns, ?completes, hforward ?returns, hdone ?completes⟩
  case returns =>
    -- what follows is the `job result`
    refine sinceSubmit_snoc.2 (.inr ⟨Event.not_accepts_did, ?_⟩)
    refine sinceSubmit_snoc.2 (.inr ⟨Event.not_accepts_did, ?_⟩)
    refine sinceSubmit_snoc.2 (.inr ⟨Event.not_accepts_did, ?_⟩)
    refine sinceSubmit_snoc.2 (.inr ⟨fun h => absurd (Event.accepts_began h).1 (by decide), ?_⟩)
    exact sinceSubmit_snoc.2 (.inl ⟨next, _, rfl, by decide⟩)
  case completes => exact sinceSubmit_snoc.2 (.inl ⟨result, v, rfl, by decide, rfl⟩)

/-- A worker takes the job between the push of `job submit` and its last write: the job runs, and its status is
    `queued`. -/
theorem queued_after_next :
    ∃ (evs : List (JobEvent Float)) (s : JobSys Float), Trace jobRules ⟨∅, {}⟩ evs s ∧
      evs.filterMap Event.begun =
        [⟨0, ["JOB SUBMIT", "1", "build", "linux", "make"]⟩, ⟨0, ["JOB NEXT"]⟩] ∧
      SinceSubmit "1" (NextReturns "1") evs ∧ statusAnswer 0 "1" s.shared = some (.str "queued") := by
  let submit : Request := ⟨0, ["JOB SUBMIT", "1", "build", "linux", "make"]⟩
  let next : Request := ⟨0, ["JOB NEXT"]⟩
  have t₃ := @trace_pushed ["1", "build", "linux", "make"] "1|build|linux|make|" _ rfl rfl
  have t₄ := t₃.next (.op _ 1 next (.rpop queueKey) _ 0 (some "1|build|linux|make|") _ rfl rfl)
  have t₅ := t₄.next (.op _ 1 next (.setStr (jobStatusKey "1") "running") _ 0 () _ rfl rfl)
  have t₆ := t₅.next (.op _ 0 submit (.setStr (jobKey "1") "1|build|linux|make|") _ 0 () _ rfl rfl)
  have t₇ := t₆.next (.op _ 0 submit (.setStr (jobStatusKey "1") "queued") _ 0 () _ rfl rfl)
  refine ⟨_, _, t₇, rfl, ?_, rfl⟩
  -- the two writes of `job submit` come after the `job next`
  refine sinceSubmit_snoc.2 (.inr ⟨Event.not_accepts_did, ?_⟩)
  refine sinceSubmit_snoc.2 (.inr ⟨Event.not_accepts_did, ?_⟩)
  exact sinceSubmit_snoc.2 (.inl ⟨next, _, rfl, by decide⟩)

end RedisOps.Handler
