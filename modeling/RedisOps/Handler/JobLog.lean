import RedisOps.Handler.JobQueue
import RedisOps.Lib.Par
import RedisOps.Store.Lists

/-!
# Two `job log` commands at once (`handler.rs:470-485`)

`job log` copies the whole log of a job, deletes it and pushes the copy and the new line back one by one, each
under a lock of its own. `LogStage` says where a command stands. Whatever the order: what is in the end in the log,
with what the commands have deleted, is what there was, with the new lines and what the commands have read
(`log_conserved`). So lines are lost or doubled exactly when a command deletes something other than what it has
read.
-/

namespace RedisOps.Handler

open Lib Store Proto

variable {F : Type} [F64 F]

/-! ## Where a command stands -/

inductive LogStage where
  | reading
  | deleting (vals : List String)
  | pushing (vals : List String)

/-- What is left to do. -/
def LogStage.prog (key text : String) : LogStage → Cmd F Response
  | .reading => do
    let vals ← await (.lrange key 0 (-1))
    let _ ← await (.del key)
    lpushEach key (vals ++ [text])
    pure (.int 1)
  | .deleting vals => do
    let _ ← await (.del key)
    lpushEach key (vals ++ [text])
    pure (.int 1)
  | .pushing vals => do
    lpushEach key vals
    pure (.int 1)

omit [F64 F] in
theorem jobLog_eq (id line : String) (more : List String) :
    (jobLog (id :: line :: more) : Cmd F Response) = LogStage.reading.prog (jobLogKey id) (join " " (line :: more)) :=
  rfl

omit [F64 F] in
theorem LogStage.of_ret {key text : String} {stage : LogStage} {a : Response}
    (h : (stage.prog key text : Cmd F Response) = .ret a) : stage = .pushing [] := by
  cases stage with
  | pushing vals =>
    cases vals with
    | nil => rfl
    | cons v vals => cases h
  | _ => cases h

/-- The lines a stage is still to push. -/
def LogStage.owed (text : String) : LogStage → Multiset String
  | .reading => {text}
  | .deleting vals => ↑(vals ++ [text])
  | .pushing vals => ↑vals

def LogStage.toRead : LogStage → Nat
  | .reading => 1
  | _ => 0

/-- What one operation of a command does to its stage and to the log. -/
inductive LogStep (key text : String) (s : Data F) : LogStage → (o : Op F) → o.Ret → LogStage → Data F → Prop
  | read : LogStep key text s .reading (.lrange key 0 (-1)) (listAt s key) (.deleting (listAt s key)) s
  | delete (vals : List String) (r : Bool) : LogStep key text s (.deleting vals) (.del key) r
      (.pushing (vals ++ [text])) (del s key).2
  | push (v : String) (vals : List String) : LogStep key text s (.pushing (v :: vals)) (.lpush key v) ()
      (.pushing vals) (lpush s key v)

/-- **Step.** -/
theorem logStep {key text : String} {st : LogStage} {o : Op F} {k : o.Ret → Cmd F Response} {now : Nat}
    {w w' : World F} {r : o.Ret} (hp : st.prog key text = .op o k) (hx : exec now o w = some (r, w'))
    (hlen : st = .reading → (listAt w.store key).length < 2 ^ 63) :
    ∃ st', k r = st'.prog key text ∧ LogStep key text w.store st o r st' w'.store := by
  cases st with
  | reading =>
    cases hp
    rw [exec, lrange_listAt (hlen rfl)] at hx
    cases hx
    exact ⟨.deleting _, rfl, .read⟩
  | deleting vals =>
    cases hp
    cases hx
    exact ⟨.pushing _, rfl, .delete vals _⟩
  | pushing vals =>
    cases vals with
    | nil => cases hp
    | cons v vals =>
      cases hp
      cases hx
      exact ⟨.pushing _, rfl, .push v vals⟩

/-! ## What the commands have read and deleted -/

section
variable {ι : Type} [DecidableEq ι]

/-- A turn of one of the commands. -/
abbrev LogTurn (ι F : Type) := Prog.Turn ι (Op F) Op.Ret (World F)

def readOf (i : ι) : LogTurn ι F → List String
  | ⟨j, _, .lrange _ _ _, vals⟩ => if j = i then vals else []
  | _ => []

def deletedOf (i : ι) : LogTurn ι F → List String
  | ⟨j, w, .del key, _⟩ => if j = i then listAt w.store key else []
  | _ => []

/-- The lines the command `i` has read. -/
def linesRead (i : ι) (turns : List (LogTurn ι F)) : List String := turns.flatMap (readOf i)

/-- The lines that were in the log when the command `i` deleted it. -/
def linesDeleted (i : ι) (turns : List (LogTurn ι F)) : List String := turns.flatMap (deletedOf i)

/-- The lists of a run keep an `i64` length: a command that is still to read may double what there is. -/
def Fits [Fintype ι] (key : String) (text : ι → String) (st : ι → LogStage) (s : Data F) : Prop :=
  ((listAt s key).length + ∑ i, ((st i).owed (text i)).card) * 2 ^ (∑ i, (st i).toRead) < 2 ^ 63

omit [F64 F] [DecidableEq ι] in
theorem Fits.length_lt [Fintype ι] {key : String} {text : ι → String} {st : ι → LogStage} {s : Data F}
    (h : Fits key text st s) : (listAt s key).length < 2 ^ 63 := by
  refine lt_of_le_of_lt ?_ h
  exact (Nat.le_add_right _ _).trans (Nat.le_mul_of_pos_right _ (by positivity))

omit [F64 F] in
/-- The program of a command that has moved on. -/
theorem update_prog {key : String} {text : ι → String} {st : ι → LogStage} {ps : ι → Cmd F Response} {i : ι}
    {stage' : LogStage} {p : Cmd F Response} (hps : ∀ i, ps i = (st i).prog key (text i))
    (hp : p = stage'.prog key (text i)) :
    ∀ j, Function.update ps i p j = (Function.update st i stage' j).prog key (text j) := by
  intro j
  by_cases hj : j = i
  · subst hj
    simp [hp]
  · simp [hj, hps j]

/-! ## Conservation -/

variable [Fintype ι]

omit [F64 F] in
/-- A sum over the commands when one of them moves on. -/
theorem sum_update_stage {M : Type} [AddCommMonoid M] (f : ι → LogStage → M) (st : ι → LogStage) (i : ι)
    (st' : LogStage) :
    ∑ j, f j (Function.update st i st' j) + f i (st i) = ∑ j, f j (st j) + f i st' := by
  have hrest : ∑ j ∈ Finset.univ.erase i, f j (Function.update st i st' j) =
      ∑ j ∈ Finset.univ.erase i, f j (st j) := by
    apply Finset.sum_congr rfl
    intro j hj
    rw [Function.update_of_ne (Finset.ne_of_mem_erase hj)]
  rw [← Finset.add_sum_erase _ _ (Finset.mem_univ i), hrest, ← Finset.add_sum_erase _ _ (Finset.mem_univ i),
    Function.update_self]
  abel

variable {key : String} {text : ι → String} {st : ι → LogStage} {s s' : Data F} {i : ι} {stage stage' : LogStage}
  {o : Op F} {r : o.Ret}

omit [F64 F] in
theorem LogStep.listOrNone {line : String} (h : LogStep key line s stage o r stage' s') (hs : ListOrNone s key) :
    ListOrNone s' key := by
  cases h with
  | read => exact hs
  | delete => exact (listAt_del s key).2
  | push v => exact (listAt_lpush hs v).2

omit [F64 F] in
/-- The bound on the length holds on. -/
theorem LogStep.fits (h : LogStep key (text i) s stage o r stage' s') (hst : st i = stage) (hs : ListOrNone s key)
    (hf : Fits key text st s) : Fits key text (Function.update st i stage') s' := by
  have howed := sum_update_stage (fun j x => (x.owed (text j)).card) st i stage'
  have hread := sum_update_stage (fun _ x => x.toRead) st i stage'
  rw [hst] at howed hread
  unfold Fits at hf ⊢
  generalize ∑ j, ((Function.update st i stage' j).owed (text j)).card = owed' at howed ⊢
  generalize ∑ j, (Function.update st i stage' j).toRead = n' at hread ⊢
  generalize ∑ j, ((st j).owed (text j)).card = owed at howed hf
  generalize ∑ j, (st j).toRead = n at hread hf
  cases h with
  | read =>
    -- the command that has read owes the whole list too
    simp only [LogStage.owed, LogStage.toRead, Multiset.coe_card, Multiset.card_singleton, List.length_append,
      List.length_singleton] at howed hread
    obtain rfl : n = n' + 1 := by omega
    calc ((listAt s key).length + owed') * 2 ^ n'
        ≤ (2 * ((listAt s key).length + owed)) * 2 ^ n' := Nat.mul_le_mul_right _ (by omega)
      _ = ((listAt s key).length + owed) * 2 ^ (n' + 1) := by ring
      _ < 2 ^ 63 := hf
  | delete =>
    simp only [LogStage.owed, LogStage.toRead, add_zero] at howed hread
    obtain rfl : owed' = owed := by omega
    subst hread
    rw [(listAt_del s key).1]
    exact lt_of_le_of_lt (Nat.mul_le_mul_right _ (by simp)) hf
  | push v =>
    simp only [LogStage.owed, LogStage.toRead, Multiset.coe_card, List.length_cons, add_zero] at howed hread
    subst hread
    rw [(listAt_lpush hs v).1, List.length_cons]
    rwa [show (listAt s key).length + 1 + owed' = (listAt s key).length + owed by omega]

omit [F64 F] in
theorem sum_readOf (w : World F) : ∑ j, (readOf j ⟨i, w, o, r⟩ : Multiset String) = readOf i ⟨i, w, o, r⟩ := by
  apply Finset.sum_eq_single_of_mem i (Finset.mem_univ i)
  intro j _ hj
  cases o <;> simp [readOf, hj.symm]

omit [F64 F] in
theorem sum_deletedOf (w : World F) : ∑ j, (deletedOf j ⟨i, w, o, r⟩ : Multiset String) = deletedOf i ⟨i, w, o, r⟩ := by
  apply Finset.sum_eq_single_of_mem i (Finset.mem_univ i)
  intro j _ hj
  cases o <;> simp [deletedOf, hj.symm]

omit [F64 F] in
/-- **Step.** -/
theorem LogStep.conserved {w : World F} (h : LogStep key (text i) w.store stage o r stage' s') (hst : st i = stage)
    (hs : ListOrNone w.store key) :
    (listAt s' key : Multiset String) + ∑ j, (Function.update st i stage' j).owed (text j) +
        deletedOf i ⟨i, w, o, r⟩ =
      listAt w.store key + ∑ j, (st j).owed (text j) + readOf i ⟨i, w, o, r⟩ := by
  have howed := sum_update_stage (fun j x => x.owed (text j)) st i stage'
  rw [hst] at howed
  generalize ∑ j, (Function.update st i stage' j).owed (text j) = owed' at howed ⊢
  generalize ∑ j, (st j).owed (text j) = owed at howed ⊢
  cases h with
  | read =>
    simp only [LogStage.owed, ← Multiset.coe_add, ← add_assoc, Multiset.coe_singleton] at howed
    simp [readOf, deletedOf, add_right_cancel howed, add_assoc]
  | delete =>
    simp only [LogStage.owed] at howed
    simp [readOf, deletedOf, (listAt_del _ key).1, add_right_cancel howed, add_comm]
  | push v vals =>
    have howed' : owed = v ::ₘ owed' := by
      simp only [LogStage.owed, ← Multiset.cons_coe, Multiset.add_cons, ← Multiset.cons_add] at howed
      exact (add_right_cancel howed).symm
    simp [readOf, deletedOf, (listAt_lpush hs v).1, howed', ← Multiset.cons_coe]

/-- **Run.** The log at the end, with what was deleted, is the log at the start, with the lines that were still to
    be pushed and what was read. -/
theorem log_conserved {ps : ι → Cmd F Response} {w w' : World F} {now : Nat} {turns : List (LogTurn ι F)}
    {answers : ι → Response} (h : Prog.Interleaved (exec now) ps w turns answers w')
    (hps : ∀ i, ps i = (st i).prog key (text i)) (hs : ListOrNone w.store key) (hf : Fits key text st w.store) :
    (listAt w'.store key : Multiset String) + ∑ i, ↑(linesDeleted i turns) =
      listAt w.store key + ∑ i, (st i).owed (text i) + ∑ i, ↑(linesRead i turns) := by
  induction h generalizing st with
  | done s hret =>
    have howed : ∀ i, (st i).owed (text i) = 0 := by
      intro i
      rw [LogStage.of_ret ((hps i).symm.trans (hret i))]
      rfl
    simp [linesDeleted, linesRead, howed]
  | @turn ps i o k w w₁ t r turns answers hp hx _ ih =>
    obtain ⟨stage', hk, hstep⟩ := logStep ((hps i).symm.trans hp) hx fun _ => hf.length_lt
    have hrun := ih (update_prog hps hk) (hstep.listOrNone hs) (hstep.fits rfl hs hf)
    have hone := hstep.conserved rfl hs
    simp only [linesDeleted, linesRead, List.flatMap_cons, ← Multiset.coe_add, Finset.sum_add_distrib, sum_readOf,
      sum_deletedOf] at hrun hone ⊢
    rw [add_left_comm, hrun, ← add_assoc, add_comm (_ : Multiset String) (listAt w₁.store key + _), hone, add_assoc]

/-! ## The first delete -/

omit [Fintype ι] in
/-- A command that pushes neither reads nor deletes any more. -/
theorem pushing_quiet {ps : ι → Cmd F Response} {w w' : World F} {now : Nat} {turns : List (LogTurn ι F)}
    {answers : ι → Response} (h : Prog.Interleaved (exec now) ps w turns answers w') {line : String}
    {vals : List String} (hp : ps i = (LogStage.pushing vals).prog key line) :
    linesRead i turns = [] ∧ linesDeleted i turns = [] := by
  induction h generalizing vals with
  | done s hret => exact ⟨rfl, rfl⟩
  | @turn ps j o k w w₁ t r turns answers hj hx _ ih =>
    simp only [linesRead, linesDeleted, List.flatMap_cons] at ih ⊢
    by_cases hji : j = i
    · subst hji
      rw [hp] at hj
      cases vals with
      | nil => cases hj
      | cons v vals =>
        cases hj
        exact @ih vals (by simp; rfl)
    · obtain ⟨hr, hd⟩ := @ih vals (by rwa [Function.update_of_ne (Ne.symm hji)])
      rw [hr, hd]
      cases o <;> simp [readOf, deletedOf, hji]

/-- What a command has copied so far. -/
def LogStage.copied : LogStage → List String
  | .deleting vals => vals
  | _ => []

omit [Fintype ι] in
/-- **The first command that deletes has read what it deletes.** -/
theorem first_delete [Nonempty ι] {ps : ι → Cmd F Response} {w w' : World F} {now : Nat}
    {turns : List (LogTurn ι F)} {answers : ι → Response}
    (h : Prog.Interleaved (exec now) ps w turns answers w') (hps : ∀ i, ps i = (st i).prog key (text i))
    (hf : (listAt w.store key).length < 2 ^ 63)
    (hst : ∀ i, st i = .reading ∨ st i = .deleting (listAt w.store key)) :
    ∃ i, linesDeleted i turns = (st i).copied ++ linesRead i turns := by
  induction h generalizing st with
  | done s hret =>
    have hi := LogStage.of_ret ((hps (Classical.arbitrary ι)).symm.trans (hret _))
    rcases hst (Classical.arbitrary ι) with hr | hr <;> rw [hr] at hi <;> cases hi
  | @turn ps i o k w w₁ t r turns answers hp hx hrest ih =>
    obtain ⟨stage', hk, hstep⟩ := logStep ((hps i).symm.trans hp) hx fun _ => hf
    generalize hsi : st i = stage at hstep
    generalize hw₁ : w₁.store = s₁ at hstep
    simp only [linesRead, linesDeleted, List.flatMap_cons] at ih ⊢
    cases hstep with
    | read =>
      obtain ⟨j, hj⟩ := ih (update_prog hps hk) (by rwa [hw₁]) (by
        intro j
        rw [hw₁]
        by_cases hji : j = i
        · simp [hji]
        · simpa [hji] using hst j)
      refine ⟨j, ?_⟩
      by_cases hji : j = i
      · subst hji
        simpa [readOf, deletedOf, LogStage.copied, hsi] using hj
      · simpa [readOf, deletedOf, hji, Ne.symm hji] using hj
    | delete vals =>
      obtain ⟨hread, hdel⟩ := pushing_quiet hrest (i := i) (by simp; exact hk)
      simp only [linesRead, linesDeleted] at hread hdel
      obtain rfl : vals = listAt w.store key := by simpa [hsi] using hst i
      exact ⟨i, by simp [readOf, deletedOf, LogStage.copied, hsi, hread, hdel]⟩
    | push v => simpa [hsi] using hst i

end

/-! ## Two commands -/

/-- **Nothing is lost or doubled exactly when each of the two commands deletes what it has read.** -/
theorem two_job_logs {id : String} {q : Fin 2 → Request} {line : Fin 2 → String} {more : Fin 2 → List String}
    (hw : ∀ i, (q i).word = some .jobLog) (hargs : ∀ i, (q i).args.tail = id :: line i :: more i) {w w' : World F}
    (hlog : ListOrNone w.store (jobLogKey id)) (hlen : 24 * (listAt w.store (jobLogKey id)).length < 2 ^ 63)
    {now : Nat} {turns : List (LogTurn (Fin 2) F)} {answers : Fin 2 → Response}
    (h : Prog.Interleaved (exec now) (fun i => respond (q i).ts (q i).args) w turns answers w') :
    (listAt w'.store (jobLogKey id)).Perm (listAt w.store (jobLogKey id) ++
        [join " " (line 0 :: more 0), join " " (line 1 :: more 1)]) ↔
      ∀ i, (linesDeleted i turns).Perm (linesRead i turns) := by
  let text : Fin 2 → String := fun i => join " " (line i :: more i)
  have hps : ∀ i, (respond (q i).ts (q i).args : Cmd F Response) =
      LogStage.reading.prog (jobLogKey id) (text i) := by
    intro i
    rw [respond_of_word (hw i), hargs i]
    exact jobLog_eq id (line i) (more i)
  have hf : Fits (jobLogKey id) text (fun _ => .reading) w.store := by
    simp only [Fits, LogStage.owed, LogStage.toRead, Multiset.card_singleton, Fin.sum_univ_two]
    omega
  have hall := log_conserved h hps hlog hf
  simp only [LogStage.owed, Fin.sum_univ_two] at hall
  have hnew : (↑(listAt w.store (jobLogKey id) ++ [text 0, text 1]) : Multiset String) =
      listAt w.store (jobLogKey id) + ({text 0} + {text 1}) := by
    rw [← Multiset.coe_add]
    rfl
  rw [← Multiset.coe_eq_coe, Fin.forall_fin_two, ← Multiset.coe_eq_coe, ← Multiset.coe_eq_coe, hnew]
  constructor
  · intro hperm
    rw [hperm] at hall
    have hsum := add_left_cancel hall
    -- the first delete is harmless, so the other one must be too
    obtain ⟨i, hi⟩ := first_delete h hps hf.length_lt fun _ => .inl rfl
    fin_cases i
    · simp only [Fin.zero_eta, LogStage.copied, List.nil_append] at hi
      rw [hi] at hsum
      exact ⟨by rw [hi], add_left_cancel hsum⟩
    · simp only [Fin.mk_one, LogStage.copied, List.nil_append] at hi
      rw [hi] at hsum
      exact ⟨add_right_cancel hsum, by rw [hi]⟩
  · rintro ⟨h₀, h₁⟩
    rw [h₀, h₁] at hall
    exact add_right_cancel hall

/-- The log of the job `1` holds one line, and two commands are to add a line each. -/
def bootLog : World Float := ⟨lpush ∅ (jobLogKey "1") "boot", {}⟩

def addLine (i : Fin 2) : Request := ⟨0, ["JOB LOG", "1", ![ "x", "y"] i]⟩

theorem respond_addLine (i : Fin 2) :
    (respond (addLine i).ts (addLine i).args : Cmd Float Response) = jobLog ["1", ![ "x", "y"] i] :=
  respond_of_word (show (addLine i).word = some .jobLog from rfl)

/-- One command after the other. -/
theorem two_job_logs_serial :
    ∃ (turns : List (LogTurn (Fin 2) Float)) (answers : Fin 2 → Response) (w' : World Float),
      Prog.Interleaved (exec 0) (fun i => respond (addLine i).ts (addLine i).args) bootLog turns answers w' ∧
      (listAt w'.store (jobLogKey "1")).Perm ["boot", "x", "y"] := by
  obtain ⟨x, hx, hret, hdel⟩ : ∃ x, Prog.schedule (exec 0) [0, 0, 0, 0, 1, 1, 1, 1, 1]
      (fun i => respond (addLine i).ts (addLine i).args) bootLog = some x ∧
      (∀ i, x.2.1 i = .ret (.int 1)) ∧ ∀ i, (linesDeleted i x.1).Perm (linesRead i x.1) := by
    simp only [respond_addLine]
    refine ⟨_, rfl, ?_, ?_⟩ <;> intro i <;> fin_cases i
    · rfl
    · rfl
    · exact .rfl
    · exact .rfl
  have hrun := Prog.interleaved_of_schedule hx hret
  refine ⟨_, _, _, hrun, ?_⟩
  exact (two_job_logs (fun _ => rfl) (fun _ => rfl) (listAt_lpush (listAt_of_none rfl).2 "boot").2 (by decide) hrun).2
    hdel

/-- **A line is lost.** Both commands read the log before either of them deletes it; the second delete takes the
    line of the first command with it. -/
theorem two_job_logs_lose :
    ∃ (turns : List (LogTurn (Fin 2) Float)) (answers : Fin 2 → Response) (w' : World Float),
      Prog.Interleaved (exec 0) (fun i => respond (addLine i).ts (addLine i).args) bootLog turns answers w' ∧
      listAt bootLog.store (jobLogKey "1") = ["boot"] ∧ listAt w'.store (jobLogKey "1") = ["y", "boot"] ∧
      ¬(["y", "boot"] : List String).Perm (["boot"] ++ ["x", "y"]) := by
  obtain ⟨x, hx, hret, hlog⟩ : ∃ x, Prog.schedule (exec 0) [0, 1, 0, 0, 0, 1, 1, 1]
      (fun i => respond (addLine i).ts (addLine i).args) bootLog = some x ∧
      (∀ i, x.2.1 i = .ret (.int 1)) ∧ listAt x.2.2.store (jobLogKey "1") = ["y", "boot"] := by
    simp only [respond_addLine]
    refine ⟨_, rfl, ?_, rfl⟩
    intro i
    fin_cases i <;> rfl
  exact ⟨_, _, _, Prog.interleaved_of_schedule hx hret, rfl, hlog, by decide⟩

end RedisOps.Handler
