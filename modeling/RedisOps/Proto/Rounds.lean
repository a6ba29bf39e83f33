import Mathlib.Data.List.TakeWhile
import RedisOps.Lib.Protocol
import RedisOps.Proto.Response
import RedisOps.Proto.Worker

/-!
# The worker's main loop (`sandbox/src/main.cpp:232-338`)

A worker asks for a job, and what it sends next depends on the answer: only an id it was handed is an id it reports on
(`Working.reports_le`).

| here | there |
| --- | --- |
| `register`  | the start (`:232-238`) |
| `round`     | one round of the loop, up to the answers of `job_next` (`:247-266`) and behind them (`:273-338`) |
| `Working`   | the loop, with any answers and any outcome of a job |

The outcome of a job is not the worker's choice: it is a parameter of every round.
-/

namespace RedisOps.Proto

open Lib

abbrev Talk := Prog (List Bytes) (fun _ => Option ClientResponse) Unit

/-- Requests whose answers are not looked at. -/
def sendEach : List (List Bytes) → Talk
  | [] => .ret ()
  | args :: rest => .op args fun _ => sendEach rest

/-- The requests for one job; `runJob` with ids that are any bytes. -/
def jobScript (sandboxId jobId : Bytes) : Handled → List (List Bytes)
  | .blocked =>
    [sandboxClaim sandboxId jobId, jobLog jobId (utf8 "SECURITY: command blocked by policy")] ++
      jobResult jobId 126 0 :: [sandboxRelease sandboxId]
  | .ran netns output exitCode durationMs =>
    ([sandboxClaim sandboxId jobId] ++
      (if netns then [jobLog jobId (utf8 "sandbox: network namespace created")] else []) ++
      [jobLog jobId (utf8 "sandbox: starting execution")] ++
      output.map (fun chunk => jobLog jobId (chunk.line.take 1000))) ++
      jobResult jobId exitCode durationMs :: [sandboxRelease sandboxId]

/-- What is logged. -/
def Handled.lines : Handled → List Bytes
  | .blocked => [utf8 "SECURITY: command blocked by policy"]
  | .ran netns output _ _ =>
    (if netns then [utf8 "sandbox: network namespace created"] else []) ++
      utf8 "sandbox: starting execution" :: output.map fun chunk => chunk.line.take 1000

def Handled.exitCode : Handled → Int32
  | .blocked => 126
  | .ran _ _ exitCode _ => exitCode

def Handled.durationMs : Handled → Int64
  | .blocked => 0
  | .ran _ _ _ durationMs => durationMs

def jobNextArgs : List Bytes := [utf8 "job next"]

/-- The id in an answer to `job next`, unless the worker passes it over. -/
def jobOf (r : ClientResponse) : Option Bytes :=
  if r.tag = .nil ∨ r.tag = .error ∨ r.arr.length < 5 then none else r.arr.head?.map ClientResponse.str

/-- What names a worker on its command line. -/
structure WorkerId where
  sandboxId : Bytes
  targetType : Bytes
  addr : Bytes

/-- The start; without an answer, or on an error, the worker exits. -/
def register (w : WorkerId) : Talk :=
  .op [utf8 "sandbox register", w.sandboxId, w.targetType, w.addr] fun answer =>
    match answer with
    | none => .fail
    | some r => if r.tag = .error then .fail else .ret ()

/-- One round; `handled` is what becomes of the job in the answer. -/
def round (w : WorkerId) (handled : ClientResponse → Handled) : Talk :=
  .op jobNextArgs fun answer =>
    match answer with
    | none => .ret ()
    | some r =>
      match jobOf r with
      | none => .ret ()
      | some id => sendEach (jobScript w.sandboxId id (handled r))

inductive Said where
  | asked (args : List Bytes)
  | got (args : List Bytes) (answer : Option ClientResponse)

/-- The conversations of a worker, where it is in its program, and whether it waits for an answer. -/
inductive Working (w : WorkerId) : List Said → Talk → Bool → Prop
  | start : Working w [] (register w) false
  | round {said} (handled) (h : Working w said (.ret ()) false) : Working w said (round w handled) false
  | ask {said args k} (h : Working w said (.op args k) false) : Working w (said ++ [.asked args]) (.op args k) true
  | get {said args k} (r) (h : Working w said (.op args k) true) : Working w (said ++ [.got args r]) (k r) false

/-! ## What a worker reports -/

/-- The id a request reports on. -/
def reportOf : List Bytes → Option Bytes
  | [word, id, _, _] => if word = utf8 "job result" then some id else none
  | _ => none

/-- The id an answer hands out. -/
def handOf (args : List Bytes) (answer : Option ClientResponse) : Option Bytes :=
  if args = jobNextArgs then answer.bind jobOf else none

def Said.reports (id : Bytes) : Said → Bool
  | .asked args => reportOf args = some id
  | .got _ _ => false

def Said.hands (id : Bytes) : Said → Bool
  | .asked _ => false
  | .got args answer => handOf args answer = some id

/-- The job a worker has to report on, and only then. -/
def reporting : Protocol (List Bytes) (fun _ => Option ClientResponse) (Option Bytes) where
  ok s args := ∀ id, reportOf args = some id → s = some id
  next s args answer := if args = jobNextArgs then handOf args answer else if (reportOf args).isSome then none else s

abbrev Talk.Reports (p : Talk) (s : Option Bytes) : Prop := p.Obeys reporting (fun _ _ => True) s

theorem reportOf_jobNextArgs : reportOf jobNextArgs = none := rfl

theorem reportOf_jobResult (id : Bytes) (exitCode : Int32) (durationMs : Int64) :
    reportOf (jobResult id exitCode durationMs) = some id := by
  simp [reportOf, jobResult]

/-- A request that neither asks for a job nor reports on one. -/
def Plain (args : List Bytes) : Prop := reportOf args = none ∧ args ≠ jobNextArgs

theorem plain_jobLog (id line : Bytes) : Plain (jobLog id line) := ⟨rfl, by simp [jobLog, jobNextArgs]⟩

theorem plain_sandboxClaim (id job : Bytes) : Plain (sandboxClaim id job) := ⟨rfl, by simp [sandboxClaim, jobNextArgs]⟩

theorem plain_sandboxRelease (id : Bytes) : Plain (sandboxRelease id) := ⟨rfl, by simp [sandboxRelease, jobNextArgs]⟩

theorem reporting_plain {args : List Bytes} (h : Plain args) (s : Option Bytes) (answer : Option ClientResponse) :
    reporting.next s args answer = s := by
  simp only [reporting, if_neg h.2, h.1]
  rfl

theorem reports_sendEach_plain {script : List (List Bytes)} (h : ∀ args ∈ script, Plain args) (rest : List (List Bytes))
    {s : Option Bytes} (hrest : (sendEach rest).Reports s) : (sendEach (script ++ rest)).Reports s := by
  induction script with
  | nil => exact hrest
  | cons args script ih =>
    have hargs := h args (by simp)
    refine ⟨?_, fun answer => ?_⟩
    · intro id hid
      rw [hargs.1] at hid
      cases hid
    · rw [reporting_plain hargs]
      exact ih fun args hmem => h args (by simp [hmem])

/-- One report, on the job in hand. -/
theorem reports_jobScript (sandboxId jobId : Bytes) (handled : Handled) :
    (sendEach (jobScript sandboxId jobId handled)).Reports (some jobId) := by
  have hend : ∀ exitCode durationMs,
      (sendEach (jobResult jobId exitCode durationMs :: [sandboxRelease sandboxId])).Reports (some jobId) := by
    intro exitCode durationMs
    refine ⟨fun id hid => by rw [← hid, reportOf_jobResult], fun answer => ⟨?_, fun _ => trivial⟩⟩
    intro id hid
    rw [(plain_sandboxRelease sandboxId).1] at hid
    cases hid
  cases handled with
  | blocked =>
    refine reports_sendEach_plain ?_ _ (hend 126 0)
    simp [plain_sandboxClaim, plain_jobLog]
  | ran netns output exitCode durationMs =>
    refine reports_sendEach_plain ?_ _ (hend exitCode durationMs)
    cases netns <;> simp [plain_sandboxClaim, plain_jobLog]

theorem reports_round (w : WorkerId) (handled : ClientResponse → Handled) (s : Option Bytes) :
    (round w handled).Reports s := by
  refine ⟨fun id hid => (by rw [reportOf_jobNextArgs] at hid; cases hid), fun answer => ?_⟩
  have hnext : reporting.next s jobNextArgs answer = answer.bind jobOf := by
    simp only [reporting, handOf, if_true]
  rw [hnext]
  cases answer with
  | none => trivial
  | some r =>
    rw [Option.bind_some]
    cases hjob : jobOf r with
    | none => simp only [hjob]; trivial
    | some id =>
      simp only [hjob]
      exact reports_jobScript w.sandboxId id (handled r)

theorem reports_register (w : WorkerId) : (register w).Reports none := by
  have hplain : reportOf [utf8 "sandbox register", w.sandboxId, w.targetType, w.addr] = none := by
    rw [reportOf, if_neg (by decide)]
  refine ⟨fun id hid => (by rw [hplain] at hid; cases hid), fun answer => ?_⟩
  cases answer with
  | none => trivial
  | some r =>
    dsimp only
    split <;> trivial

/-- What is still to be reported: one when the job is in hand. -/
def due (s : Option Bytes) (id : Bytes) : Nat := if s = some id then 1 else 0

theorem due_le_hands {args : List Bytes} {answer : Option ClientResponse} (id : Bytes) :
    due (handOf args answer) id ≤ [Said.got args answer].countP (Said.hands id) := by
  unfold due
  split
  · rename_i h
    simp [Said.hands, h]
  · exact Nat.zero_le _

/-- The report that is due is made by the request, before its answer. -/
def afterAsking (s : Option Bytes) (args : List Bytes) : Option Bytes := if (reportOf args).isSome then none else s

def inHand (s : Option Bytes) : Talk → Bool → Option Bytes
  | .op args _, true => afterAsking s args
  | _, _ => s

theorem inHand_false (s : Option Bytes) (p : Talk) : inHand s p false = s := by cases p <;> rfl

structure Due (said : List Said) (p : Talk) (waits : Bool) (s : Option Bytes) : Prop where
  reports : p.Reports s
  count : ∀ id, said.countP (Said.reports id) + due (inHand s p waits) id ≤ said.countP (Said.hands id)

theorem Working.due {w : WorkerId} {said : List Said} {p : Talk} {waits : Bool} (h : Working w said p waits) :
    ∃ s, Due said p waits s := by
  induction h with
  | start => exact ⟨none, reports_register w, fun id => by simp [Proto.due, register, inHand]⟩
  | @round said handled h ih =>
    obtain ⟨s, hs⟩ := ih
    refine ⟨s, reports_round w handled s, fun id => ?_⟩
    have hold := hs.count id
    rwa [inHand_false] at hold ⊢
  | @ask said args k h ih =>
    obtain ⟨s, hrep, hcount⟩ := ih
    refine ⟨s, hrep, ?_⟩
    intro id
    have hold := hcount id
    rw [inHand_false] at hold
    rw [List.countP_append, List.countP_append, inHand]
    have hhands : [Said.asked args].countP (Said.hands id) = 0 := by simp [Said.hands]
    rw [hhands]
    cases hr : reportOf args with
    | none =>
      have hreports : [Said.asked args].countP (Said.reports id) = 0 := by simp [Said.reports, hr]
      have hafter : afterAsking s args = s := by simp [afterAsking, hr]
      rw [hreports, hafter]
      exact hold
    | some job =>
      have hjob : s = some job := hrep.1 job hr
      have hreports : [Said.asked args].countP (Said.reports id) = Proto.due s id := by
        by_cases hid : job = id <;> simp [Said.reports, hr, Proto.due, hjob, hid]
      have hafter : afterAsking s args = none := by simp [afterAsking, hr]
      rw [hreports, hafter]
      simpa [Proto.due] using hold
  | @get said args k r h ih =>
    obtain ⟨s, hrep, hcount⟩ := ih
    refine ⟨reporting.next s args r, hrep.2 r, ?_⟩
    intro id
    have hold := hcount id
    rw [inHand] at hold
    have hreports : [Said.got args r].countP (Said.reports id) = 0 := by simp [Said.reports]
    have hnew : Proto.due (reporting.next s args r) id ≤
        Proto.due (afterAsking s args) id + [Said.got args r].countP (Said.hands id) := by
      by_cases hargs : args = jobNextArgs
      · simp only [reporting, if_pos hargs]
        exact Nat.le_trans (due_le_hands id) (Nat.le_add_left _ _)
      · simp only [reporting, if_neg hargs, afterAsking]
        exact Nat.le_add_right _ _
    rw [List.countP_append, List.countP_append, hreports, inHand_false]
    omega

/-- **A worker reports on what it was handed.** On no id more often than it was handed it. -/
theorem Working.reports_le {w : WorkerId} {said : List Said} {p : Talk} {waits : Bool} (h : Working w said p waits)
    (id : Bytes) : said.countP (Said.reports id) ≤ said.countP (Said.hands id) := by
  obtain ⟨s, hs⟩ := h.due
  exact Nat.le_trans (Nat.le_add_right _ _) (hs.count id)

end RedisOps.Proto
