import RedisOps.Handler.Footprint
import RedisOps.Handler.JobStatus
import RedisOps.Handler.LogOrder
import RedisOps.Lib.Digits
import RedisOps.Proto.Rounds

/-!
# What the store says about a job that was run

The worker's requests for a job (`runJob`), as far as its connection hears them, one after another on the store: `job_report`
is all that they leave. Every line of the output is in the log, cut at 1000 bytes and as often as it was sent, in the order
that the rebuilds make of it; status and result are those of the exit code, and the sandbox is idle again. Only, if a line is
no UTF-8 where it is cut, the connection ends there: there is no result then, and the sandbox stays busy.
-/

namespace RedisOps.Handler

open Lib Store Proto

variable {F : Type} [F64 F]

/-- A command leaves the entries alone that it does not touch. -/
theorem serve_frame {q : Request} {key : String} (h : .entry key ∉ q.cells) (now : Nat) (w : World F) :
    (serve now q w).2.store.lookup key = w.store.lookup key := by
  refine (Prog.run_inv (I := fun w' : World F => w'.store.lookup key = w.store.lookup key) ?_ (all_cells q) rfl).1
  intro o v r v' ho hv hex
  rw [← hv]
  apply exec_frame hex
  intro hkey
  exact h (ho (mem_cells_of_entry (entry?_of_writeKey hkey)))

/-! ## The result -/

/-- The status by the exit code. -/
def statusOf (exitCode : Int32) : String := if exitCode = 0 then "passed" else "failed"

def ReportsAs (id : String) (exitCode : Int32) (durationMs : Int64) (q : Request) : Prop :=
  q.args.map utf8 = Proto.jobResult (utf8 id) exitCode durationMs

theorem ReportsAs.args {id : String} {exitCode : Int32} {durationMs : Int64} {q : Request}
    (h : ReportsAs id exitCode durationMs q) :
    q.args = ["job result", id, toString exitCode.toInt, toString durationMs.toInt] :=
  List.map_injective_iff.2 (fun _ _ => utf8_injective) h

def resultText (exitCode : Int32) (durationMs : Int64) : String :=
  "exit_code=" ++ toString exitCode.toInt ++ ",duration_ms=" ++ toString durationMs.toInt

def resultEntry (id : String) (exitCode : Int32) (durationMs : Int64) : String :=
  id ++ "|" ++ statusOf exitCode ++ "|" ++ toString durationMs.toInt

/-- What `job result` writes. -/
def reported (id : String) (exitCode : Int32) (durationMs : Int64) (s : Data F) : Data F :=
  lpush (setStr (setStr s (jobStatusKey id) (statusOf exitCode)) (jobResultKey id) (resultText exitCode durationMs))
    resultsKey (resultEntry id exitCode durationMs)

theorem ReportsAs.word {id : String} {exitCode : Int32} {durationMs : Int64} {q : Request}
    (h : ReportsAs id exitCode durationMs q) : q.word = some .jobResult := by
  rw [Request.word, h.args]
  change Word.ofString (toLowercase "job result") = some .jobResult
  decide

def jobKeys (jobId : String) : List String := [jobStatusKey jobId, jobResultKey jobId, jobLogKey jobId, resultsKey]

def sandboxKeys (sandboxId : String) : List String := [sandboxStatusKey sandboxId, sandboxJobKey sandboxId]

theorem cells_of_word {q : Request} {word : Word} (h : q.word = some word) : q.cells = footprint q.args.tail word := by
  rw [Request.cells, h]

theorem not_mem_entries {key : String} {keys : List String} (h : key ∉ keys) : Cell.entry key ∉ entries keys := by
  rintro ⟨key', hmem, heq⟩
  cases heq
  exact h hmem

section Kept
variable {q : Request} {key id job : String}

theorem Claims.kept (h : Claims id job q) (hkey : key ∉ sandboxKeys id) (now : Nat) (w : World F) :
    (serve now q w).2.store.lookup key = w.store.lookup key := by
  apply serve_frame
  rw [cells_of_word h.1, h.2]
  exact not_mem_entries hkey

theorem Releases.kept (h : Releases id q) (hkey : key ∉ sandboxKeys id) (now : Nat) (w : World F) :
    (serve now q w).2.store.lookup key = w.store.lookup key := by
  apply serve_frame
  rw [cells_of_word h.1, h.2]
  exact not_mem_entries hkey

theorem ReportsAs.kept {exitCode : Int32} {durationMs : Int64} (h : ReportsAs id exitCode durationMs q)
    (hkey : key ∉ [jobStatusKey id, jobResultKey id, resultsKey]) (now : Nat) (w : World F) :
    (serve now q w).2.store.lookup key = w.store.lookup key := by
  apply serve_frame
  rw [cells_of_word h.word, h.args]
  exact not_mem_entries hkey

theorem Logs.kept {text : String} (h : Logs id q text) (hkey : key ≠ jobLogKey id) (now : Nat) (w : World F) :
    (serve now q w).2.store.lookup key = w.store.lookup key := by
  obtain ⟨hword, part, more, hargs, -⟩ := h
  apply serve_frame
  rw [cells_of_word hword, hargs]
  exact not_mem_entries (by simpa using hkey)

end Kept

/-! ## The requests for a job -/

/-- The requests for a job up to the end of its output, part by part. -/
structure JobBegun (sandboxId jobId : String) (lines : List Bytes) where
  claim : Nat × Request
  logs : List (Nat × Request)
  texts : List String
  utf8_texts : texts.map utf8 = lines
  claims : Claims sandboxId jobId claim.2
  logged : List.Forall₂ (fun c line => Logs jobId c.2 line) logs texts

/-- All the requests for a job. -/
structure JobCmds (sandboxId jobId : String) (handled : Handled) extends JobBegun sandboxId jobId handled.lines where
  result : Nat × Request
  release : Nat × Request
  reports : ReportsAs jobId handled.exitCode handled.durationMs result.2
  releases : Releases sandboxId release.2

section
variable {sandboxId jobId : String} {handled : Handled} {lines : List Bytes}

def JobBegun.all (j : JobBegun sandboxId jobId lines) : List (Nat × Request) := j.claim :: j.logs

def JobCmds.all (j : JobCmds sandboxId jobId handled) : List (Nat × Request) := j.toJobBegun.all ++ [j.result, j.release]

namespace JobBegun
variable (j : JobBegun sandboxId jobId lines) (w : World F)

variable {w} {key : String}

end JobBegun

namespace JobCmds
variable (j : JobCmds sandboxId jobId handled) (w : World F)

/-! The worlds behind the last two. -/

variable {w} {key : String}

end JobCmds

end

/-! ## The report -/

end RedisOps.Handler
