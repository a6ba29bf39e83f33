import RedisOps.Handler.Sandbox
import RedisOps.Store.Lists

/-!
# The order of a job's log (`handler.rs:470-485`)

`job log` reads the log, deletes it and pushes the lines and the new one back, each at the head: the new line comes first and
the others are turned round (`rebuilt`). After `n` commands the line at position `i` is the one logged as number
`loggedAt n i`, from the last one in steps of two down and from the first or second one up. `job_log_in_order_iff`: that is
the order of logging exactly when the lines do not tell.
-/

namespace RedisOps.Handler

open Lib Store Proto

variable {F : Type}

/-! ## Rebuilding -/

/-- What the rebuilds make of the lines. -/
def rebuilt (lines : List String) : List String := lines.foldl (fun log line => line :: log.reverse) []

/-- The number of the line that is at position `i` of `n`. -/
def loggedAt (n i : Nat) : Nat := if 2 * i < n then n - 1 - 2 * i else 2 * i - n

theorem rebuilt_concat (lines : List String) (line : String) :
    rebuilt (lines ++ [line]) = line :: (rebuilt lines).reverse := by
  simp [rebuilt]

theorem length_rebuilt (lines : List String) : (rebuilt lines).length = lines.length := by
  induction lines using List.reverseRecOn with
  | nil => rfl
  | append_singleton lines line ih => simp [rebuilt_concat, ih]

/-- The closed form of the rebuilds. -/
theorem getElem?_rebuilt (lines : List String) {i : Nat} (hi : i < lines.length) :
    (rebuilt lines)[i]? = lines[loggedAt lines.length i]? := by
  induction lines using List.reverseRecOn generalizing i with
  | nil => cases hi
  | append_singleton lines line ih =>
    rw [List.length_append, List.length_singleton] at hi ⊢
    rw [rebuilt_concat]
    cases i with
    | zero =>
      have hlast : loggedAt (lines.length + 1) 0 = lines.length := by
        unfold loggedAt
        rw [if_pos (by omega)]
        omega
      rw [hlast]
      simp
    | succ i =>
      have hback : lines.length - 1 - i < lines.length := by omega
      have hplace : loggedAt lines.length (lines.length - 1 - i) = loggedAt (lines.length + 1) (i + 1) := by
        unfold loggedAt
        split <;> split <;> omega
      have hbefore : loggedAt (lines.length + 1) (i + 1) < lines.length := by
        unfold loggedAt
        split <;> omega
      rw [List.getElem?_cons_succ, List.getElem?_reverse (by rw [length_rebuilt]; omega), length_rebuilt, ih hback, hplace,
        List.getElem?_append_left hbefore]

/-! ## The command -/

/-- The request logs the line for the job. -/
def Logs (id : String) (q : Request) (line : String) : Prop :=
  q.word = some .jobLog ∧ ∃ part more, q.args.tail = id :: part :: more ∧ join " " (part :: more) = line

variable [F64 F]

/-- Every push is at the head. -/
theorem listAt_lpushEach {key : String} (now : Nat) (vals : List String) {w : World F} (h : ListOrNone w.store key) :
    ∃ w', (lpushEach key vals).run (exec now) w = (some (), w') ∧
      listAt w'.store key = vals.reverse ++ listAt w.store key ∧ ListOrNone w'.store key := by
  induction vals generalizing w with
  | nil => exact ⟨w, rfl, rfl, h⟩
  | cons v vals ih =>
    obtain ⟨hpush, hpush'⟩ := listAt_lpush h v
    obtain ⟨w', hrun, hlist, hw'⟩ := ih (w := { w with store := lpush w.store key v }) hpush'
    refine ⟨w', hrun, ?_, hw'⟩
    rw [hlist, hpush]
    simp

/-- **Step.** -/
theorem serve_jobLog {id line : String} {q : Request} (hq : Logs id q line) (now : Nat) {w : World F}
    (hlen : (listAt w.store (jobLogKey id)).length < 2 ^ 63) :
    listAt (serve now q w).2.store (jobLogKey id) = line :: (listAt w.store (jobLogKey id)).reverse ∧
      ListOrNone (serve now q w).2.store (jobLogKey id) := by
  obtain ⟨hword, part, more, hargs, rfl⟩ := hq
  obtain ⟨hdel, hdel'⟩ := listAt_del w.store (jobLogKey id)
  obtain ⟨w', hrun, hlist, hw'⟩ := listAt_lpushEach now (listAt w.store (jobLogKey id) ++ [join " " (part :: more)])
    (w := { w with store := (del w.store (jobLogKey id)).2 }) hdel'
  have hserve : (serve now q w).2 = w' := by
    rw [serve_of_word hword, hargs]
    simp only [handle, jobLog, await_def, Prog.op_bind, Prog.ret_bind, Prog.pure_def, Prog.run, exec, lrange_listAt hlen,
      Prog.run_bind, Option.map_some, hrun]
  rw [hserve, hlist, hdel]
  exact ⟨by simp, hw'⟩

/-- **Run.** -/
theorem listAt_jobLogs {id : String} {cmds : List (Nat × Request)} {lines : List String}
    (hlogs : List.Forall₂ (fun c line => Logs id c.2 line) cmds lines) {w : World F}
    (hs : ListOrNone w.store (jobLogKey id))
    (hlen : (listAt w.store (jobLogKey id)).length + lines.length < 2 ^ 63) :
    listAt (serveAll cmds w).2.store (jobLogKey id) =
        lines.foldl (fun log line => line :: log.reverse) (listAt w.store (jobLogKey id)) ∧
      ListOrNone (serveAll cmds w).2.store (jobLogKey id) := by
  induction hlogs generalizing w with
  | nil => exact ⟨rfl, hs⟩
  | @cons c line cmds lines hlog _ ih =>
    obtain ⟨now, q⟩ := c
    rw [List.length_cons] at hlen
    obtain ⟨hlist, hs'⟩ := serve_jobLog hlog now (w := w) (by omega)
    have hrest := ih hs' (by rw [hlist, List.length_cons, List.length_reverse]; omega)
    rw [hlist] at hrest
    exact hrest

/-- A request for the whole log. -/
def AsksLog (id : String) (q : Request) : Prop := q.word = some .lrange ∧ q.args.tail = [jobLogKey id, "0", "-1"]

theorem serve_asksLog {id : String} {q : Request} (hq : AsksLog id q) (now : Nat) {w : World F}
    (hlen : (listAt w.store (jobLogKey id)).length < 2 ^ 63) :
    (serve now q w).1 = some (strs (listAt w.store (jobLogKey id))) := by
  have h0 : parseI64 "0" = some 0 := by decide
  have h1 : parseI64 "-1" = some (-1) := by decide
  rw [serve_of_word hq.1, hq.2]
  simp only [handle, lrangeCmd, parsed, h0, h1, await_def, Prog.op_bind, Prog.ret_bind, Prog.pure_def, Prog.run, exec,
    lrange_listAt hlen, Option.map_some]

/-- **The log of a job.** On a job without a log, after any lines: `LRANGE` gives them in the order of logging exactly when
    every line is the one that the rebuilds put in its place. -/
theorem job_log_in_order_iff {id : String} {w : World F} (hs : ListOrNone w.store (jobLogKey id))
    (hempty : listAt w.store (jobLogKey id) = []) {cmds : List (Nat × Request)} {lines : List String}
    (hlogs : List.Forall₂ (fun c line => Logs id c.2 line) cmds lines) (hlen : lines.length < 2 ^ 63)
    {q : Request} (hq : AsksLog id q) (now : Nat) :
    (serve now q (serveAll cmds w).2).1 = some (strs lines) ↔
      ∀ i < lines.length, lines[i]? = lines[loggedAt lines.length i]? := by
  obtain ⟨hlist, -⟩ := listAt_jobLogs hlogs hs (by rw [hempty, List.length_nil]; omega)
  rw [hempty, ← rebuilt] at hlist
  rw [serve_asksLog hq now (by rw [hlist, length_rebuilt]; exact hlen), hlist]
  constructor
  · intro h i hi
    rw [← getElem?_rebuilt lines hi, strs_inj (Option.some.inj h)]
  · intro h
    have heq : rebuilt lines = lines := by
      apply List.ext_getElem?
      intro i
      by_cases hi : i < lines.length
      · rw [getElem?_rebuilt lines hi, ← h i hi]
      · rw [List.getElem?_eq_none (by rw [length_rebuilt]; omega), List.getElem?_eq_none (by omega)]
    rw [heq]

/-- Four lines, the first, the third and the last alike. -/
theorem job_log_in_order_iff_one :
    let cmds : List (Nat × Request) := [(0, ⟨0, ["JOB LOG", "7", "all", "passed"]⟩),
      (0, ⟨0, ["JOB LOG", "7", "one", "failed"]⟩), (0, ⟨0, ["JOB LOG", "7", "all", "passed"]⟩),
      (0, ⟨0, ["JOB LOG", "7", "all", "passed"]⟩)]
    (serve (F := Float) 0 ⟨0, ["LRANGE", "devops:job:7:log", "0", "-1"]⟩ (serveAll cmds ⟨∅, {}⟩).2).1 =
      some (strs ["all passed", "one failed", "all passed", "all passed"]) := by
  intro cmds
  have hnone : (⟨∅, {}⟩ : World Float).store.lookup (jobLogKey "7") = none := rfl
  obtain ⟨hempty, hs⟩ := listAt_of_none hnone
  have hlogs : List.Forall₂ (fun c line => Logs "7" c.2 line) cmds
      ["all passed", "one failed", "all passed", "all passed"] :=
    .cons ⟨by decide, "all", ["passed"], rfl, rfl⟩ (.cons ⟨by decide, "one", ["failed"], rfl, rfl⟩
      (.cons ⟨by decide, "all", ["passed"], rfl, rfl⟩ (.cons ⟨by decide, "all", ["passed"], rfl, rfl⟩ .nil)))
  exact (job_log_in_order_iff hs hempty hlogs (by decide) ⟨by decide, rfl⟩ 0).2 (by decide)

/-- Two lines come back the other way round. -/
theorem job_log_reversed :
    let cmds : List (Nat × Request) := [(0, ⟨0, ["JOB LOG", "7", "a"]⟩), (0, ⟨0, ["JOB LOG", "7", "b"]⟩)]
    let whole : Request := ⟨0, ["LRANGE", "devops:job:7:log", "0", "-1"]⟩
    (serve (F := Float) 0 whole (serveAll cmds ⟨∅, {}⟩).2).1 = some (strs ["b", "a"]) ∧
      (serve (F := Float) 0 whole (serveAll cmds ⟨∅, {}⟩).2).1 ≠ some (strs ["a", "b"]) := by
  intro cmds whole
  have hnone : (⟨∅, {}⟩ : World Float).store.lookup (jobLogKey "7") = none := rfl
  obtain ⟨hempty, hs⟩ := listAt_of_none hnone
  have hlogs : List.Forall₂ (fun c line => Logs "7" c.2 line) cmds ["a", "b"] :=
    .cons ⟨by decide, "a", [], rfl, rfl⟩ (.cons ⟨by decide, "b", [], rfl, rfl⟩ .nil)
  obtain ⟨hlist, -⟩ := listAt_jobLogs hlogs hs (by decide)
  have hanswer : (serve (F := Float) 0 whole (serveAll cmds ⟨∅, {}⟩).2).1 = some (strs ["b", "a"]) := by
    rw [serve_asksLog ⟨by decide, rfl⟩ 0 (by rw [hlist]; decide), hlist, hempty]
    rfl
  refine ⟨hanswer, ?_⟩
  rw [hanswer]
  intro h
  exact absurd (strs_inj (Option.some.inj h)) (by decide)

end RedisOps.Handler
