import RedisOps.Proto.Request

/-!
# What the worker sends for a job (`sandbox/src/main.cpp:273-338`, `sandbox.cpp:160-169`)

The worker claims its sandbox, logs what the command writes and reports the result, one request after the
other on one connection. The output of the command is raw bytes: `Sandbox::run` hands on whatever one
`read` returns, at most 4095 bytes, and the worker logs the first 1000 of them. `read_request` takes only
valid UTF-8, and `handle_conn` closes the connection on the first request it does not take.

So a byte that is no UTF-8, or a character that `read` or the cut at 1000 goes through, is the end of the
connection: no `job result` and no `sandbox release` is read behind it (`runJob_accepted_iff`).
-/

namespace RedisOps.Proto

open Lib

/-! ## The client's calls (`redis_client.cpp:217-235`) -/

def sandboxClaim (id jobId : Bytes) : List Bytes := [utf8 "sandbox claim", id, jobId]

def jobLog (id line : Bytes) : List Bytes := [utf8 "job log", id, line]

def jobResult (id : Bytes) (exitCode : Int32) (durationMs : Int64) : List Bytes :=
  [utf8 "job result", id, utf8 (toString exitCode.toInt), utf8 (toString durationMs.toInt)]

def sandboxRelease (id : Bytes) : List Bytes := [utf8 "sandbox release", id]

/-! ## A job -/

/-- What one `read` into the buffer of `Sandbox::run` returns: `sizeof(buf) - 1` bytes at most, and none
    at all only at the end. -/
structure Chunk where
  line : Bytes
  pos : 0 < line.length
  le : line.length ≤ 4095

/-- What becomes of a job: `validate_command` blocks it, or it is run. Then `netns` says whether it has got
    a namespace of its own, and `output` is what it writes, in the chunks `read` cuts it into. -/
inductive Handled where
  | blocked
  | ran (netns : Bool) (output : List Chunk) (exitCode : Int32) (durationMs : Int64)

def Handled.output : Handled → List Chunk
  | .blocked => []
  | .ran _ output _ _ => output

/-- The requests of the main loop for one job, in their order. -/
def runJob (sandboxId jobId : String) : Handled → List (List Bytes)
  | .blocked =>
    [sandboxClaim (utf8 sandboxId) (utf8 jobId),
      jobLog (utf8 jobId) (utf8 "SECURITY: command blocked by policy"),
      jobResult (utf8 jobId) 126 0,
      sandboxRelease (utf8 sandboxId)]
  | .ran netns output exitCode durationMs =>
    [sandboxClaim (utf8 sandboxId) (utf8 jobId)] ++
      (if netns then [jobLog (utf8 jobId) (utf8 "sandbox: network namespace created")] else []) ++
      [jobLog (utf8 jobId) (utf8 "sandbox: starting execution")] ++
      output.map (fun chunk => jobLog (utf8 jobId) (chunk.line.take 1000)) ++
      [jobResult (utf8 jobId) exitCode durationMs, sandboxRelease (utf8 sandboxId)]

/-! ## Which requests are accepted -/

/-- The frames of the requests are built, and the server reads one request for each, up to what follows. -/
def Accepted (reqs : List (List Bytes)) : Prop :=
  ∃ (frames : List Bytes) (strs : List (List String)), reqs.map sendFrame = frames.map some ∧
    ∀ t, readRequests reqs.length (frames.flatten ++ t) = .ok (strs, t)

theorem accepted_nil : Accepted [] := ⟨[], [], rfl, fun _ => rfl⟩

theorem exists_utf8_of_isSome : ∀ {args : List Bytes}, (∀ a ∈ args, (fromUtf8 a).isSome) →
    ∃ strs : List String, strs.map utf8 = args
  | [], _ => ⟨[], rfl⟩
  | a :: args, h => by
    obtain ⟨s, hs⟩ := Option.isSome_iff_exists.1 (h a (by simp))
    obtain ⟨strs, rfl⟩ := exists_utf8_of_isSome fun b hb => h b (List.mem_cons_of_mem a hb)
    exact ⟨s :: strs, by rw [List.map_cons, utf8_of_fromUtf8 hs]⟩

/-- The server goes on behind a request exactly when it takes it. -/
theorem accepted_cons (args : List Bytes) (reqs : List (List Bytes)) :
    Accepted (args :: reqs) ↔ Acceptable args ∧ Accepted reqs := by
  constructor
  · rintro ⟨frames, strs, hf, h⟩
    obtain ⟨frame, frames, rfl, hframe, hf⟩ := List.map_eq_cons_iff.1 hf.symm
    have hstep : ∀ t, Acceptable args ∧ readRequests reqs.length (frames.flatten ++ t) = .ok (strs.tail, t) := by
      intro t
      have ht := h t
      rw [List.flatten_cons, List.append_assoc, List.length_cons, readRequests] at ht
      cases hr : readRequest (frame ++ (frames.flatten ++ t)) with
      | error e => simp [hr] at ht
      | ok r =>
        obtain ⟨strs₁, t₁⟩ := r
        obtain ⟨hargs, rfl⟩ := readRequest_frame_inv hframe.symm hr
        cases hrest : readRequests reqs.length (frames.flatten ++ t) with
        | error e => simp [hr, hrest] at ht
        | ok r =>
          obtain ⟨strs₂, t₂⟩ := r
          simp only [hr, hrest, Except.ok.injEq, Prod.mk.injEq] at ht
          obtain ⟨rfl, rfl⟩ := ht
          exact ⟨hargs, rfl⟩
    exact ⟨(hstep []).1, frames, strs.tail, hf.symm, fun t => (hstep t).2⟩
  · rintro ⟨⟨hsize, hcount, htext⟩, frames, strs, hf, h⟩
    obtain ⟨args, rfl⟩ := exists_utf8_of_isSome htext
    obtain ⟨frame, hframe⟩ : ∃ frame, sendFrame (args.map utf8) = some frame := ⟨_, sendFrame_eq hsize⟩
    refine ⟨frame :: frames, args :: strs, by rw [List.map_cons, hframe, hf]; rfl, ?_⟩
    intro t
    have hone := readRequest_frame (by simpa using hcount) hsize hframe (frames.flatten ++ t)
    simp only [List.length_cons, readRequests, List.flatten_cons, List.append_assoc, hone, h t]

/-- **Which requests are accepted.** -/
theorem accepted_iff : ∀ reqs : List (List Bytes), Accepted reqs ↔ ∀ args ∈ reqs, Acceptable args
  | [] => iff_of_true accepted_nil (by simp)
  | args :: reqs => by rw [accepted_cons, accepted_iff reqs, List.forall_mem_cons]

/-! ## Up to where a connection hears them -/

section Worker
variable {sandboxId jobId : String} {handled : Handled}

theorem isSome_fromUtf8_utf8 (s : String) : (fromUtf8 (utf8 s)).isSome := by
  rw [fromUtf8_utf8]
  rfl

/-- Of what the worker sends only the lines of the output may be no UTF-8. -/
theorem text_runJob : (∀ args ∈ runJob sandboxId jobId handled, ∀ a ∈ args, (fromUtf8 a).isSome) ↔
    ∀ chunk ∈ handled.output, (fromUtf8 (chunk.line.take 1000)).isSome := by
  cases handled with
  | blocked => simp [runJob, Handled.output, sandboxClaim, jobLog, jobResult, sandboxRelease, isSome_fromUtf8_utf8]
  | ran netns output exitCode durationMs =>
    simp only [runJob, List.forall_mem_append, List.forall_mem_map]
    cases netns <;> simp [Handled.output, sandboxClaim, jobLog, jobResult, sandboxRelease, isSome_fromUtf8_utf8]

theorem length_of_mem_runJob {args : List Bytes} (h : args ∈ runJob sandboxId jobId handled) :
    args.length ≤ MAX_ARGS := by
  have hall : ∀ args ∈ runJob sandboxId jobId handled, args.length ≤ 4 := by
    cases handled with
    | blocked => simp [runJob, sandboxClaim, jobLog, jobResult, sandboxRelease]
    | ran netns output exitCode durationMs =>
      simp only [runJob, List.forall_mem_append, List.forall_mem_map]
      cases netns <;> simp [sandboxClaim, jobLog, jobResult, sandboxRelease]
  exact Nat.le_trans (hall args h) (by decide)

/-- **What the worker sends is accepted** exactly when every line it logs is valid UTF-8 where it is cut, and
    the ids leave its frames below the limit. -/
theorem runJob_accepted_iff (sandboxId jobId : String) (handled : Handled) :
    Accepted (runJob sandboxId jobId handled) ↔
      (∀ chunk ∈ handled.output, (fromUtf8 (chunk.line.take 1000)).isSome) ∧
        ∀ args ∈ runJob sandboxId jobId handled, payloadLen args ≤ MAX_MSG_SIZE := by
  rw [accepted_iff, ← @text_runJob sandboxId jobId handled]
  constructor
  · intro h
    exact ⟨fun args hmem => (h args hmem).2.2, fun args hmem => (h args hmem).1⟩
  · rintro ⟨htext, hsize⟩ args hmem
    exact ⟨hsize args hmem, length_of_mem_runJob hmem, htext args hmem⟩

/-- A command writes `é`, and `read` returns its two bytes one at a time: the server stops at the first of
    them, before the result. -/
theorem runJob_cut_character : ¬ Accepted (runJob "sb-1" "1"
      (.ran false [⟨[0xC3], by decide, by decide⟩, ⟨[0xA9], by decide, by decide⟩] 0 5)) ∧
    (((runJob "sb-1" "1" (.ran false [⟨[0xC3], by decide, by decide⟩, ⟨[0xA9], by decide, by decide⟩] 0 5)).mapM
      sendFrame).map fun frames => readRequests 3 frames.flatten) = some (.error (.malformed "invalid utf-8")) := by
  constructor
  · rw [accepted_iff]
    intro h
    have hline := (h (jobLog (utf8 "1") [0xC3]) (by simp [runJob])).2.2 [0xC3] (by simp [jobLog])
    exact absurd hline (by decide)
  · decide +kernel

end Worker

end RedisOps.Proto
