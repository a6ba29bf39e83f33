import RedisOps.Lib.Find
import RedisOps.Lib.Http
import RedisOps.Metrics.Exporter

/-!
# The metrics server (`sandbox/src/metrics.cpp:142-179`)

One `recv` is the request and one `send` the response. Neither is a loop: a request that comes in pieces is judged by the
first, and the `send` may take any part of the response, whose result nobody looks at.

`metrics_reply`: a client that goes by the length does not take a part of the response for the metrics.
-/

namespace RedisOps.Metrics

open Lib
open Lib.Message (statusLine)

def buildResponse (body : Bytes) (code : Nat) : Bytes :=
  let status := if code = 200 then "OK" else "Not Found"
  ascii "HTTP/1.1 " ++ toDecimal code ++ ascii " " ++ ascii status ++ crlf ++
    ascii "Content-Type: text/plain; version=0.0.4; charset=utf-8" ++ crlf ++
    ascii "Content-Length: " ++ toDecimal body.length ++ crlf ++ ascii "Connection: close" ++ crlf ++ crlf ++ body

/-- `std::string request(buf)` ends at the first zero. -/
def requestOf (received : Bytes) : Bytes := upTo 0 received

/-- `received`: what `recv` has put into the buffer of 4096 bytes, and `none` for a connection that is closed at once. -/
def handleClient (display : Int → Bytes) (exporter : Option MetricsExporter) (received : Bytes) : Option Bytes :=
  if received = [] then none else
    let request := requestOf received
    match (find request (ascii "GET /metrics") 0).isSome, exporter with
    | true, some exporter => some (buildResponse (renderPrometheus display exporter) 200)
    | _, _ =>
      if (find request (ascii "GET /health") 0).isSome then some (buildResponse (ascii "ok\n") 200)
      else some (buildResponse [] 404)

def textType : Bytes := ascii "text/plain; version=0.0.4; charset=utf-8"

theorem buildResponse_eq (body : Bytes) :
    buildResponse body 200 = (Message.closing (statusLine 200 "OK") textType body).write ∧
      buildResponse body 404 = (Message.closing (statusLine 404 "Not Found") textType body).write := by
  have htype : ascii "Content-Type: text/plain; version=0.0.4; charset=utf-8" = ascii "Content-Type: " ++ textType := by
    simp [ascii, textType]
  simp [buildResponse, statusLine, Message.closing, Message.write, htype]

theorem closing_wellFormed {status : Bytes} (h : status ∈ [statusLine 200 "OK", statusLine 404 "Not Found"]) (body : Bytes) :
    (Message.closing status textType body).WellFormed := by
  have hcr : 13 ∉ status := by
    simp only [List.mem_cons, List.not_mem_nil, or_false] at h
    rcases h with rfl | rfl <;> decide
  exact Message.closing_wellFormed hcr (by decide) body

theorem isSome_find (s pat : Bytes) : (find s pat 0).isSome = decide (pat <:+: s) := by
  rw [find_zero, Bool.eq_iff_iff, isSome_findAt_iff, decide_eq_true_iff]

/-- Status and body by what the request has in it. -/
def answerOf (display : Int → Bytes) (exporter : Option MetricsExporter) (request : Bytes) : Bytes × Bytes :=
  match exporter with
  | some exporter =>
    if ascii "GET /metrics" <:+: request then (statusLine 200 "OK", renderPrometheus display exporter)
    else if ascii "GET /health" <:+: request then (statusLine 200 "OK", ascii "ok\n")
    else (statusLine 404 "Not Found", [])
  | none =>
    if ascii "GET /health" <:+: request then (statusLine 200 "OK", ascii "ok\n")
    else (statusLine 404 "Not Found", [])

/-- **Responses.** The response to whatever has come is one message, with the samples in it as they were rendered; a client
    reads the message if all of it was sent and nothing if the `send` took a part. -/
theorem metrics_reply (display : Int → Bytes) (exporter : Option MetricsExporter) (received : Bytes) :
    ∃ m : Message, handleClient display exporter received = (if received = [] then none else some m.write) ∧
      (∀ sent, sent <+: m.write → Message.read sent = if sent = m.write then some (m, []) else none) ∧
        (m.status, m.body) = answerOf display exporter (requestOf received) := by
  have hok : statusLine 200 "OK" ∈ [statusLine 200 "OK", statusLine 404 "Not Found"] := List.mem_cons_self
  have hnot : statusLine 404 "Not Found" ∈ [statusLine 200 "OK", statusLine 404 "Not Found"] :=
    List.mem_cons_of_mem _ List.mem_cons_self
  have hreply : ∀ {status body response}, status ∈ [statusLine 200 "OK", statusLine 404 "Not Found"] →
      response = (Message.closing status textType body).write → ∃ m : Message,
        (if received = [] then none else some response) = (if received = [] then none else some m.write) ∧
          (∀ sent, sent <+: m.write → Message.read sent = if sent = m.write then some (m, []) else none) ∧
            (m.status, m.body) = (status, body) := by
    rintro status body response hstatus rfl
    exact ⟨_, rfl, fun sent hsent => Message.read_part (closing_wellFormed hstatus body) hsent, rfl⟩
  have hhealth := hreply hok (buildResponse_eq (ascii "ok\n")).1
  have hnothing := hreply hnot (buildResponse_eq []).2
  simp only [handleClient, isSome_find, answerOf]
  cases exporter with
  | none =>
    by_cases hh : ascii "GET /health" <:+: requestOf received
    · simpa [hh] using hhealth
    · simpa [hh] using hnothing
  | some exporter =>
    by_cases hm : ascii "GET /metrics" <:+: requestOf received
    · simpa [hm] using hreply hok (buildResponse_eq (renderPrometheus display exporter)).1
    · by_cases hh : ascii "GET /health" <:+: requestOf received
      · simpa [hm, hh] using hhealth
      · simpa [hm, hh] using hnothing

end RedisOps.Metrics
