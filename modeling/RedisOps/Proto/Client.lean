import Mathlib.Data.List.TakeWhile
import RedisOps.Proto.Request
import RedisOps.Proto.Response

/-!
# The client's connection: one answer for each request

| here | there |
| --- | --- |
| `Conn`          | the two directions of the socket `fd_` |
| `send`          | `RedisClient::send` (`sandbox/src/redis_client.cpp:61-83`) |
| `readResponse`  | `RedisClient::read_response` (`:88-101`) |
| `writeResponse` | `proto::write_response` of the encoded answer (`redisdb/src/proto/mod.rs:104-112`) |

The server answers each request with one frame, in order; what it answers is arbitrary. A call that never returns is
`none`: `recv` waits for bytes nobody will send, or the request does not fit its own message buffer.

`read_response` gives up on an announced length above 64 MiB with the body of that frame still unread. Up to the first
such answer the stream is at a frame boundary whenever a call begins (`sendAll_results`), and the pairing rests on that;
after it the next call takes four bytes of the old body for a length.
-/

namespace RedisOps.Proto

open Lib

/-- `sent`: what the client has written. `inbox`: what the server has written and the client has not read. -/
structure Conn where
  sent : Bytes
  inbox : Bytes

def Conn.start : Conn := ⟨[], []⟩

/-- The limit of `read_response` (`redis_client.cpp:91`). -/
def MAX_RESPONSE : Nat := 64 * 1024 * 1024

/-- `RedisClient::read_exact`: `recv` until `n` bytes are there. -/
def Conn.readExact (n : Nat) (conn : Conn) : Option (Bytes × Conn) :=
  if n ≤ conn.inbox.length then some (conn.inbox.take n, { conn with inbox := conn.inbox.drop n }) else none

/-- `read_response`; the inner `none` is `nullopt`. -/
def readResponse (conn : Conn) : Option (Option ClientResponse × Conn) :=
  match conn.readExact 4 with
  | none => none
  | some (hdr, conn) =>
    let len := ofLe hdr
    if len > MAX_RESPONSE then some (none, conn) else
    match conn.readExact len with
    | none => none
    | some (buf, conn) => some ((readValueFrom buf 0).map Prod.fst, conn)

/-- `write_response`; the length is cut to 32 bits (`as u32`). -/
def writeResponse (payload : Bytes) : Bytes := leBytes 4 payload.length ++ payload

/-- A request and the server's answer to it. -/
structure Call where
  args : List Bytes
  answer : Response

/-- `RedisClient::send`: the request is written, the server answers it, the client reads a response. -/
def send (conn : Conn) (call : Call) : Option (Option ClientResponse × Conn) :=
  match sendFrame call.args with
  | none => none
  | some msg => readResponse ⟨conn.sent ++ msg, conn.inbox ++ writeResponse call.answer.encode⟩

/-- Calls one after another on one connection, up to the first that does not return. -/
def sendAll : Conn → List Call → List (Option ClientResponse)
  | _, [] => []
  | conn, call :: calls =>
    match send conn call with
    | none => []
    | some (resp, conn) => resp :: sendAll conn calls

/-- The answer is one frame: its payload is at most `2^32 - 1` bytes. -/
def Call.Framed (call : Call) : Prop := call.answer.encode.length < 2 ^ 32

/-- Whenever the `i`-th call returns a response, it is the decoding of the answer to the `i`-th request. -/
def Paired (calls : List Call) : Prop :=
  ∀ (i : Nat) (resp : ClientResponse), (sendAll .start calls)[i]? = some (some resp) →
    ∃ call : Call, calls[i]? = some call ∧ resp = call.answer.toClient

/-! ## A framed answer fits -/

mutual

theorem Response.fits_of_length : ∀ {r : Response}, r.encode.length < 2 ^ 32 → r.Fits
  | .nil, _ => by simp [Response.Fits]
  | .int _, _ => by simp [Response.Fits]
  | .dbl _, _ => by simp [Response.Fits]
  | .err _ msg, h => by
    simp only [Response.encode, List.length_cons, List.length_append, length_leBytes] at h
    simp only [Response.Fits]
    omega
  | .str s, h => by
    simp only [Response.encode, List.length_cons, List.length_append, length_leBytes] at h
    simp only [Response.Fits]
    omega
  | .arr elems, h => by
    simp only [Response.encode, List.length_cons, List.length_append, length_leBytes] at h
    have hbody : (Response.encodeAll elems).length < 2 ^ 32 := by omega
    obtain ⟨hlen, hall⟩ := Response.fitsAll_of_length hbody
    exact ⟨by omega, hall⟩

theorem Response.fitsAll_of_length : ∀ {elems : List Response}, (Response.encodeAll elems).length < 2 ^ 32 →
    elems.length ≤ (Response.encodeAll elems).length ∧ Response.FitsAll elems
  | [], _ => by simp [Response.FitsAll]
  | elem :: elems, h => by
    simp only [Response.encodeAll, List.length_append] at h
    have hbody : (Response.encodeAll elems).length < 2 ^ 32 := by omega
    obtain ⟨hlen, hall⟩ := Response.fitsAll_of_length hbody
    have hpos := List.length_pos_of_ne_nil elem.encode_ne_nil
    refine ⟨?_, Response.fits_of_length (by omega), hall⟩
    simp only [Response.encodeAll, List.length_append, List.length_cons]
    omega

end

/-! ## One call at a frame boundary -/

theorem Conn.readExact_append (sent a b : Bytes) {n : Nat} (hn : a.length = n) :
    (Conn.mk sent (a ++ b)).readExact n = some (a, ⟨sent, b⟩) := by
  subst hn
  simp [Conn.readExact]

theorem ofLe_header {payload : Bytes} (h : payload.length < 2 ^ 32) :
    ofLe (leBytes 4 payload.length) = payload.length := ofLe_leBytes_of_lt (by simpa using h)

/-- A frame within the limit is read whole, and nothing behind it. -/
theorem readResponse_frame {r : Response} (h : r.encode.length ≤ MAX_RESPONSE) (sent rest : Bytes) :
    readResponse ⟨sent, writeResponse r.encode ++ rest⟩ = some (some r.toClient, ⟨sent, rest⟩) := by
  have h32 : r.encode.length < 2 ^ 32 := lt_of_le_of_lt h (by decide)
  have hval := readValueFuel_encode r [] [] (r.encode.length + 1) (Response.fits_of_length h32) (by omega)
  simp only [List.nil_append, List.append_nil, List.length_nil, Nat.zero_add] at hval
  rw [readResponse, writeResponse, List.append_assoc, Conn.readExact_append _ _ _ (length_leBytes _ _)]
  simp only [ofLe_header h32]
  rw [if_neg (by omega), Conn.readExact_append _ _ _ rfl]
  simp only [readValueFrom, hval, Option.map_some]

/-- Of a larger one only the length is read. -/
theorem readResponse_oversized {payload : Bytes} (h : MAX_RESPONSE < payload.length) (h32 : payload.length < 2 ^ 32)
    (sent rest : Bytes) : readResponse ⟨sent, writeResponse payload ++ rest⟩ = some (none, ⟨sent, payload ++ rest⟩) := by
  rw [readResponse, writeResponse, List.append_assoc, Conn.readExact_append _ _ _ (length_leBytes _ _)]
  simp only [ofLe_header h32]
  rw [if_pos h]

/-! ## Whole runs -/

/-- What the client is to make of an answer. -/
def Call.result (call : Call) : Option ClientResponse :=
  if call.answer.encode.length ≤ MAX_RESPONSE then some call.answer.toClient else none

theorem send_result {call : Call} {msg : Bytes} (hframed : call.Framed) (hmsg : sendFrame call.args = some msg)
    (sent : Bytes) : ∃ rest, send ⟨sent, []⟩ call = some (call.result, ⟨sent ++ msg, rest⟩) ∧
      (call.answer.encode.length ≤ MAX_RESPONSE → rest = []) := by
  unfold send Call.result
  simp only [hmsg, List.nil_append]
  by_cases hle : call.answer.encode.length ≤ MAX_RESPONSE
  · have hread := readResponse_frame hle (sent ++ msg) []
    rw [List.append_nil] at hread
    rw [if_pos hle]
    exact ⟨[], hread, fun _ => rfl⟩
  · have hread := readResponse_oversized (by omega) hframed (sent ++ msg) []
    rw [List.append_nil] at hread
    rw [if_neg hle]
    exact ⟨_, hread, fun h => absurd h hle⟩

/-- As long as nothing larger than the limit is left behind, every call that is made gets its own answer: the results
    are those of a first part of the calls, all of them if every request can be built. -/
theorem sendAll_results : ∀ {calls : List Call} (sent : Bytes), (∀ call ∈ calls, call.Framed) →
    (∀ call ∈ calls.dropLast, call.answer.encode.length ≤ MAX_RESPONSE) →
    sendAll ⟨sent, []⟩ calls = (calls.takeWhile fun call => (sendFrame call.args).isSome).map Call.result
  | [], _, _, _ => rfl
  | call :: calls, sent, hframed, hsmall => by
    cases hmsg : sendFrame call.args with
    | none => simp [sendAll, send, hmsg]
    | some msg =>
      obtain ⟨rest, hsend, hrest⟩ := send_result (hframed call (by simp)) hmsg sent
      have hrun : sendAll ⟨sent, []⟩ (call :: calls) = call.result :: sendAll ⟨sent ++ msg, rest⟩ calls := by
        simp only [sendAll, hsend]
      rw [hrun, List.takeWhile_cons_of_pos (by simp [hmsg]), List.map_cons]
      congr 1
      -- what is left unread matters only if another call follows
      cases calls with
      | nil => rfl
      | cons next calls =>
        rw [List.dropLast_cons_cons] at hsmall
        rw [hrest (hsmall call (by simp))]
        apply sendAll_results
        · intro c hc
          exact hframed c (List.mem_cons_of_mem _ hc)
        · intro c hc
          exact hsmall c (List.mem_cons_of_mem _ hc)

/-- **Pairing.** If every answer but the last is at most 64 MiB, whatever a call returns is the answer to its own
    request; and if every request can be built, every call returns, with its answer whenever that is within the limit. -/
theorem sendAll_paired (calls : List Call) (hframed : ∀ call ∈ calls, call.Framed)
    (hsmall : ∀ call ∈ calls.dropLast, call.answer.encode.length ≤ MAX_RESPONSE) :
    Paired calls ∧
      ((∀ call ∈ calls, (sendFrame call.args).isSome) → sendAll .start calls = calls.map Call.result) := by
  have hres := sendAll_results [] hframed hsmall
  constructor
  · intro i resp hi
    rw [Conn.start, hres, List.getElem?_map, Option.map_eq_some_iff] at hi
    obtain ⟨call, hcall, hresult⟩ := hi
    refine ⟨call, ?_, ?_⟩
    · obtain ⟨more, hmore⟩ := List.takeWhile_prefix (l := calls) fun call : Call => (sendFrame call.args).isSome
      rw [← hmore, List.getElem?_append_left (List.getElem?_eq_some_iff.1 hcall).1]
      exact hcall
    · unfold Call.result at hresult
      split at hresult
      · exact (Option.some.inj hresult).symm
      · cases hresult
  · intro hbuilt
    rw [Conn.start, hres, List.takeWhile_eq_self_iff.2 hbuilt]

/-- Two calls, the first one answered with an array. -/
theorem sendAll_paired_two :
    let calls : List Call := [⟨[utf8 "ts.list"], .arr [.str "é", .nil]⟩, ⟨[utf8 "get", utf8 "k"], .int (-1)⟩]
    (∀ call ∈ calls, call.Framed) ∧ (∀ call ∈ calls.dropLast, call.answer.encode.length ≤ MAX_RESPONSE) ∧ Paired calls ∧
      sendAll .start calls =
        [some { tag := .arr, arr := [{ tag := .str, str := utf8 "é" }, { tag := .nil }] },
          some { tag := .int, integer := -1 }] := by
  intro calls
  have hframed : ∀ call ∈ calls, call.Framed := by
    simp only [calls, List.forall_mem_cons, Call.Framed, Response.encode, Response.encodeAll]
    exact ⟨by decide, by decide, by simp⟩
  have hsmall : ∀ call ∈ calls.dropLast, call.answer.encode.length ≤ MAX_RESPONSE := by
    simp only [calls, List.dropLast_cons_cons, List.dropLast_singleton, List.forall_mem_cons, Response.encode,
      Response.encodeAll]
    exact ⟨by decide, by simp⟩
  have h := sendAll_paired calls hframed hsmall
  exact ⟨hframed, hsmall, h.1, h.2 (by decide)⟩

/-! ## After an answer above the limit -/

/-- An array of `n` nils, a byte for each. -/
def nils (n : Nat) : Response := .arr (List.replicate n .nil)

theorem encodeAll_replicate_nil : ∀ n, Response.encodeAll (List.replicate n .nil) = List.replicate n SER_NIL
  | 0 => rfl
  | n + 1 => by
    rw [List.replicate_succ, Response.encodeAll, encodeAll_replicate_nil n, List.replicate_succ, Response.encode]
    rfl

theorem encode_nils (n : Nat) : (nils n).encode = SER_ARR :: (leBytes 4 n ++ List.replicate n SER_NIL) := by
  rw [nils, Response.encode, encodeAll_replicate_nil, List.length_replicate]

theorem length_encode_nils (n : Nat) : (nils n).encode.length = n + 5 := by
  rw [encode_nils, List.length_cons, List.length_append, length_leBytes, List.length_replicate]
  omega

/-- The tag of the array is read as a length, and the top byte of its count as a tag. -/
theorem readResponse_nils {n : Nat} (hn : n = 5 * 2 ^ 24) (sent rest : Bytes) :
    ∃ inbox, readResponse ⟨sent, (nils n).encode ++ rest⟩ = some (some { tag := .arr }, ⟨sent, inbox⟩) := by
  have hcount : leBytes 4 n = [0, 0, 0, 5] := by
    rw [hn]
    decide
  obtain ⟨m, rfl⟩ : ∃ m, n = 4 + m := ⟨n - 4, by omega⟩
  have hbody : (nils (4 + m)).encode ++ rest = [5, 0, 0, 0] ++ ([5, 0, 0, 0, 0] ++ (List.replicate m 0 ++ rest)) := by
    rw [encode_nils, hcount, List.replicate_add]
    rfl
  have hbuf : readValueFrom [5, 0, 0, 0, 0] 0 = some ({ tag := .arr }, 5) := rfl
  refine ⟨List.replicate m 0 ++ rest, ?_⟩
  have hhdr := Conn.readExact_append (n := 4) sent [5, 0, 0, 0] ([5, 0, 0, 0, 0] ++ (List.replicate m 0 ++ rest)) rfl
  have hread := Conn.readExact_append (n := 5) sent [5, 0, 0, 0, 0] (List.replicate m 0 ++ rest) rfl
  have hlen : ofLe [5, 0, 0, 0] = 5 := rfl
  rw [readResponse, hbody, hhdr]
  simp only [hlen]
  rw [if_neg (by decide), hread]
  simp only [hbuf, Option.map_some]

/-- Two calls. The first is answered with `5 * 2^24` nils, a frame of 80 MiB and five bytes, and refused; the second is
    answered with an integer and returns an empty array, read out of the refused one. -/
theorem sendAll_shifted : ¬ ∀ calls : List Call, (∀ call ∈ calls, call.Framed) → Paired calls := by
  intro h
  obtain ⟨n, hn⟩ : ∃ n : Nat, n = 5 * 2 ^ 24 := ⟨_, rfl⟩
  obtain ⟨msg, hmsg⟩ : ∃ msg, sendFrame [utf8 "ping"] = some msg := ⟨_, sendFrame_eq (by decide)⟩
  have hframed : ∀ call ∈ [(⟨[utf8 "ping"], nils n⟩ : Call), ⟨[utf8 "ping"], .int 1⟩], call.Framed := by
    simp only [List.forall_mem_cons, Call.Framed, length_encode_nils, Response.encode]
    refine ⟨by omega, by decide, by simp⟩
  have hwide : MAX_RESPONSE < (nils n).encode.length := by
    rw [length_encode_nils, MAX_RESPONSE]
    omega
  have hfirst := readResponse_oversized hwide (hframed ⟨[utf8 "ping"], nils n⟩ (by simp)) msg []
  obtain ⟨inbox, hsecond⟩ := readResponse_nils hn (msg ++ msg) (writeResponse (Response.int 1).encode)
  simp only [List.append_nil] at hfirst
  have hrun : sendAll .start [⟨[utf8 "ping"], nils n⟩, ⟨[utf8 "ping"], .int 1⟩] = [none, some { tag := .arr }] := by
    simp only [sendAll, send, Conn.start, hmsg, List.nil_append, hfirst, hsecond]
  obtain ⟨call, hcall, hresp⟩ := h _ hframed 1 { tag := .arr } (by rw [hrun]; rfl)
  cases hcall
  simp [Response.toClient] at hresp

end RedisOps.Proto
