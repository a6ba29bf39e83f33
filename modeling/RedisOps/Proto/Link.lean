import RedisOps.Lib.Wire
import RedisOps.Proto.Client
import RedisOps.Proto.Worker

/-!
# The connection call by call

`send` of `Proto.Client` takes a call as one step. Here it is what it is in the source: `write_all` and `read_exact` loop
over `::send` and `::recv`, each of which moves any part of what is left, while the server's task is in the middle of its own
reads and writes.

| here | there |
| --- | --- |
| `Caller`, `clientNeed`   | `RedisClient::send`, `write_all`, `read_exact`, `read_response` (`sandbox/src/redis_client.cpp:41-101`) |
| `parseRequest`           | `read_request` behind its `read_exact` (`redisdb/src/proto/mod.rs:78-101`) |
| `Serving`, `serverNeed`  | `handle_conn`, `read_request`, `write_response` (`redisdb/src/server.rs:136-155`, `proto/mod.rs:70-112`) |
| `Tcp.Step.fails`         | `send` or `recv` returning `n <= 0` in the client |
| `Tcp.Step.closes`        | the server's task ending: an I/O error or the timeout of a read |

What the handler answers is arbitrary. A failed call leaves the client's socket open, and the caller may go on with it.

* `returned_paired` — the calls up to the first that fails return the answers to their own requests.
* `call_returns` — a call the server takes returns, unless one of the two gives up.
-/

namespace RedisOps.Proto

open Lib Lib.Wire

/-! ## The client -/

/-- Where `RedisClient::send` is: in `write_all`, or in one of the two `read_exact` of `read_response`. -/
inductive Calling where
  | idle
  | sending (args : List Bytes) (msg : Bytes)
  | header (args : List Bytes)
  | body (args : List Bytes) (len : Nat)

def Calling.request : Calling → Option (List Bytes)
  | .idle => none
  | .sending args _ => some args
  | .header args => some args
  | .body args _ => some args

/-- `returned`: the calls that have returned and what they returned, oldest first. -/
structure Caller where
  calling : Calling
  returned : List (List Bytes × Option ClientResponse)

def Caller.done (c : Caller) (args : List Bytes) (answer : Option ClientResponse) : Caller :=
  ⟨.idle, c.returned ++ [(args, answer)]⟩

def clientNeed (c : Caller) : Need Caller (List Bytes) :=
  match c.calling with
  | .idle => .take fun args => (sendFrame args).map fun msg => { c with calling := .sending args msg }
  | .sending args msg => .write msg { c with calling := .header args }
  | .header args => .read 4 fun hdr =>
    if ofLe hdr > MAX_RESPONSE then c.done args none else { c with calling := .body args (ofLe hdr) }
  | .body args len => .read len fun buf => c.done args ((readValueFrom buf 0).map Prod.fst)

/-! ## The server -/

def parseRequest (buf : Bytes) : Except ProtoError (List String) :=
  if buf.length < 4 then .error (.malformed "header too short") else
  let n := ofLe (buf.take 4)
  if n > MAX_ARGS then .error (.tooManyArgs n) else readArgs n (buf.drop 4) []

/-- Where `handle_conn` is. `closed`: it has returned. -/
inductive Handling where
  | header
  | body (len : Nat)
  | dispatch (args : List String)
  | answer (r : Response)
  | closed

/-- `served`: the requests that were dispatched and the answers to them, oldest first. -/
structure Serving where
  handling : Handling
  served : List (List String × Response)

/-- `handle_conn` returns on any error of `read_request`. -/
def parsed (buf : Bytes) : Handling :=
  match parseRequest buf with
  | .ok args => .dispatch args
  | .error _ => .closed

def serverNeed (s : Serving) : Need Serving Response :=
  match s.handling with
  | .header => .read 4 fun hdr =>
    { s with handling := if ofLe hdr > MAX_MSG_SIZE then .closed else .body (ofLe hdr) }
  | .body len => .read len fun buf => { s with handling := parsed buf }
  | .dispatch args => .take fun r => some ⟨.answer r, s.served ++ [(args, r)]⟩
  | .answer r => .write (writeResponse r.encode) { s with handling := .header }
  | .closed => .take fun _ => none

/-! ## The two of them -/

/-- `listening`: the server's task has not ended. -/
structure Tcp where
  link : Link Caller Serving
  listening : Bool

namespace Tcp

def start : Tcp := ⟨⟨.ready ⟨.idle, []⟩, .ready ⟨.header, []⟩, [], []⟩, true⟩

inductive Step : Tcp → Tcp → Prop
  | client {l l' a} (listening) (h : l.Step clientNeed serverNeed (.left a) l') : Step ⟨l, listening⟩ ⟨l', listening⟩
  | server {l l' b} (h : l.Step clientNeed serverNeed (.right b) l') : Step ⟨l, true⟩ ⟨l', true⟩
  | fails {c e s toRight toLeft args} (listening) (h : e = .reading c e.got ∨ e = .writing c e.rest)
      (hargs : c.calling.request = some args) :
      Step ⟨⟨e, s, toRight, toLeft⟩, listening⟩ ⟨⟨.ready (c.done args none), s, toRight, toLeft⟩, listening⟩
  | closes (l) : Step ⟨l, true⟩ ⟨l, false⟩

def Reachable (t : Tcp) : Prop := Relation.ReflTransGen Step start t

end Tcp

abbrev Exchange := Whole Caller Serving

def whole (l : Link Caller Serving) : Exchange := l.whole clientNeed serverNeed

def Tcp.returned (t : Tcp) : List (List Bytes × Option ClientResponse) := (whole t.link).left.returned

def Tcp.served (t : Tcp) : List (List String × Response) := (whole t.link).right.served

/-! ## A request as the server reads it -/

theorem readRequest_eq (stream : Bytes) : readRequest stream = match readExact 4 stream with
    | .error e => .error e
    | .ok (hdr, stream) => if ofLe hdr > MAX_MSG_SIZE then .error (.tooLarge (ofLe hdr)) else
      match readExact (ofLe hdr) stream with
      | .error e => .error e
      | .ok (buf, stream) => (parseRequest buf).map fun args => (args, stream) := by
  rw [readRequest]
  cases readExact 4 stream with
  | error e => rfl
  | ok r =>
    simp only
    split
    · rfl
    · cases readExact (ofLe r.1) r.2 with
      | error e => rfl
      | ok q =>
        simp only [parseRequest]
        split
        · rfl
        · split
          · rfl
          · cases readArgs (ofLe (q.1.take 4)) (q.1.drop 4) [] <;> rfl

/-- A frame behind its length. -/
def payload (args : List Bytes) : Bytes := leBytes 4 args.length ++ argBlocks args

theorem length_payload (args : List Bytes) : (payload args).length = payloadLen args := by
  simp [payload, payloadLen, length_argBlocks]

theorem sendFrame_payload {args : List Bytes} {msg : Bytes} (h : sendFrame args = some msg) :
    payloadLen args < 2 ^ 32 ∧ msg = leBytes 4 (payloadLen args) ++ payload args := by
  have hlt := payloadLen_lt_of_sendFrame h
  rw [sendFrame_eq_of_lt hlt, Option.some.injEq] at h
  exact ⟨by omega, h.symm⟩

theorem parseRequest_payload {args : List Bytes} (h : payloadLen args < 2 ^ 32) : parseRequest (payload args) =
    if args.length > MAX_ARGS then .error (.tooManyArgs args.length) else readArgs args.length (argBlocks args) [] := by
  have hn : ofLe (leBytes 4 args.length) = args.length := ofLe_leBytes_of_lt (length_lt_of_payloadLen h).1
  rw [parseRequest, payload, if_neg (by simp), List.take_left' (length_leBytes _ _), List.drop_left' (length_leBytes _ _)]
  simp only [hn]

/-- What is dispatched is the request that was sent. -/
theorem parseRequest_ok {args : List Bytes} (h : payloadLen args < 2 ^ 32) {strs : List String}
    (hp : parseRequest (payload args) = .ok strs) : strs.map utf8 = args := by
  rw [parseRequest_payload h] at hp
  split at hp
  · cases hp
  · have hlen := (length_lt_of_payloadLen h).2
    obtain ⟨strs', rfl⟩ := exists_utf8_of_isSome (readArgs_argBlocks_inv hlen hp)
    rw [List.length_map, readArgs_argBlocks strs' [] fun a ha => hlen _ (List.mem_map_of_mem ha)] at hp
    cases hp
    rfl

/-- And an acceptable one is dispatched. -/
theorem parseRequest_acceptable {args : List Bytes} (h : Acceptable args) :
    ∃ strs, parseRequest (payload args) = .ok strs := by
  obtain ⟨hsize, hcount, htext⟩ := h
  have hlt : payloadLen args < 2 ^ 32 := Nat.lt_of_le_of_lt hsize (by decide)
  have hlen := (length_lt_of_payloadLen hlt).2
  obtain ⟨strs, rfl⟩ := exists_utf8_of_isSome htext
  refine ⟨strs, ?_⟩
  rw [parseRequest_payload hlt, if_neg (by omega), List.length_map,
    readArgs_argBlocks strs [] fun a ha => hlen _ (List.mem_map_of_mem ha)]
  rfl

/-! ## In step -/

/-- What the client makes of an answer. -/
def received (r : Response) : Option ClientResponse :=
  if r.encode.length ≤ MAX_RESPONSE then some r.toClient else none

def Answers (c : List Bytes × Option ClientResponse) (x : List String × Response) : Prop :=
  c.1 = x.1.map utf8 ∧ c.2 = some x.2.toClient

/-- Every call has returned the answer of its own request, and the connection holds at most what belongs to the call that
    is being made. One case for every place in the request and in the answer. -/
inductive Sync : Exchange → Prop
  | idle {ret served} (h : List.Forall₂ Answers ret served) : Sync ⟨⟨.idle, ret⟩, ⟨.header, served⟩, [], []⟩
  | sending {ret served args msg} (h : List.Forall₂ Answers ret served) (hmsg : sendFrame args = some msg) :
      Sync ⟨⟨.sending args msg, ret⟩, ⟨.header, served⟩, [], []⟩
  | sent {ret served args} (h : List.Forall₂ Answers ret served) (hsize : payloadLen args < 2 ^ 32) :
      Sync ⟨⟨.header args, ret⟩, ⟨.header, served⟩, leBytes 4 (payloadLen args) ++ payload args, []⟩
  | reading {ret served args} (h : List.Forall₂ Answers ret served) (hsize : payloadLen args ≤ MAX_MSG_SIZE) :
      Sync ⟨⟨.header args, ret⟩, ⟨.body (payloadLen args), served⟩, payload args, []⟩
  | dispatching {ret served strs} (h : List.Forall₂ Answers ret served) :
      Sync ⟨⟨.header (strs.map utf8), ret⟩, ⟨.dispatch strs, served⟩, [], []⟩
  | answering {ret served strs r} (h : List.Forall₂ Answers ret served) :
      Sync ⟨⟨.header (strs.map utf8), ret⟩, ⟨.answer r, served ++ [(strs, r)]⟩, [], []⟩
  | answered {ret served strs r} (h : List.Forall₂ Answers ret served) :
      Sync ⟨⟨.header (strs.map utf8), ret⟩, ⟨.header, served ++ [(strs, r)]⟩, [], writeResponse r.encode⟩
  | receiving {ret served strs r} (h : List.Forall₂ Answers ret served) (hsize : r.encode.length ≤ MAX_RESPONSE) :
      Sync ⟨⟨.body (strs.map utf8) r.encode.length, ret⟩, ⟨.header, served ++ [(strs, r)]⟩, [], r.encode⟩
  | closed {ret served args rest} (h : List.Forall₂ Answers ret served) (hbad : ¬ Acceptable args) :
      Sync ⟨⟨.header args, ret⟩, ⟨.closed, served⟩, rest, []⟩

/-- The call of `w` returns in `w'` with the answer to the request that was dispatched last. -/
structure Returns (w w' : Exchange) : Prop where
  ex : ∃ strs r, w.left.calling.request = some (strs.map utf8) ∧ w.right.served.getLast? = some (strs, r) ∧
    w'.right = ⟨.header, w.right.served⟩ ∧ w'.toRight = [] ∧ w'.left = w.left.done (strs.map utf8) (received r) ∧
    (r.encode.length ≤ MAX_RESPONSE → Sync w')

/-- A step does not return, or it is the end of the call. -/
def After (w : Exchange) (ev : Event (List Bytes) Response) (w' : Exchange) : Prop :=
  Sync w' ∧ w'.left.returned = w.left.returned ∧
      (w'.left.calling.request = w.left.calling.request ∨ ∃ args, ev = .left (some args)) ∨
    Returns w w'

theorem take_text {text rest frame more : Bytes} (h : frame ++ more = text ++ rest) (hlen : text.length = frame.length) :
    text = frame ∧ rest = more := by
  obtain ⟨h₁, h₂⟩ := List.append_inj h hlen.symm
  exact ⟨h₁.symm, h₂.symm⟩

theorem readValueFrom_answer {r : Response} (h : r.encode.length < 2 ^ 32) :
    (readValueFrom r.encode 0).map Prod.fst = some r.toClient := by
  have hval := readValueFrom_encode r (Response.fits_of_length h) []
  rw [List.append_nil] at hval
  rw [hval, Option.map_some]

theorem MAX_RESPONSE_lt : MAX_RESPONSE < 2 ^ 32 := by decide

/-- A step of the client. -/
theorem Sync.client {w w' : Exchange} {a : Option (List Bytes)} (h : Sync w)
    (hframed : ∀ x ∈ w.right.served, x.2.encode.length < 2 ^ 32)
    (hstep : w.Step clientNeed serverNeed (.left a) w') : After w (.left a) w' := by
  obtain ⟨c', toLeft', toRight', hw, rfl⟩ : ∃ c' toLeft' toRight',
      WholeStep clientNeed w.left w.toLeft w.toRight a c' toLeft' toRight' ∧ w' = ⟨c', w.right, toRight', toLeft'⟩ := by
    cases hstep with
    | left hw => exact ⟨_, _, _, hw, rfl⟩
  have hcases := hw.cases
  cases h with
  | idle h =>
    obtain ⟨args, rfl, hnext, rfl, rfl⟩ := hcases
    obtain ⟨msg, hmsg, rfl⟩ := Option.map_eq_some_iff.1 hnext
    exact .inl ⟨.sending h hmsg, rfl, .inr ⟨args, rfl⟩⟩
  | sending h hmsg =>
    obtain ⟨rfl, rfl, rfl, rfl⟩ := hcases
    obtain ⟨hsize, rfl⟩ := sendFrame_payload hmsg
    exact .inl ⟨.sent h hsize, rfl, .inl rfl⟩
  | sent | reading | dispatching | answering | closed =>
    -- nothing to read yet
    obtain ⟨-, text, hlen, hin, -⟩ := hcases
    obtain ⟨rfl, -⟩ := List.append_eq_nil_iff.1 hin.symm
    cases hlen
  | @answered ret served strs r h =>
    obtain ⟨rfl, text, hlen, hin, rfl, rfl⟩ := hcases
    obtain ⟨rfl, rfl⟩ := take_text hin (by rw [hlen, length_leBytes])
    have hlt := hframed (strs, r) (by simp)
    simp only [ofLe_header hlt]
    by_cases hsize : r.encode.length ≤ MAX_RESPONSE
    · rw [if_neg (Nat.not_lt.2 hsize)]
      exact .inl ⟨.receiving h hsize, rfl, .inl rfl⟩
    · rw [if_pos (Nat.lt_of_not_le hsize)]
      refine .inr ⟨strs, r, rfl, by simp, rfl, rfl, ?_, fun hle => absurd hle hsize⟩
      rw [received, if_neg hsize]
  | @receiving ret served strs r h hsize =>
    obtain ⟨rfl, text, hlen, hin, rfl, rfl⟩ := hcases
    obtain ⟨rfl, rfl⟩ := take_text ((List.append_nil _).trans hin) hlen
    have hval := readValueFrom_answer (Nat.lt_of_le_of_lt hsize MAX_RESPONSE_lt)
    simp only [hval]
    refine .inr ⟨strs, r, rfl, by simp, rfl, rfl, ?_, fun _ => .idle ?_⟩
    · rw [received, if_pos hsize]
    · exact List.rel_append h (.cons ⟨rfl, rfl⟩ .nil)

/-- A step of the server. -/
theorem Sync.server {w w' : Exchange} {b : Option Response} (h : Sync w)
    (hstep : w.Step clientNeed serverNeed (.right b) w') : After w (.right b) w' := by
  obtain ⟨s', toRight', toLeft', hw, rfl⟩ : ∃ s' toRight' toLeft',
      WholeStep serverNeed w.right w.toRight w.toLeft b s' toRight' toLeft' ∧ w' = ⟨w.left, s', toRight', toLeft'⟩ := by
    cases hstep with
    | right hw => exact ⟨_, _, _, hw, rfl⟩
  have hcases := hw.cases
  cases h with
  | idle | sending | answered | receiving =>
    -- the request before is read to its end
    obtain ⟨-, text, hlen, hin, -⟩ := hcases
    obtain ⟨rfl, -⟩ := List.append_eq_nil_iff.1 hin.symm
    cases hlen
  | @sent ret served args h hsize =>
    obtain ⟨rfl, text, hlen, hin, rfl, rfl⟩ := hcases
    obtain ⟨rfl, rfl⟩ := take_text hin (by rw [hlen, length_leBytes])
    have hval : ofLe (leBytes 4 (payloadLen args)) = payloadLen args := ofLe_leBytes_of_lt hsize
    simp only [hval]
    by_cases hle : payloadLen args ≤ MAX_MSG_SIZE
    · rw [if_neg (Nat.not_lt.2 hle)]
      exact .inl ⟨.reading h hle, rfl, .inl rfl⟩
    · rw [if_pos (Nat.lt_of_not_le hle)]
      exact .inl ⟨.closed h fun hargs => hle hargs.1, rfl, .inl rfl⟩
  | @reading ret served args h hsize =>
    obtain ⟨rfl, text, hlen, hin, rfl, rfl⟩ := hcases
    obtain ⟨rfl, rfl⟩ := take_text ((List.append_nil _).trans hin) (by rw [hlen, length_payload])
    cases hp : parseRequest (payload args) with
    | ok strs =>
      obtain rfl := parseRequest_ok (Nat.lt_of_le_of_lt hsize (by decide)) hp
      simp only [parsed, hp]
      exact .inl ⟨.dispatching h, rfl, .inl rfl⟩
    | error e =>
      simp only [parsed, hp]
      refine .inl ⟨.closed h fun hargs => ?_, rfl, .inl rfl⟩
      obtain ⟨strs, hok⟩ := parseRequest_acceptable hargs
      rw [hok] at hp
      cases hp
  | dispatching h =>
    obtain ⟨r, rfl, hnext, rfl, rfl⟩ := hcases
    cases hnext
    exact .inl ⟨.answering h, rfl, .inl rfl⟩
  | answering h =>
    obtain ⟨rfl, rfl, rfl, rfl⟩ := hcases
    exact .inl ⟨.answered h, rfl, .inl rfl⟩
  | closed h hbad =>
    obtain ⟨r, rfl, hnext, rfl, rfl⟩ := hcases
    cases hnext

/-! ## The histories -/

theorem returned_wholeStep {c c' : Caller} {inb outb inb' outb' : Bytes} {a : Option (List Bytes)}
    (h : WholeStep clientNeed c inb outb a c' inb' outb') :
    c'.returned = c.returned ∨ ∃ x, c'.returned = c.returned ++ [x] := by
  have hcases := h.cases
  obtain ⟨calling, ret⟩ := c
  cases calling with
  | idle =>
    obtain ⟨args, -, hnext, -⟩ := hcases
    obtain ⟨msg, -, rfl⟩ := Option.map_eq_some_iff.1 hnext
    exact .inl rfl
  | sending args msg =>
    obtain ⟨-, rfl, -⟩ := hcases
    exact .inl rfl
  | header args =>
    obtain ⟨-, text, -, -, rfl, -⟩ := hcases
    dsimp only
    split
    · exact .inr ⟨_, rfl⟩
    · exact .inl rfl
  | body args len =>
    obtain ⟨-, text, -, -, rfl, -⟩ := hcases
    exact .inr ⟨_, rfl⟩

theorem served_wholeStep {s s' : Serving} {inb outb inb' outb' : Bytes} {b : Option Response}
    (h : WholeStep serverNeed s inb outb b s' inb' outb') : s.served <+: s'.served := by
  have hcases := h.cases
  obtain ⟨handling, served⟩ := s
  cases handling with
  | header =>
    obtain ⟨-, text, -, -, rfl, -⟩ := hcases
    exact List.prefix_rfl
  | body len =>
    obtain ⟨-, text, -, -, rfl, -⟩ := hcases
    exact List.prefix_rfl
  | dispatch args =>
    obtain ⟨r, -, hnext, -⟩ := hcases
    cases hnext
    exact List.prefix_append _ _
  | answer r =>
    obtain ⟨-, rfl, -⟩ := hcases
    exact List.prefix_rfl
  | closed =>
    obtain ⟨r, -, hnext, -⟩ := hcases
    cases hnext

theorem returned_control {e : End Caller} {c : Caller} (h : e = .reading c e.got ∨ e = .writing c e.rest) :
    (e.control clientNeed).returned = c.returned := by
  rcases h with h | h
  · rw [h, End.control_reading]
  · rw [h]
    obtain ⟨calling, ret⟩ := c
    cases calling <;> rfl

theorem Tcp.Step.histories {t t' : Tcp} (h : t.Step t') :
    (t'.returned = t.returned ∨ ∃ x, t'.returned = t.returned ++ [x]) ∧ t.served <+: t'.served := by
  cases h with
  | client _ h =>
    rcases h.whole with hw | ⟨heq, -⟩
    · simp only [Tcp.returned, Tcp.served, whole]
      generalize Link.whole clientNeed serverNeed _ = w at hw ⊢
      generalize Link.whole clientNeed serverNeed _ = w' at hw ⊢
      cases hw with
      | left hw => exact ⟨returned_wholeStep hw, List.prefix_rfl⟩
    · simp only [Tcp.returned, Tcp.served, whole]
      rw [heq]
      exact ⟨.inl rfl, List.prefix_rfl⟩
  | server h =>
    rcases h.whole with hw | ⟨heq, -⟩
    · simp only [Tcp.returned, Tcp.served, whole]
      generalize Link.whole clientNeed serverNeed _ = w at hw ⊢
      generalize Link.whole clientNeed serverNeed _ = w' at hw ⊢
      cases hw with
      | right hw => exact ⟨.inl rfl, served_wholeStep hw⟩
    · simp only [Tcp.returned, Tcp.served, whole]
      rw [heq]
      exact ⟨.inl rfl, List.prefix_rfl⟩
  | @fails c e s toRight toLeft args _ h _ =>
    refine ⟨.inr ⟨(args, none), ?_⟩, List.prefix_rfl⟩
    simp only [Tcp.returned, whole, Link.whole, returned_control h]
    rfl
  | closes l => exact ⟨.inl rfl, List.prefix_rfl⟩

/-! ## Every call returns its own answer -/

def succeeded (c : List Bytes × Option ClientResponse) : Bool := c.2.isSome

/-- The dispatched requests up to those of the calls that have returned, and behind them at most the one being made. -/
theorem Sync.paired {w : Exchange} (h : Sync w) : ∃ done more, w.right.served = done ++ more ∧
    List.Forall₂ Answers w.left.returned done ∧
    ∀ x ∈ more, more.length = 1 ∧ w.left.calling.request = some (x.1.map utf8) := by
  cases h with
  | @idle ret served h | @sending ret served _ _ h | @sent ret served _ h | @reading ret served _ h
    | @dispatching ret served _ h | @closed ret served _ _ h =>
    exact ⟨served, [], (List.append_nil _).symm, h, by simp⟩
  | @answering ret served strs r h | @answered ret served strs r h | @receiving ret served strs r h =>
    refine ⟨served, [(strs, r)], rfl, h, ?_⟩
    intro x hx
    rw [List.mem_singleton] at hx
    subst hx
    exact ⟨rfl, rfl⟩

structure InStep (t : Tcp) : Prop where
  paired : ∃ done more, t.served = done ++ more ∧ List.Forall₂ Answers (t.returned.takeWhile succeeded) done
  sync : (∀ c ∈ t.returned, succeeded c) → Sync (whole t.link)

/-- A call that fails, or one behind it, adds nothing to the calls before the first failure. -/
theorem takeWhile_concat_of_not_all {α : Type} {p : α → Bool} {l : List α} {x : α} (h : ¬ ∀ c ∈ l ++ [x], p c) :
    (l ++ [x]).takeWhile p = l.takeWhile p := by
  rw [List.takeWhile_append]
  split
  · rename_i hlen
    have hall : ∀ c ∈ l, p c := by
      rw [← List.takeWhile_eq_self_iff]
      exact (List.takeWhile_prefix p).eq_of_length hlen
    have hx : ¬ p x := by
      intro hx
      apply h
      intro c hc
      rcases List.mem_append.1 hc with hc | hc
      · exact hall c hc
      · rwa [List.mem_singleton.1 hc]
    rw [List.takeWhile_cons_of_neg hx, List.append_nil, List.takeWhile_eq_self_iff.2 hall]
  · rfl

theorem InStep.of_sync {t : Tcp} (h : Sync (whole t.link)) (hall : ∀ c ∈ t.returned, succeeded c) : InStep t := by
  obtain ⟨done, more, hserved, hpaired, -⟩ := h.paired
  refine ⟨⟨done, more, hserved, ?_⟩, fun _ => h⟩
  rwa [List.takeWhile_eq_self_iff.2 hall]

theorem InStep.step {t t' : Tcp} (h : InStep t) (hstep : t.Step t')
    (hframed : ∀ x ∈ t.served, x.2.encode.length < 2 ^ 32) : InStep t' := by
  obtain ⟨hret, hserved⟩ := hstep.histories
  by_cases hall : ∀ c ∈ t'.returned, succeeded c
  · -- no call has failed: the connection is in step
    refine .of_sync ?_ hall
    have hbefore : ∀ c ∈ t.returned, succeeded c := by
      intro c hc
      apply hall
      rcases hret with heq | ⟨x, heq⟩ <;> simp [heq, hc]
    have hsync := h.sync hbefore
    have hafter : ∀ {ev} {l l' : Link Caller Serving}, After (whole l) ev (whole l') →
        (∀ c ∈ (whole l').left.returned, succeeded c) → Sync (whole l') := by
      rintro ev l l' (⟨hs, -⟩ | ⟨strs, r, -, -, -, -, hleft, hs⟩) hsome
      · exact hs
      · have hlast := hsome (strs.map utf8, received r) (by simp [hleft, Caller.done])
        apply hs
        by_contra hsize
        rw [received, if_neg hsize] at hlast
        cases hlast
    cases hstep with
    | client _ hl =>
      rcases hl.whole with hw | ⟨heq, -⟩
      · exact hafter (hsync.client hframed hw) hall
      · change Sync (Link.whole clientNeed serverNeed _)
        rwa [heq]
    | server hl =>
      rcases hl.whole with hw | ⟨heq, -⟩
      · exact hafter (hsync.server hw) hall
      · change Sync (Link.whole clientNeed serverNeed _)
        rwa [heq]
    | @fails c e s toRight toLeft args _ hend hargs =>
      have hlast := hall (args, none) (by simp [Tcp.returned, whole, Link.whole, Caller.done])
      cases hlast
    | closes l => exact hsync
  · -- what has been paired stays so
    obtain ⟨done, more, hsplit, hpaired⟩ := h.paired
    obtain ⟨new, hnew⟩ := hserved
    refine ⟨⟨done, more ++ new, ?_, ?_⟩, fun hsome => absurd hsome hall⟩
    · rw [← hnew, hsplit, List.append_assoc]
    · rcases hret with heq | ⟨x, heq⟩
      · rwa [heq]
      · rw [heq] at hall ⊢
        rwa [takeWhile_concat_of_not_all hall]

theorem InStep.reachable {t : Tcp} (h : t.Reachable) :
    (∀ x ∈ t.served, x.2.encode.length < 2 ^ 32) → InStep t := by
  induction h with
  | refl =>
    intro _
    exact .of_sync (.idle .nil) (by simp [Tcp.returned, Tcp.start, whole, Link.whole])
  | tail _ hstep ih =>
    intro hframed
    have hbefore := fun x hx => hframed x (hstep.histories.2.subset hx)
    exact (ih hbefore).step hstep hbefore

/-- **Safety.** However the two ends' transfers are cut and interleaved, and wherever one of them gives up: the calls before
    the first that fails have returned the answers to their own requests, each of which was dispatched once and in
    order. As long as none has failed at most one more request was dispatched, and that is the one being made. -/
theorem returned_paired {t : Tcp} (h : t.Reachable) (hframed : ∀ x ∈ t.served, x.2.encode.length < 2 ^ 32) :
    (∃ done more, t.served = done ++ more ∧ List.Forall₂ Answers (t.returned.takeWhile succeeded) done) ∧
      ((∀ c ∈ t.returned, succeeded c) → ∃ done more, t.served = done ++ more ∧
        List.Forall₂ Answers t.returned done ∧
        ∀ x ∈ more, more.length = 1 ∧ (whole t.link).left.calling.request = some (x.1.map utf8)) := by
  have hin := InStep.reachable h hframed
  exact ⟨hin.paired, fun hall => (hin.sync hall).paired⟩

/-- Where a call without arguments is when it has returned; the answer was nil. -/
def calledOnce : Tcp :=
  ⟨⟨.ready ⟨.idle, [([], some { tag := .nil })]⟩, .ready ⟨.header, [([], .nil)]⟩, [], []⟩, true⟩

theorem call_nil : (sendFrame []).map (fun msg => (⟨.sending [] msg, []⟩ : Caller)) =
    some ⟨.sending [] [4, 0, 0, 0, 0, 0, 0, 0], []⟩ := by
  rw [show sendFrame [] = some [4, 0, 0, 0, 0, 0, 0, 0] by decide]
  rfl

/-- The request leaves in two pieces, and the server waits for its fourth byte. -/
theorem calledOnce_reachable : calledOnce.Reachable := by
  have t₀ : Tcp.start.Reachable := .refl
  have t₁ := t₀.tail (.client true (.left (.take [] [] rfl call_nil)))
  have t₂ := t₁.tail (.client true (.left (.startWrite [] [] rfl)))
  have t₃ := t₂.tail (.client true (.left (.send [4, 0, 0] [0, 0, 0, 0, 0] [] [] (by simp))))
  have t₄ := t₃.tail (.server (.right (.startRead [4, 0, 0] [] rfl)))
  have t₅ := t₄.tail (.server (.right (.recv [4, 0, 0] [] [] rfl (by simp) (by decide))))
  have t₆ := t₅.tail (.client true (.left (.send [0, 0, 0, 0, 0] [] [] [] (by simp))))
  have t₇ := t₆.tail (.client true (.left (.sent [] [0, 0, 0, 0, 0] rfl)))
  have t₈ := t₇.tail (.server (.right (.recv [0] [0, 0, 0, 0] [] rfl (by simp) (by decide))))
  have t₉ := t₈.tail (.server (.right (.received [0, 0, 0, 0] [] rfl rfl)))
  have t₁₀ := t₉.tail (.server (.right (.startRead [0, 0, 0, 0] [] rfl)))
  have t₁₁ := t₁₀.tail (.server (.right (.recv [0, 0, 0, 0] [] [] rfl (by simp) (by decide))))
  have t₁₂ := t₁₁.tail (.server (.right (.received [] [] rfl rfl)))
  have t₁₃ := t₁₂.tail (.server (.right (.take (a := .nil) [] [] rfl rfl)))
  have t₁₄ := t₁₃.tail (.server (.right (.startWrite [] [] rfl)))
  have t₁₅ := t₁₄.tail (.server (.right (.send [1, 0, 0, 0, 0] [] [] [] (by simp))))
  have t₁₆ := t₁₅.tail (.server (.right (.sent [] [1, 0, 0, 0, 0] rfl)))
  have t₁₇ := t₁₆.tail (.client true (.left (.startRead [1, 0, 0, 0, 0] [] rfl)))
  have t₁₈ := t₁₇.tail (.client true (.left (.recv [1, 0, 0, 0] [0] [] rfl (by simp) (by decide))))
  have t₁₉ := t₁₈.tail (.client true (.left (.received [0] [] rfl rfl)))
  have t₂₀ := t₁₉.tail (.client true (.left (.startRead [0] [] rfl)))
  have t₂₁ := t₂₀.tail (.client true (.left (.recv [0] [] [] rfl (by simp) (by decide))))
  have t₂₂ := t₂₁.tail (.client true (.left (.received [] [] rfl rfl)))
  exact t₂₂

theorem returned_paired_once : calledOnce.Reachable ∧ (∀ x ∈ calledOnce.served, x.2.encode.length < 2 ^ 32) ∧
    (∃ done more, calledOnce.served = done ++ more ∧
      List.Forall₂ Answers (calledOnce.returned.takeWhile succeeded) done) ∧
    ((∀ c ∈ calledOnce.returned, succeeded c) → ∃ done more, calledOnce.served = done ++ more ∧
      List.Forall₂ Answers calledOnce.returned done ∧
      ∀ x ∈ more, more.length = 1 ∧ (whole calledOnce.link).left.calling.request = some (x.1.map utf8)) := by
  have hframed : ∀ x ∈ calledOnce.served, x.2.encode.length < 2 ^ 32 := by
    intro x hx
    rw [show calledOnce.served = [([], .nil)] from rfl, List.mem_singleton] at hx
    subst hx
    decide
  exact ⟨calledOnce_reachable, hframed, returned_paired calledOnce_reachable hframed⟩

/-! ## Every call returns -/

/-- Anything but a new call. -/
def NoCall (ev : Event (List Bytes) Response) : Prop := ∀ args, ev ≠ .left (some args)

/-- A step of one of the two with neither of them giving up. -/
structure Tcp.Goes (t t' : Tcp) : Prop where
  before : t.listening = true
  after : t'.listening = true
  moves : t.link.Moves clientNeed serverNeed NoCall t'.link

abbrev Exchange.Goes (w w' : Exchange) : Prop := w.Moves clientNeed serverNeed NoCall w'

/-- What the server has still to get through before it waits for a request: the bytes on their way to it, and its place. -/
def upstream (w : Exchange) : Nat :=
  w.toRight.length +
    (match w.left.calling with
    | .sending _ msg => msg.length
    | _ => 0) +
    match w.right.handling with
    | .body _ => 3
    | .dispatch _ => 2
    | _ => 0

def downstream (w : Exchange) : Nat :=
  (match w.left.calling with
  | .sending _ _ => 3
  | .header _ => 2
  | .body _ _ => 1
  | .idle => 0) +
    match w.right.handling with
    | .answer _ => 1
    | _ => 0

theorem Exchange.Goes.measure {w w' : Exchange} (h : w.Goes w') : upstream w' < upstream w ∨
    upstream w' = upstream w ∧ downstream w' < downstream w := by
  obtain ⟨ev, hev, hstep⟩ := h
  cases hstep with
  | @left c c' s toRight toRight' toLeft toLeft' a hw =>
    right
    have hcases := hw.cases
    obtain ⟨calling, ret⟩ := c
    cases calling with
    | idle =>
      obtain ⟨args, rfl, -⟩ := hcases
      exact absurd rfl (hev args)
    | sending args msg =>
      obtain ⟨rfl, rfl, rfl, rfl⟩ := hcases
      simp [upstream, downstream]
    | header args =>
      obtain ⟨rfl, text, hlen, rfl, rfl, rfl⟩ := hcases
      dsimp only
      split <;> simp [upstream, downstream, Caller.done]
    | body args len =>
      obtain ⟨rfl, text, hlen, rfl, rfl, rfl⟩ := hcases
      simp [upstream, downstream, Caller.done]
  | @right c s s' toRight toRight' toLeft toLeft' b hw =>
    have hcases := hw.cases
    obtain ⟨handling, served⟩ := s
    cases handling with
    | header =>
      obtain ⟨rfl, text, hlen, rfl, rfl, rfl⟩ := hcases
      left
      dsimp only
      split <;> simp only [upstream, List.length_append, hlen] <;> omega
    | body len =>
      obtain ⟨rfl, text, hlen, rfl, rfl, rfl⟩ := hcases
      left
      simp only [parsed, upstream, List.length_append]
      cases parseRequest text <;> simp only <;> omega
    | dispatch args =>
      obtain ⟨r, rfl, hnext, rfl, rfl⟩ := hcases
      cases hnext
      left
      simp only [upstream]
      omega
    | answer r =>
      obtain ⟨rfl, rfl, rfl, rfl⟩ := hcases
      right
      simp [upstream, downstream]
    | closed =>
      obtain ⟨r, rfl, hnext, rfl, rfl⟩ := hcases
      cases hnext

theorem Exchange.Goes.wf : WellFounded fun w' w => Exchange.Goes w w' := by
  have hlex := WellFounded.prod_lex Nat.lt_wfRel.wf Nat.lt_wfRel.wf
  refine Subrelation.wf ?_ (InvImage.wf (fun w => (upstream w, downstream w)) hlex)
  intro w' w h
  rcases h.measure with hlt | ⟨heq, hlt⟩
  · exact Prod.Lex.left _ _ hlt
  · change Prod.Lex _ _ (upstream w', downstream w') (upstream w, downstream w)
    rw [heq]
    exact Prod.Lex.right _ hlt

/-- Neither end moves without a call unless the server still answers the last. -/
theorem Tcp.Goes.wf : WellFounded fun t' t => Tcp.Goes t t' :=
  Subrelation.wf (fun h => h.moves) (InvImage.wf Tcp.link (Link.wf Exchange.Goes.wf))

/-- In the middle of a call somebody can always go on. -/
theorem Sync.progress {w : Exchange} (h : Sync w) {args : List Bytes} (hreq : w.left.calling.request = some args)
    (hargs : Acceptable args) : ∃ w', w.Goes w' := by
  have hnone : NoCall (.left none) := by
    intro args h
    cases h
  have hright : ∀ b, NoCall (.right b) := by
    intro b args h
    cases h
  cases h with
  | idle h => cases hreq
  | sending h hmsg => exact ⟨_, _, hnone, .left (.write [] [] rfl)⟩
  | sent h hsize => exact ⟨_, _, hright none, .right (.read _ [] rfl (length_leBytes _ _))⟩
  | @reading ret served args h hsize =>
    have hread := @WholeStep.read _ _ serverNeed ⟨.body (payloadLen args), served⟩ _ _ _ [] [] rfl (length_payload args)
    rw [List.append_nil] at hread
    exact ⟨_, _, hright none, .right hread⟩
  | dispatching h => exact ⟨_, _, hright (some .nil), .right (.take [] [] rfl rfl)⟩
  | answering h => exact ⟨_, _, hright none, .right (.write [] [] rfl)⟩
  | answered h => exact ⟨_, _, hnone, .left (.read _ [] rfl (length_leBytes _ _))⟩
  | @receiving ret served strs r h hsize =>
    have hread := @WholeStep.read _ _ clientNeed ⟨.body (strs.map utf8) r.encode.length, ret⟩ _ _ _ [] [] rfl rfl
    rw [List.append_nil] at hread
    exact ⟨_, _, hnone, .left hread⟩
  | closed h hbad =>
    cases hreq
    exact absurd hargs hbad

/-- Where the call of `args` gets to: it is still made, or it has returned the last answer and nothing moves. -/
def Called (ret : List (List Bytes × Option ClientResponse)) (args : List Bytes) (w : Exchange) : Prop :=
  Sync w ∧ w.left.returned = ret ∧ w.left.calling.request = some args ∨
    ∃ strs r served, args = strs.map utf8 ∧ served.getLast? = some (strs, r) ∧
      w.left = ⟨.idle, ret ++ [(args, received r)]⟩ ∧ w.right = ⟨.header, served⟩ ∧ w.toRight = []

theorem Called.step {ret : List (List Bytes × Option ClientResponse)} {args : List Bytes} {w w' : Exchange}
    (h : Called ret args w) (hframed : ∀ x ∈ w.right.served, x.2.encode.length < 2 ^ 32) (hgo : w.Goes w') :
    Called ret args w' := by
  obtain ⟨ev, hev, hstep⟩ := hgo
  rcases h with ⟨hsync, rfl, hreq⟩ | ⟨strs, r, served, -, -, hleft, hright, hempty⟩
  · have hafter : After w ev w' := by
      cases ev with
      | left a => exact hsync.client hframed hstep
      | right b => exact hsync.server hstep
    rcases hafter with ⟨hs, hret, hsame | ⟨new, rfl⟩⟩ | ⟨strs, r, hmade, hlast, hright, hempty, hleft, -⟩
    · exact .inl ⟨hs, hret, hsame.trans hreq⟩
    · exact absurd rfl (hev new)
    · rw [hmade, Option.some.injEq] at hreq
      subst hreq
      exact .inr ⟨strs, r, w.right.served, rfl, hlast, hleft, hright, hempty⟩
  · cases hstep with
    | left hw =>
      dsimp only at hleft
      subst hleft
      obtain ⟨new, rfl, -⟩ := hw.cases
      exact absurd rfl (hev new)
    | right hw =>
      dsimp only at hright hempty
      subst hright hempty
      obtain ⟨-, text, hlen, hin, -⟩ := hw.cases
      obtain ⟨rfl, -⟩ := List.append_eq_nil_iff.1 hin.symm
      cases hlen

theorem Tcp.Step.sound {t t' : Tcp} (h : t.Step t') (ht : t.link.Sound clientNeed serverNeed) :
    t'.link.Sound clientNeed serverNeed := by
  cases h with
  | client _ h => exact h.sound ht
  | server h => exact h.sound ht
  | fails => exact ⟨trivial, ht.2⟩
  | closes => exact ht

theorem Tcp.Reachable.sound {t : Tcp} (h : t.Reachable) : t.link.Sound clientNeed serverNeed := by
  induction h with
  | refl => exact ⟨trivial, trivial⟩
  | tail _ hstep ih => exact hstep.sound ih

theorem Tcp.Goes.step {t t' : Tcp} (h : t.Goes t') : t.Step t' := by
  obtain ⟨l, listening⟩ := t
  obtain ⟨l', listening'⟩ := t'
  obtain ⟨hbefore, hafter, ev, -, hstep⟩ := h
  dsimp only at hbefore hafter hstep
  subst hbefore hafter
  cases ev with
  | left a => exact .client true hstep
  | right b => exact .server hstep

/-- **Liveness.** A call of a request that the server takes, with no failed call before it: unless one of the two gives up,
    the transfers of the call come to an end, and where they have come to an end the call has returned what its answer is
    to the client. -/
theorem call_returns {t : Tcp} (h : t.Reachable) (hlistening : t.listening = true) (hall : ∀ c ∈ t.returned, succeeded c)
    {args : List Bytes} (hreq : (whole t.link).left.calling.request = some args) (hargs : Acceptable args) :
    Acc (fun t' t => Tcp.Goes t t') t ∧
      ∀ t', Relation.ReflTransGen Tcp.Goes t t' → (∀ x ∈ t'.served, x.2.encode.length < 2 ^ 32) →
        (¬ ∃ t'', t'.Goes t'') → ∃ strs r, args = strs.map utf8 ∧ t'.served.getLast? = some (strs, r) ∧
          t'.returned = t.returned ++ [(args, received r)] := by
  refine ⟨Tcp.Goes.wf.apply t, ?_⟩
  intro t' hrun hframed hend
  have hinv : (∀ x ∈ t'.served, x.2.encode.length < 2 ^ 32) →
      Called t.returned args (whole t'.link) ∧ t'.link.Sound clientNeed serverNeed ∧ t'.listening = true := by
    clear hframed hend
    induction hrun with
    | refl =>
      intro hframed
      exact ⟨.inl ⟨(InStep.reachable h hframed).sync hall, rfl, hreq⟩, h.sound, hlistening⟩
    | @tail t₁ t₂ hrun hgo ih =>
      intro hframed
      have hstep := hgo.step
      have hbefore := fun x hx => hframed x (hstep.histories.2.subset hx)
      obtain ⟨hcalled, hsound, -⟩ := ih hbefore
      refine ⟨?_, hstep.sound hsound, hgo.after⟩
      obtain ⟨ev, hev, hl⟩ := hgo.moves
      rcases hl.whole with hw | ⟨heq, -⟩
      · exact hcalled.step hbefore ⟨ev, hev, hw⟩
      · change Called _ _ (Link.whole clientNeed serverNeed _)
        rwa [heq]
  obtain ⟨hcalled, hsound, hstill⟩ := hinv hframed
  have hstuck := Link.stuck (P := NoCall) (by intro _ h; cases h) (by intro _ h; cases h) hsound fun ⟨l', hl'⟩ =>
    hend ⟨⟨l', true⟩, hstill, rfl, hl'⟩
  rcases hcalled with ⟨hsync, -, hmade⟩ | ⟨strs, r, served, hstrs, hlast, hleft, hright, -⟩
  · exact absurd (hsync.progress hmade hargs) hstuck
  · refine ⟨strs, r, hstrs, ?_, ?_⟩
    · rw [Tcp.served, hright, hlast]
    · rw [Tcp.returned, hleft]

/-- Three bytes of a request are on their way. -/
def callBegun : Tcp :=
  ⟨⟨.writing ⟨.sending [] [4, 0, 0, 0, 0, 0, 0, 0], []⟩ [0, 0, 0, 0, 0], .ready ⟨.header, []⟩, [4, 0, 0], []⟩, true⟩

theorem callBegun_reachable : callBegun.Reachable := by
  have t₀ : Tcp.start.Reachable := .refl
  have t₁ := t₀.tail (.client true (.left (.take [] [] rfl call_nil)))
  have t₂ := t₁.tail (.client true (.left (.startWrite [] [] rfl)))
  exact t₂.tail (.client true (.left (.send [4, 0, 0] [0, 0, 0, 0, 0] [] [] (by simp))))

theorem call_returns_begun : callBegun.Reachable ∧ Acc (fun t' t => Tcp.Goes t t') callBegun ∧
    ∀ t', Relation.ReflTransGen Tcp.Goes callBegun t' → (∀ x ∈ t'.served, x.2.encode.length < 2 ^ 32) →
      (¬ ∃ t'', t'.Goes t'') → ∃ strs r, [] = List.map utf8 strs ∧ t'.served.getLast? = some (strs, r) ∧
        t'.returned = callBegun.returned ++ [([], received r)] := by
  have hargs : Acceptable [] := ⟨by decide, by decide, by simp⟩
  exact ⟨callBegun_reachable, call_returns callBegun_reachable rfl (by simp [callBegun, Tcp.returned, whole, Link.whole,
    End.control, clientNeed]) rfl hargs⟩

end RedisOps.Proto
