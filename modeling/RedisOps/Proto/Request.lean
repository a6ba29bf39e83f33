import RedisOps.Lib.Text

/-!
# Requests: the client's frames and the server's reader

| here | there |
| --- | --- |
| `sendFrame`    | the message buffer built by `RedisClient::send` (`sandbox/src/redis_client.cpp:61-82`) |
| `readArgs`, `readRequest` | `proto::read_request` (`redisdb/src/proto/mod.rs:70-102`) |
| `readRequests` | the calls `handle_conn` makes one after another (`redisdb/src/server.rs:136-155`) |

A frame is `[u32 msg_len][u32 n_args]([u32 arg_len][arg])*`. The sizes on the client side are 32-bit
sums; the server slices every length off the front of what is left.
-/

namespace RedisOps.Proto

open Lib

def MAX_MSG_SIZE : Nat := 4 * 1024 * 1024
def MAX_ARGS : Nat := 1024

/-! ## The client side -/

/-- `payload_size` (`redis_client.cpp:63-66`): a `uint32_t` sum. -/
def payloadSize (args : List Bytes) : UInt32 :=
  args.foldl (fun size arg => size + UInt32.ofNat (4 + arg.length)) 4

/-- `memcpy` into the message; writing past its end is undefined behaviour. -/
def memcpyTo (msg : Bytes) (off : Nat) (src : Bytes) : Option Bytes :=
  if off + src.length ≤ msg.length then some (splice msg off src) else none

/-- The argument loop (`:75-81`). -/
def writeArgs : List Bytes → Bytes → Nat → Option Bytes
  | [], msg, _ => some msg
  | arg :: args, msg, offset =>
    match memcpyTo msg offset (leBytes 4 arg.length) with
    | none => none
    | some msg =>
      match memcpyTo msg (offset + 4) arg with
      | none => none
      | some msg => writeArgs args msg (offset + (4 + arg.length))

/-- The bytes `RedisClient::send` hands to `write_all`. -/
def sendFrame (args : List Bytes) : Option Bytes :=
  let msgLen := payloadSize args
  let msg : Bytes := List.replicate (4 + msgLen).toNat 0
  match memcpyTo msg 0 (leBytes 4 msgLen.toNat) with
  | none => none
  | some msg =>
    match memcpyTo msg 4 (leBytes 4 args.length) with
    | none => none
    | some msg => writeArgs args msg 8

/-! ## The server side -/

inductive ProtoError where
  | io
  | tooLarge (n : Nat)
  | tooManyArgs (n : Nat)
  | malformed (msg : String)
  deriving DecidableEq, Repr

/-- `read_exact`: the next `n` bytes of the stream and what follows, or an unexpected end. -/
def readExact (n : Nat) (stream : Bytes) : Except ProtoError (Bytes × Bytes) :=
  if n ≤ stream.length then .ok (stream.take n, stream.drop n) else .error .io

/-- The argument loop of `read_request` (`proto/mod.rs:87-100`). -/
def readArgs : Nat → Bytes → List String → Except ProtoError (List String)
  | 0, _, args => .ok args
  | n + 1, buf, args =>
    if buf.length < 4 then .error (.malformed "truncated arg header") else
    let sz := ofLe (buf.take 4)
    let buf := buf.drop 4
    if buf.length < sz then .error (.malformed "truncated arg body") else
    match fromUtf8 (buf.take sz) with
    | none => .error (.malformed "invalid utf-8")
    | some arg => readArgs n (buf.drop sz) (args ++ [arg])

/-- `read_request`: the arguments and the rest of the stream. -/
def readRequest (stream : Bytes) : Except ProtoError (List String × Bytes) :=
  match readExact 4 stream with
  | .error e => .error e
  | .ok (hdr, stream) =>
    let msgLen := ofLe hdr
    if msgLen > MAX_MSG_SIZE then .error (.tooLarge msgLen) else
    match readExact msgLen stream with
    | .error e => .error e
    | .ok (buf, stream) =>
      if buf.length < 4 then .error (.malformed "header too short") else
      let n := ofLe (buf.take 4)
      if n > MAX_ARGS then .error (.tooManyArgs n) else
      match readArgs n (buf.drop 4) [] with
      | .error e => .error e
      | .ok args => .ok (args, stream)

/-- `n` calls of `read_request`, each on what the one before left; the first error ends the
    connection. -/
def readRequests : Nat → Bytes → Except ProtoError (List (List String) × Bytes)
  | 0, stream => .ok ([], stream)
  | n + 1, stream =>
    match readRequest stream with
    | .error e => .error e
    | .ok (args, stream) =>
      match readRequests n stream with
      | .error e => .error e
      | .ok (reqs, stream) => .ok (args :: reqs, stream)

/-! ## The frame in closed form -/

/-- The payload `4 + sum(4 + len)` of a request. -/
def payloadLen (args : List Bytes) : Nat := 4 + (args.map fun a => 4 + a.length).sum

def argBlocks (args : List Bytes) : Bytes := args.flatMap fun a => leBytes 4 a.length ++ a

theorem length_argBlocks (args : List Bytes) :
    (argBlocks args).length = (args.map fun a => 4 + a.length).sum := by
  simp [argBlocks, List.length_flatMap]

theorem payloadSize_fold (args : List Bytes) (n : Nat) :
    (args.foldl (fun size arg => size + UInt32.ofNat (4 + arg.length)) (UInt32.ofNat n)) =
      UInt32.ofNat (n + (args.map fun a => 4 + a.length).sum) := by
  induction args generalizing n with
  | nil => simp
  | cons a args ih =>
    rw [List.foldl_cons, ← UInt32.ofNat_add, ih]
    simp [Nat.add_assoc]

/-- Below `2^32` the 32-bit sum is the true payload size. -/
theorem payloadSize_toNat {args : List Bytes} (h : payloadLen args < 2 ^ 32) :
    (payloadSize args).toNat = payloadLen args := by
  have := payloadSize_fold args 4
  rw [payloadSize, show (4 : UInt32) = UInt32.ofNat 4 from rfl, this]
  exact UInt32.toNat_ofNat_of_lt' h

/-- Writing behind `done` into a zeroed tail. -/
theorem memcpyTo_tail (done src rest : Bytes) (off : Nat) (hoff : done.length = off)
    (tail : Bytes) (ht : tail.length = src.length + rest.length) :
    ∃ tail', tail'.length = rest.length ∧
      memcpyTo (done ++ tail) off src = some ((done ++ src) ++ tail') := by
  subst hoff
  refine ⟨tail.drop src.length, by simp; omega, ?_⟩
  rw [memcpyTo, if_pos (by simp; omega), splice]
  simp [List.drop_append, List.drop_of_length_le]

theorem writeArgs_eq : ∀ (args : List Bytes) (done tail : Bytes) (off : Nat), done.length = off →
    tail.length = (argBlocks args).length →
    writeArgs args (done ++ tail) off = some (done ++ argBlocks args)
  | [], done, tail, off, _, ht => by
    have : tail = [] := List.length_eq_zero_iff.1 (by simpa [argBlocks] using ht)
    simp [writeArgs, this, argBlocks]
  | a :: args, done, tail, off, hoff, ht => by
    have hb : (argBlocks (a :: args)).length = 4 + (a.length + (argBlocks args).length) := by
      simp [argBlocks]
    obtain ⟨t1, ht1, h1⟩ := memcpyTo_tail done (leBytes 4 a.length) (a ++ argBlocks args) off hoff tail
      (by simp [ht, hb])
    obtain ⟨t2, ht2, h2⟩ := memcpyTo_tail (done ++ leBytes 4 a.length) a (argBlocks args)
      (off + 4) (by simp [hoff]) t1 (by simpa using ht1)
    have ih := writeArgs_eq args (done ++ leBytes 4 a.length ++ a) t2 (off + (4 + a.length))
      (by simp [hoff]) ht2
    simp only [writeArgs, h1, h2, ih]
    simp [argBlocks]

/-- Below `2^32` the frame is built without writing outside the message. -/
theorem sendFrame_eq_of_lt {args : List Bytes} (h : 4 + payloadLen args < 2 ^ 32) :
    sendFrame args =
      some (leBytes 4 (payloadLen args) ++ (leBytes 4 args.length ++ argBlocks args)) := by
  have h32 : payloadLen args < 2 ^ 32 := by omega
  have hsz : (4 + payloadSize args).toNat = 4 + payloadLen args := by
    rw [UInt32.toNat_add, payloadSize_toNat h32]
    exact Nat.mod_eq_of_lt h
  have hlen : payloadLen args = 4 + (argBlocks args).length := by
    rw [payloadLen, length_argBlocks]
  obtain ⟨t1, ht1, h1⟩ := memcpyTo_tail [] (leBytes 4 (payloadLen args))
    (leBytes 4 args.length ++ argBlocks args) 0 rfl (List.replicate (4 + payloadLen args) 0)
    (by simp [hlen])
  obtain ⟨t2, ht2, h2⟩ := memcpyTo_tail (leBytes 4 (payloadLen args)) (leBytes 4 args.length)
    (argBlocks args) 4 (by simp) t1 (by simpa using ht1)
  have h3 := writeArgs_eq args (leBytes 4 (payloadLen args) ++ leBytes 4 args.length) t2 8
    (by simp) ht2
  simp only [List.nil_append] at h1
  simp only [sendFrame, payloadSize_toNat h32, hsz, h1, h2, h3]
  simp

/-- **The frame.** A request whose payload fits is built without writing outside the message. -/
theorem sendFrame_eq {args : List Bytes} (h : payloadLen args ≤ MAX_MSG_SIZE) :
    sendFrame args =
      some (leBytes 4 (payloadLen args) ++ (leBytes 4 args.length ++ argBlocks args)) := by
  apply sendFrame_eq_of_lt
  simp only [MAX_MSG_SIZE] at h
  omega

theorem memcpyTo_inv {msg msg' src : Bytes} {off : Nat} (h : memcpyTo msg off src = some msg') :
    off + src.length ≤ msg.length ∧ msg'.length = msg.length := by
  unfold memcpyTo at h
  split at h
  · rename_i hle
    cases h
    exact ⟨hle, length_splice hle⟩
  · cases h

theorem writeArgs_inv : ∀ {args : List Bytes} {msg msg' : Bytes} {off : Nat}, off ≤ msg.length →
    writeArgs args msg off = some msg' → off + (argBlocks args).length ≤ msg.length
  | [], msg, msg', off, hoff, _ => by simpa [argBlocks] using hoff
  | a :: args, msg, msg', off, hoff, h => by
    rw [writeArgs] at h
    split at h
    · cases h
    · rename_i msg₁ h₁
      obtain ⟨-, hlen₁⟩ := memcpyTo_inv h₁
      split at h
      · cases h
      · rename_i msg₂ h₂
        obtain ⟨hle₂, hlen₂⟩ := memcpyTo_inv h₂
        have ih := writeArgs_inv (by omega) h
        have hb : (argBlocks (a :: args)).length = 4 + (a.length + (argBlocks args).length) := by
          simp [argBlocks]
        omega

/-- A frame is only built when the 32-bit size of the message is its true size. -/
theorem payloadLen_lt_of_sendFrame {args : List Bytes} {frame : Bytes} (h : sendFrame args = some frame) :
    4 + payloadLen args < 2 ^ 32 := by
  have hsize : payloadSize args = UInt32.ofNat (payloadLen args) := payloadSize_fold args 4
  have hmsg : (4 + payloadSize args).toNat = (4 + payloadLen args) % 2 ^ 32 := by
    rw [hsize, show (4 : UInt32) = UInt32.ofNat 4 from rfl, ← UInt32.ofNat_add, UInt32.toNat_ofNat']
  have hlen : payloadLen args = 4 + (argBlocks args).length := by
    rw [payloadLen, length_argBlocks]
  have hbig : 4 + payloadLen args ≤ (4 + payloadLen args) % 2 ^ 32 := by
    unfold sendFrame at h
    dsimp only at h
    split at h
    · cases h
    · rename_i msg₁ h₁
      obtain ⟨-, hlen₁⟩ := memcpyTo_inv h₁
      split at h
      · cases h
      · rename_i msg₂ h₂
        obtain ⟨hle₂, hlen₂⟩ := memcpyTo_inv h₂
        rw [length_leBytes] at hle₂
        have hargs := writeArgs_inv (by omega) h
        rw [List.length_replicate, hmsg] at hlen₁
        omega
  have hlt := Nat.mod_lt (4 + payloadLen args) (show 0 < 2 ^ 32 by decide)
  omega

/-! ## Reading the frame back -/

theorem readExact_append (a b : Bytes) {n : Nat} (hn : a.length = n) :
    readExact n (a ++ b) = .ok (a, b) := by
  subst hn
  simp [readExact]

/-- One round of the argument loop, on a block and what follows it. -/
theorem readArgs_block {a : Bytes} (ha : a.length < 2 ^ 32) (rest : Bytes) (n : Nat) (acc : List String) :
    readArgs (n + 1) (leBytes 4 a.length ++ (a ++ rest)) acc =
      (fromUtf8 a).elim (.error (.malformed "invalid utf-8")) fun s => readArgs n rest (acc ++ [s]) := by
  have hlen : ofLe (leBytes 4 a.length) = a.length := ofLe_leBytes_of_lt (by omega)
  rw [readArgs, if_neg (by simp), List.take_left' (length_leBytes _ _),
    List.drop_left' (length_leBytes _ _), hlen]
  simp only
  rw [if_neg (by simp), List.take_left, List.drop_left]
  cases fromUtf8 a <;> rfl

theorem argBlocks_cons (a : Bytes) (args : List Bytes) :
    argBlocks (a :: args) = leBytes 4 a.length ++ (a ++ argBlocks args) := by
  simp [argBlocks]

theorem readArgs_argBlocks_cons {a : Bytes} (ha : a.length < 2 ^ 32) (args : List Bytes) (n : Nat)
    (acc : List String) : readArgs (n + 1) (argBlocks (a :: args)) acc =
      (fromUtf8 a).elim (.error (.malformed "invalid utf-8")) fun s => readArgs n (argBlocks args) (acc ++ [s]) := by
  rw [argBlocks_cons, readArgs_block ha]

/-- The argument loop reads back the blocks, leaving bytes behind them alone. -/
theorem readArgs_argBlocks : ∀ (args : List String) (acc : List String),
    (∀ a ∈ args, (utf8 a).length < 2 ^ 32) →
    readArgs args.length (argBlocks (args.map utf8)) acc = .ok (acc ++ args)
  | [], acc, _ => by simp [readArgs]
  | a :: args, acc, h => by
    have ih := readArgs_argBlocks args (acc ++ [a]) fun b hm => h b (by simp [hm])
    rw [List.map_cons, List.length_cons, readArgs_argBlocks_cons (h a (by simp)), fromUtf8_utf8]
    simpa using ih

/-- What it takes is valid UTF-8. -/
theorem readArgs_argBlocks_inv : ∀ {args : List Bytes} {acc strs : List String},
    (∀ a ∈ args, a.length < 2 ^ 32) → readArgs args.length (argBlocks args) acc = .ok strs →
    ∀ a ∈ args, (fromUtf8 a).isSome
  | [], _, _, _, _ => by simp
  | a :: args, acc, strs, hlen, h => by
    rw [List.length_cons, readArgs_argBlocks_cons (hlen a (by simp))] at h
    cases hs : fromUtf8 a with
    | none =>
      rw [hs] at h
      cases h
    | some s =>
      rw [hs] at h
      have ih := readArgs_argBlocks_inv (fun b hb => hlen b (by simp [hb])) h
      intro b hb
      rcases List.mem_cons.1 hb with rfl | hb
      · rw [hs]
        rfl
      · exact ih b hb

theorem length_lt_of_payloadLen {args : List Bytes} (h : payloadLen args < 2 ^ 32) :
    args.length < 2 ^ 32 ∧ ∀ a ∈ args, a.length < 2 ^ 32 := by
  constructor
  · have hcount := List.length_le_sum_of_one_le (args.map fun a => 4 + a.length) (by simp; omega)
    rw [List.length_map] at hcount
    unfold payloadLen at h
    omega
  · intro a ha
    have hle : 4 + a.length ≤ (args.map fun b => 4 + b.length).sum :=
      List.single_le_sum (by simp) _ (by simpa using ⟨a, ha, rfl⟩)
    unfold payloadLen at h
    omega

/-- The server on one frame. -/
theorem readRequest_closed {args : List Bytes} (h : payloadLen args < 2 ^ 32) (t : Bytes) :
    readRequest (leBytes 4 (payloadLen args) ++ (leBytes 4 args.length ++ argBlocks args) ++ t) =
      if payloadLen args > MAX_MSG_SIZE then .error (.tooLarge (payloadLen args))
      else if args.length > MAX_ARGS then .error (.tooManyArgs args.length)
      else (readArgs args.length (argBlocks args) []).map fun strs => (strs, t) := by
  have hlen : (leBytes 4 args.length ++ argBlocks args).length = payloadLen args := by
    simp [payloadLen, length_argBlocks]
  have hpl : ofLe (leBytes 4 (payloadLen args)) = payloadLen args := ofLe_leBytes_of_lt h
  have hnl : ofLe (leBytes 4 args.length) = args.length :=
    ofLe_leBytes_of_lt (length_lt_of_payloadLen h).1
  rw [readRequest, List.append_assoc, readExact_append _ _ (length_leBytes _ _)]
  simp only [hpl]
  split
  · rfl
  · rw [readExact_append _ _ hlen]
    simp only
    rw [if_neg (by simp), List.take_left' (length_leBytes _ _), hnl, List.drop_left' (length_leBytes _ _)]
    split
    · rfl
    · cases readArgs args.length (argBlocks args) [] <;> rfl

/-- **One frame.** The server reads the client's frame back as the request and consumes exactly it. -/
theorem readRequest_frame {args : List String} (hn : args.length ≤ MAX_ARGS)
    (hp : payloadLen (args.map utf8) ≤ MAX_MSG_SIZE) {frame : Bytes}
    (hf : sendFrame (args.map utf8) = some frame) (t : Bytes) :
    readRequest (frame ++ t) = .ok (args, t) := by
  rw [sendFrame_eq hp, Option.some.injEq] at hf
  subst hf
  have hlt : payloadLen (args.map utf8) < 2 ^ 32 := by
    simp only [MAX_MSG_SIZE] at hp
    omega
  have hargs : ∀ a ∈ args, (utf8 a).length < 2 ^ 32 := fun a ha =>
    (length_lt_of_payloadLen hlt).2 (utf8 a) (List.mem_map_of_mem ha)
  rw [readRequest_closed hlt, if_neg (by omega), List.length_map, if_neg (by omega),
    readArgs_argBlocks args [] hargs]
  rfl

/-- What `read_request` asks of a request. -/
def Acceptable (args : List Bytes) : Prop :=
  payloadLen args ≤ MAX_MSG_SIZE ∧ args.length ≤ MAX_ARGS ∧ ∀ a ∈ args, (fromUtf8 a).isSome

instance (args : List Bytes) : Decidable (Acceptable args) :=
  inferInstanceAs (Decidable (_ ∧ _ ∧ _))

/-- A frame that is accepted is small enough and all of it valid UTF-8. -/
theorem readRequest_frame_inv {args : List Bytes} {frame t t' : Bytes} {strs : List String}
    (hf : sendFrame args = some frame) (h : readRequest (frame ++ t) = .ok (strs, t')) :
    Acceptable args ∧ t' = t := by
  have hlt := payloadLen_lt_of_sendFrame hf
  rw [sendFrame_eq_of_lt hlt, Option.some.injEq] at hf
  subst hf
  rw [readRequest_closed (by omega)] at h
  split at h
  · cases h
  · split at h
    · cases h
    · cases hargs : readArgs args.length (argBlocks args) [] with
      | error e =>
        rw [hargs] at h
        cases h
      | ok strs' =>
        rw [hargs] at h
        cases h
        exact ⟨⟨by omega, by omega,
          readArgs_argBlocks_inv (length_lt_of_payloadLen (by omega)).2 hargs⟩, rfl⟩

/-- **Pipelining.** `i` calls of the server's reader on the client's frames, whatever bytes follow them,
    return the first `i` requests in order and have consumed exactly `i` frames. -/
theorem readRequests_frames (reqs : List (List String)) (t : Bytes)
    (h : ∀ args ∈ reqs, args.length ≤ MAX_ARGS ∧ payloadLen (args.map utf8) ≤ MAX_MSG_SIZE) :
    ∃ frames : List Bytes, reqs.map (fun args => sendFrame (args.map utf8)) = frames.map some ∧
      ∀ i ≤ reqs.length, readRequests i (frames.flatten ++ t) =
        .ok (reqs.take i, (frames.drop i).flatten ++ t) := by
  induction reqs with
  | nil =>
    refine ⟨[], rfl, fun i hi => ?_⟩
    obtain rfl : i = 0 := by simpa using hi
    simp [readRequests]
  | cons args reqs ih =>
    obtain ⟨hn, hp⟩ := h args (by simp)
    obtain ⟨frames, hfr, hread⟩ := ih fun a ha => h a (by simp [ha])
    obtain ⟨frame, hframe⟩ : ∃ frame, sendFrame (args.map utf8) = some frame := ⟨_, sendFrame_eq hp⟩
    refine ⟨frame :: frames, by simp [hframe, hfr], fun i hi => ?_⟩
    cases i with
    | zero => simp [readRequests]
    | succ i =>
      have hone := readRequest_frame hn hp hframe (frames.flatten ++ t)
      have hrest := hread i (by simpa using hi)
      simp only [readRequests, List.flatten_cons, List.append_assoc, hone, hrest]
      simp

/-- Three requests, one of them empty and one with a two-byte character, before a truncated frame. -/
theorem readRequests_frames_three :
    (∀ args ∈ [["set", "k", "é"], [], ["get", "k"]],
        args.length ≤ MAX_ARGS ∧ payloadLen (args.map utf8) ≤ MAX_MSG_SIZE) ∧
      ∃ frames : List Bytes,
        [["set", "k", "é"], [], ["get", "k"]].map (fun args => sendFrame (args.map utf8)) =
          frames.map some ∧
        ∀ i ≤ 3, readRequests i (frames.flatten ++ [9, 0]) =
          .ok ([["set", "k", "é"], [], ["get", "k"]].take i, (frames.drop i).flatten ++ [9, 0]) := by
  have h : ∀ args ∈ [["set", "k", "é"], [], ["get", "k"]],
      args.length ≤ MAX_ARGS ∧ payloadLen (args.map utf8) ≤ MAX_MSG_SIZE := by decide
  exact ⟨h, readRequests_frames _ [9, 0] h⟩

end RedisOps.Proto
