import RedisOps.Lib.Decimal

/-!
# IPC messages: what `send_raw` writes and `receive_loop` reads

| here | there |
| --- | --- |
| `IPCMessage` | `devops::IPCMessage` (`sandbox/include/devops/ipc.hpp:24-31`) |
| `serialize`  | the message built by `IPCChannel::send_raw` (`sandbox/src/ipc.cpp:101-126`) |
| `recv`       | `recv` into the buffer of `receive_loop` (`:208`, `:220`) |
| `readField`, `parse` | the reader in `receive_loop` (`:223-247`) |

Strings are raw bytes. A datagram is five texts, each ended by a NUL, then the length of the payload as a little-endian
word and the payload. The reader works on the whole buffer: behind the datagram it still holds what earlier ones have
left there. An exception of `std::stoull` and a read outside the buffer are `none`.
-/

namespace RedisOps.Ipc

open Lib

structure IPCMessage where
  from_ : Bytes
  to_ : Bytes
  topic : Bytes
  payload : Bytes
  timestamp : UInt64
  sequence : UInt64
  deriving DecidableEq

/-- A text and the NUL behind it. -/
def field (text : Bytes) : Bytes := text ++ [0]

def serialize (msg : IPCMessage) : Bytes :=
  field msg.from_ ++ field msg.to_ ++ field msg.topic ++ field (toDecimal msg.timestamp.toNat) ++
    field (toDecimal msg.sequence.toNat) ++ leBytes 4 msg.payload.length ++ msg.payload

/-- `uint8_t buffer[65536]`. -/
def BUFFER_SIZE : Nat := 65536

/-- `recv`: the datagram, cut to the size of the buffer, over the first bytes of it, and its length. -/
def recv (buffer datagram : Bytes) : Bytes × Nat :=
  (splice buffer 0 (datagram.take BUFFER_SIZE), (datagram.take BUFFER_SIZE).length)

/-- `read_field` (`:226-233`): up to a NUL or the end of the datagram; the position goes behind the NUL. -/
def readField (buffer : Bytes) (received pos : Nat) : Bytes × Nat :=
  let text := ((buffer.take received).drop pos).takeWhile (· != 0)
  (text, pos + text.length + 1)

def parse (buffer : Bytes) (received : Nat) : Option IPCMessage :=
  let (from_, pos) := readField buffer received 0
  let (to_, pos) := readField buffer received pos
  let (topic, pos) := readField buffer received pos
  let (timestamp, pos) := readField buffer received pos
  match stoull timestamp with
  | none => none
  | some timestamp =>
    let (sequence, pos) := readField buffer received pos
    match stoull sequence with
    | none => none
    | some sequence =>
      if buffer.length < pos + 4 then none else
      let len := ofLe (slice buffer pos 4)
      let pos := pos + 4
      if buffer.length < pos + len then none else
      some { from_, to_, topic, payload := slice buffer pos len, timestamp, sequence }

/-! ## Reading back -/

/-- With the position behind `pre`, the next field is read and the position is behind that. -/
theorem readField_next {buffer pre text rest : Bytes} (received : Nat)
    (hbuffer : buffer = pre ++ (field text ++ rest)) (htext : 0 ∉ text) (hin : (pre ++ field text).length ≤ received) :
    readField buffer received pre.length = (text, (pre ++ field text).length) ∧
      buffer = (pre ++ field text) ++ rest := by
  have hcut : buffer.take received = pre ++ (text ++ 0 :: rest.take (received - (pre ++ field text).length)) := by
    rw [hbuffer, ← List.append_assoc, List.take_append, List.take_of_length_le hin]
    simp [field]
  have hwhile : (text ++ 0 :: rest.take (received - (pre ++ field text).length)).takeWhile (· != 0) = text := by
    rw [List.takeWhile_append_of_pos]
    · simp
    · intro b hb
      simp only [bne_iff_ne, ne_eq]
      rintro rfl
      exact htext hb
  refine ⟨?_, by rw [hbuffer, List.append_assoc]⟩
  rw [readField, hcut, List.drop_left]
  simp only [hwhile]
  simp [field, Nat.add_assoc]

/-- The reader on a datagram at the front of the buffer, field after field. -/
theorem parse_append (msg : IPCMessage) (hfrom : 0 ∉ msg.from_) (hto : 0 ∉ msg.to_) (htopic : 0 ∉ msg.topic)
    (hlen : msg.payload.length < 2 ^ 32) (stale : Bytes) :
    parse (serialize msg ++ stale) (serialize msg).length = some msg := by
  have hts := stoull_toDecimal msg.timestamp
  have hsq := stoull_toDecimal msg.sequence
  have hzero : isDigitByte 0 = false := rfl
  have hts0 := not_mem_toDecimal hzero msg.timestamp.toNat
  have hsq0 := not_mem_toDecimal hzero msg.sequence.toNat
  have hbuf : serialize msg ++ stale = [] ++ (field msg.from_ ++ (field msg.to_ ++ (field msg.topic ++
      (field (toDecimal msg.timestamp.toNat) ++ (field (toDecimal msg.sequence.toNat) ++
        (leBytes 4 msg.payload.length ++ (msg.payload ++ stale))))))) := by
    simp only [serialize, List.append_assoc, List.nil_append]
  have hlength : (serialize msg).length = (field msg.from_).length + (field msg.to_).length + (field msg.topic).length +
      (field (toDecimal msg.timestamp.toNat)).length + (field (toDecimal msg.sequence.toNat)).length + 4 +
        msg.payload.length := by
    simp only [serialize, List.length_append, length_leBytes]
  generalize serialize msg ++ stale = buffer at hbuf ⊢
  generalize (serialize msg).length = received at hlength ⊢
  obtain ⟨h1, hbuf⟩ := readField_next received hbuf hfrom (by simp only [List.length_append, List.length_nil]; omega)
  obtain ⟨h2, hbuf⟩ := readField_next received hbuf hto (by simp only [List.length_append, List.length_nil]; omega)
  obtain ⟨h3, hbuf⟩ := readField_next received hbuf htopic (by simp only [List.length_append, List.length_nil]; omega)
  obtain ⟨h4, hbuf⟩ := readField_next received hbuf hts0 (by simp only [List.length_append, List.length_nil]; omega)
  obtain ⟨h5, hbuf⟩ := readField_next received hbuf hsq0 (by simp only [List.length_append, List.length_nil]; omega)
  generalize hpre : [] ++ field msg.from_ ++ field msg.to_ ++ field msg.topic ++
    field (toDecimal msg.timestamp.toNat) ++ field (toDecimal msg.sequence.toNat) = pre at h5 hbuf
  have hword : ofLe (slice buffer pre.length 4) = msg.payload.length := by
    rw [hbuf, slice_append _ _ _ rfl (length_leBytes _ _), ofLe_leBytes_of_lt (by omega)]
  have hbody : slice buffer (pre.length + 4) msg.payload.length = msg.payload := by
    rw [hbuf, ← List.append_assoc, slice_append _ _ _ (by simp) rfl]
  have hsize : buffer.length = pre.length + 4 + msg.payload.length + stale.length := by
    rw [hbuf]
    simp only [List.length_append, length_leBytes]
    omega
  rw [List.length_nil] at h1
  simp only [parse, h1, h2, h3, h4, h5, hts, hsq, hword, hbody]
  rw [if_neg (by omega), if_neg (by omega)]

/-- **Codec.** A message whose three names have no NUL in them and that fits the buffer is read back as it was, whatever
    the buffer held before. -/
theorem parse_serialize (msg : IPCMessage) (hfrom : 0 ∉ msg.from_) (hto : 0 ∉ msg.to_) (htopic : 0 ∉ msg.topic)
    (hlen : (serialize msg).length ≤ BUFFER_SIZE) (buffer : Bytes) :
    parse (recv buffer (serialize msg)).1 (recv buffer (serialize msg)).2 = some msg := by
  have hpayload : msg.payload.length < 2 ^ 32 := by
    have : msg.payload.length ≤ (serialize msg).length := by
      simp [serialize]
      omega
    unfold BUFFER_SIZE at hlen
    omega
  have hwhole : (serialize msg).take BUFFER_SIZE = serialize msg := List.take_of_length_le hlen
  have hrecv : recv buffer (serialize msg) =
      (serialize msg ++ buffer.drop (serialize msg).length, (serialize msg).length) := by
    rw [recv, hwhole]
    simp [splice]
  rw [hrecv]
  exact parse_append msg hfrom hto htopic hpayload _

/-- A payload that looks like the end of a message, behind what an earlier datagram has left. -/
theorem parse_serialize_nul :
    let msg : IPCMessage := ⟨[97], [], [116], [0, 49, 0], 1700000000000, 18446744073709551615⟩
    0 ∉ msg.from_ ∧ 0 ∉ msg.to_ ∧ 0 ∉ msg.topic ∧ (serialize msg).length ≤ BUFFER_SIZE ∧
      parse (recv (List.replicate 64 255) (serialize msg)).1 (recv (List.replicate 64 255) (serialize msg)).2 =
        some msg := by
  intro msg
  have hlen : (serialize msg).length ≤ BUFFER_SIZE := by decide
  exact ⟨by decide, by decide, by decide, hlen, parse_serialize msg (by decide) (by decide) (by decide) hlen _⟩

end RedisOps.Ipc
