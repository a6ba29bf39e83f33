import RedisOps.Ipc.Message

/-!
# Datagrams from anyone

`receive_loop` (`sandbox/src/ipc.cpp:220-247`) once more, with an account of what it reads. `read_field` stops at the length
received; the four bytes of the payload's length and the payload are copied without a look at it, and `std::stoull` throws in
a thread where nothing catches. `readMessage_safe_iff`: what a datagram has to be so that neither happens.
-/

namespace RedisOps.Ipc

open Lib

/-- `readTo` is behind the last byte read. `outside` is a read outside of the buffer, which is undefined. -/
inductive Outcome where
  | threw
  | outside
  | message (msg : IPCMessage) (readTo : Nat)

def readMessage (buffer : Bytes) (received : Nat) : Outcome :=
  let (from_, pos) := readField buffer received 0
  let (to_, pos) := readField buffer received pos
  let (topic, pos) := readField buffer received pos
  let (timestamp, pos) := readField buffer received pos
  match stoull timestamp with
  | none => .threw
  | some timestamp =>
    let (sequence, pos) := readField buffer received pos
    match stoull sequence with
    | none => .threw
    | some sequence =>
      if buffer.length < pos + 4 then .outside else
      let len := ofLe (slice buffer pos 4)
      let pos := pos + 4
      if buffer.length < pos + len then .outside else
      .message { from_, to_, topic, payload := slice buffer pos len, timestamp, sequence } (pos + len)

def Outcome.message? : Outcome → Option IPCMessage
  | .message msg _ => some msg
  | _ => none

/-- The reader is `parse`. -/
theorem parse_eq_readMessage (buffer : Bytes) (received : Nat) :
    parse buffer received = (readMessage buffer received).message? := by
  unfold parse readMessage
  rcases readField buffer received 0 with ⟨from_, pos₁⟩
  dsimp only
  rcases readField buffer received pos₁ with ⟨to_, pos₂⟩
  dsimp only
  rcases readField buffer received pos₂ with ⟨topic, pos₃⟩
  dsimp only
  rcases readField buffer received pos₃ with ⟨timestamp, pos₄⟩
  dsimp only
  cases stoull timestamp with
  | none => rfl
  | some timestamp =>
    rcases readField buffer received pos₄ with ⟨sequence, pos₅⟩
    dsimp only
    cases stoull sequence with
    | none => rfl
    | some sequence =>
      dsimp only
      split
      · rfl
      · split <;> rfl

/-- Nothing thrown, nothing read behind the datagram, and a payload of bytes of the datagram. -/
def Outcome.Safe (datagram : Bytes) : Outcome → Prop
  | .threw | .outside => False
  | .message msg readTo => readTo ≤ datagram.length ∧ msg.payload <:+: datagram

/-- Five texts with their NULs, of which the last two begin with numbers of 64 bits, the length of a payload, and at least as
    many bytes. -/
def WellFormed (datagram : Bytes) : Prop :=
  ∃ from_ to_ topic timestamp sequence rest,
    datagram = field from_ ++ (field to_ ++ (field topic ++ (field timestamp ++ (field sequence ++ rest)))) ∧
    (0 ∉ from_ ∧ 0 ∉ to_ ∧ 0 ∉ topic ∧ 0 ∉ timestamp ∧ 0 ∉ sequence) ∧
    (stoull timestamp ≠ none ∧ stoull sequence ≠ none) ∧
    4 ≤ rest.length ∧ 4 + ofLe (rest.take 4) ≤ rest.length

/-! ## The buffer after `recv` -/

section Received
variable {stale datagram : Bytes}

theorem recv_eq (h : datagram.length ≤ BUFFER_SIZE) :
    recv stale datagram = (datagram ++ stale.drop datagram.length, datagram.length) := by
  rw [recv, List.take_of_length_le h]
  simp [splice]

/-- The text at a position of the datagram. -/
def textAt (datagram : Bytes) (pos : Nat) : Bytes := (datagram.drop pos).takeWhile (· != 0)

theorem zero_not_mem_textAt (pos : Nat) : 0 ∉ textAt datagram pos := by
  intro h
  have := List.mem_takeWhile_imp h
  simp at this

/-- What the buffer held before is not in the texts. -/
theorem readField_recv (behind : Bytes) (pos : Nat) :
    readField (datagram ++ behind) datagram.length pos =
      (textAt datagram pos, pos + (textAt datagram pos).length + 1) := by
  rw [readField, List.take_left]
  rfl

/-- A text that ends inside of the datagram has its NUL there. -/
theorem drop_eq_field {pos next : Nat} (hnext : pos + (textAt datagram pos).length + 1 = next)
    (h : next ≤ datagram.length) : datagram.drop pos = field (textAt datagram pos) ++ datagram.drop next := by
  have hsplit := List.takeWhile_append_dropWhile (p := (· != 0)) (l := datagram.drop pos)
  rw [← textAt] at hsplit
  subst hnext
  generalize textAt datagram pos = text at h hsplit ⊢
  cases hrest : (datagram.drop pos).dropWhile (· != 0) with
  | nil =>
    rw [hrest, List.append_nil] at hsplit
    have hlength := congrArg List.length hsplit
    rw [List.length_drop] at hlength
    omega
  | cons b tail =>
    have hb : b = 0 := by
      have hhead := List.head?_dropWhile_not (· != 0) (datagram.drop pos)
      rw [hrest] at hhead
      simpa using hhead
    rw [hrest, hb] at hsplit
    have htail : datagram.drop (pos + text.length + 1) = tail := by
      have hdrop : datagram.drop (pos + text.length + 1) = (datagram.drop pos).drop (text.length + 1) := by
        rw [List.drop_drop, Nat.add_assoc]
      rw [hdrop, ← hsplit]
      simp
    rw [htail, field, List.append_assoc]
    exact hsplit.symm

theorem wellFormed_of_safe {behind : Bytes}
    (h : (readMessage (datagram ++ behind) datagram.length).Safe datagram) : WellFormed datagram := by
  unfold readMessage at h
  simp only [readField_recv] at h
  generalize hp₁ : 0 + (textAt datagram 0).length + 1 = pos₁ at h
  generalize hp₂ : pos₁ + (textAt datagram pos₁).length + 1 = pos₂ at h
  generalize hp₃ : pos₂ + (textAt datagram pos₂).length + 1 = pos₃ at h
  generalize hp₄ : pos₃ + (textAt datagram pos₃).length + 1 = pos₄ at h
  generalize hp₅ : pos₄ + (textAt datagram pos₄).length + 1 = pos₅ at h
  cases htimestamp : stoull (textAt datagram pos₃) with
  | none =>
    simp only [htimestamp] at h
    exact h.elim
  | some timestamp =>
    cases hsequence : stoull (textAt datagram pos₄) with
    | none =>
      simp only [htimestamp, hsequence] at h
      exact h.elim
    | some sequence =>
      simp only [htimestamp, hsequence] at h
      split at h
      · exact h.elim
      split at h
      · exact h.elim
      obtain ⟨hread, -⟩ := h
      have hword : slice (datagram ++ behind) pos₅ 4 = (datagram.drop pos₅).take 4 := by
        rw [slice, List.drop_append_of_le_length (by omega), List.take_append_of_le_length]
        rw [List.length_drop]
        omega
      rw [hword] at hread
      refine ⟨textAt datagram 0, textAt datagram pos₁, textAt datagram pos₂, textAt datagram pos₃,
        textAt datagram pos₄, datagram.drop pos₅, ?_,
        ⟨zero_not_mem_textAt _, zero_not_mem_textAt _, zero_not_mem_textAt _, zero_not_mem_textAt _, zero_not_mem_textAt _⟩,
        ⟨by simp [htimestamp], by simp [hsequence]⟩, ?_, ?_⟩
      · rw [← drop_eq_field hp₅ (by omega), ← drop_eq_field hp₄ (by omega), ← drop_eq_field hp₃ (by omega),
          ← drop_eq_field hp₂ (by omega), ← drop_eq_field hp₁ (by omega), List.drop_zero]
      · rw [List.length_drop]
        omega
      · rw [List.length_drop]
        omega

theorem safe_of_wellFormed (h : WellFormed datagram) (behind : Bytes) :
    (readMessage (datagram ++ behind) datagram.length).Safe datagram := by
  obtain ⟨from_, to_, topic, timestamp, sequence, rest, hdatagram, ⟨hfrom, hto, htopic, hts, hsq⟩, ⟨hts', hsq'⟩, hword, hlen⟩ := h
  obtain ⟨timestampVal, hts'⟩ := Option.ne_none_iff_exists'.1 hts'
  obtain ⟨sequenceVal, hsq'⟩ := Option.ne_none_iff_exists'.1 hsq'
  generalize hreceived : datagram.length = received
  have hlength : received = (field from_).length + (field to_).length + (field topic).length +
      (field timestamp).length + (field sequence).length + rest.length := by
    rw [← hreceived, hdatagram]
    simp only [List.length_append]
    omega
  have hbuf : datagram ++ behind = [] ++ (field from_ ++ (field to_ ++ (field topic ++
      (field timestamp ++ (field sequence ++ (rest ++ behind)))))) := by
    rw [hdatagram]
    simp only [List.append_assoc, List.nil_append]
  generalize datagram ++ behind = buffer at hbuf ⊢
  obtain ⟨h1, hbuf⟩ := readField_next received hbuf hfrom (by simp only [List.length_append, List.length_nil]; omega)
  obtain ⟨h2, hbuf⟩ := readField_next received hbuf hto (by simp only [List.length_append, List.length_nil]; omega)
  obtain ⟨h3, hbuf⟩ := readField_next received hbuf htopic (by simp only [List.length_append, List.length_nil]; omega)
  obtain ⟨h4, hbuf⟩ := readField_next received hbuf hts (by simp only [List.length_append, List.length_nil]; omega)
  obtain ⟨h5, hbuf⟩ := readField_next received hbuf hsq (by simp only [List.length_append, List.length_nil]; omega)
  have hpre : datagram = [] ++ field from_ ++ field to_ ++ field topic ++ field timestamp ++ field sequence ++ rest := by
    rw [hdatagram]
    simp only [List.append_assoc, List.nil_append]
  generalize [] ++ field from_ ++ field to_ ++ field topic ++ field timestamp ++ field sequence = pre at h5 hbuf hpre
  have hsize : datagram.length = pre.length + rest.length := by
    rw [hpre, List.length_append]
  have hbuffer : buffer.length = pre.length + rest.length + behind.length := by
    rw [hbuf]
    simp only [List.length_append]
    omega
  have hslice : slice buffer pre.length 4 = rest.take 4 := by
    rw [hbuf, slice, List.drop_left, List.take_append_of_le_length hword]
  have hpayload : slice buffer (pre.length + 4) (ofLe (rest.take 4)) = (rest.drop 4).take (ofLe (rest.take 4)) := by
    rw [hbuf, slice, ← List.drop_drop, List.drop_left, List.drop_append_of_le_length hword, List.take_append_of_le_length]
    rw [List.length_drop]
    omega
  rw [List.length_nil] at h1
  simp only [readMessage, h1, h2, h3, h4, h5, hts', hsq', hslice, hpayload]
  rw [if_neg (by omega), if_neg (by omega)]
  refine ⟨by omega, ?_⟩
  have hrest : (rest.drop 4).take (ofLe (rest.take 4)) <:+: rest :=
    (List.take_prefix _ _).isInfix.trans (List.drop_suffix 4 rest).isInfix
  rw [hpre]
  exact hrest.trans (List.suffix_append pre rest).isInfix

end Received

/-- **Hostile datagrams.** For a datagram that fits the buffer, whatever the buffer held before. -/
theorem readMessage_safe_iff {datagram : Bytes} (hlen : datagram.length ≤ BUFFER_SIZE) (stale : Bytes) :
    (readMessage (recv stale datagram).1 (recv stale datagram).2).Safe datagram ↔ WellFormed datagram := by
  rw [recv_eq hlen]
  exact ⟨wellFormed_of_safe, fun h => safe_of_wellFormed h _⟩

/-- What an earlier datagram has left. -/
def staleBuffer : Bytes := List.replicate BUFFER_SIZE 7

/-- Names without a byte, two numbers, and a payload of two bytes. -/
def honestDatagram : Bytes := [0, 0, 0, 49, 0, 50, 0, 2, 0, 0, 0, 8, 9]

theorem readMessage_safe_iff_two : honestDatagram.length ≤ BUFFER_SIZE ∧
    (readMessage (recv staleBuffer honestDatagram).1 (recv staleBuffer honestDatagram).2).Safe honestDatagram := by
  have hlen : honestDatagram.length ≤ BUFFER_SIZE := by decide
  have hform : WellFormed honestDatagram :=
    ⟨[], [], [], [49], [50], [2, 0, 0, 0, 8, 9], rfl, by decide, by decide, by decide, by decide⟩
  have hiff := readMessage_safe_iff hlen staleBuffer
  refine ⟨hlen, ?_⟩
  rw [hiff]
  exact hform

/-- A payload of three bytes is announced and none is there. -/
def lyingDatagram : Bytes := [0, 0, 0, 49, 0, 49, 0, 3, 0, 0, 0]

theorem readMessage_nul (behind : Bytes) : readMessage ([0] ++ behind) 1 = .threw := by
  have htext : ∀ pos, textAt [0] pos = [] := by
    intro pos
    rcases pos with _ | pos <;> simp [textAt]
  have hread : ∀ pos, readField ([0] ++ behind) 1 pos = ([], pos + 1) := by
    intro pos
    have h : readField ([0] ++ behind) ([0] : Bytes).length pos = _ := readField_recv behind pos
    rwa [htext] at h
  have hnone : stoull [] = none := by decide
  simp only [readMessage, hread, hnone]

theorem readMessage_lying (behind : Bytes) :
    readMessage (lyingDatagram ++ ([7, 7, 7] ++ behind)) 11 = .message ⟨[], [], [], [7, 7, 7], 1, 1⟩ 14 := by
  have hread : ∀ pos, readField (lyingDatagram ++ ([7, 7, 7] ++ behind)) 11 pos =
      (textAt lyingDatagram pos, pos + (textAt lyingDatagram pos).length + 1) := readField_recv _
  have h0 : textAt lyingDatagram 0 = [] := by decide
  have h1 : textAt lyingDatagram 1 = [] := by decide
  have h2 : textAt lyingDatagram 2 = [] := by decide
  have h3 : textAt lyingDatagram 3 = [49] := by decide
  have h5 : textAt lyingDatagram 5 = [49] := by decide
  have hone : stoull [49] = some 1 := by decide
  have hword : slice (lyingDatagram ++ ([7, 7, 7] ++ behind)) 7 4 = [3, 0, 0, 0] := rfl
  have hpayload : slice (lyingDatagram ++ ([7, 7, 7] ++ behind)) 11 3 = [7, 7, 7] := rfl
  have hsize : (lyingDatagram ++ ([7, 7, 7] ++ behind)).length = 14 + behind.length := by
    simp [lyingDatagram]
    omega
  have hlen : ofLe [3, 0, 0, 0] = 3 := by decide
  have hin : ¬14 + behind.length < 11 := by omega
  have hin' : ¬14 + behind.length < 14 := by omega
  simp only [readMessage, hread, h0, h1, h2, h3, h5, hone, List.length_nil, List.length_singleton, Nat.zero_add, Nat.reduceAdd,
    hword, hlen, hpayload, hsize, if_neg hin, if_neg hin']

/-- One byte throws; the lying datagram shows three bytes of an earlier one. -/
theorem hostile_datagrams :
    readMessage (recv staleBuffer [0]).1 (recv staleBuffer [0]).2 = .threw ∧
    readMessage (recv staleBuffer lyingDatagram).1 (recv staleBuffer lyingDatagram).2 =
      .message ⟨[], [], [], [7, 7, 7], 1, 1⟩ 14 ∧
    ¬(readMessage (recv staleBuffer [0]).1 (recv staleBuffer [0]).2).Safe [0] ∧
    ¬(readMessage (recv staleBuffer lyingDatagram).1 (recv staleBuffer lyingDatagram).2).Safe lyingDatagram := by
  have hthrew : readMessage (recv staleBuffer [0]).1 (recv staleBuffer [0]).2 = .threw := by
    rw [recv_eq (by decide)]
    exact readMessage_nul _
  have hexposed : readMessage (recv staleBuffer lyingDatagram).1 (recv staleBuffer lyingDatagram).2 =
      .message ⟨[], [], [], [7, 7, 7], 1, 1⟩ 14 := by
    have hstale : staleBuffer.drop lyingDatagram.length = [7, 7, 7] ++ List.replicate 65522 7 := by
      have hcount : BUFFER_SIZE - lyingDatagram.length = 3 + 65522 := rfl
      rw [staleBuffer, List.drop_replicate, hcount, List.replicate_add]
      rfl
    rw [recv_eq (by decide), hstale]
    exact readMessage_lying _
  rw [hthrew, hexposed]
  refine ⟨rfl, rfl, id, ?_⟩
  rintro ⟨hread, -⟩
  exact absurd hread (by decide)

end RedisOps.Ipc
