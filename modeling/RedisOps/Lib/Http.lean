import RedisOps.Lib.Decimal

/-!
# Responses of HTTP/1.1

A response is its status line, its header fields and its body. Lines end with CR LF, an empty one ends the fields, and
`Content-Length` says where the body ends.

`Message.read_write` is the round trip: no body, whatever is in it, is taken for a part of the head. `Stable` readers do not
look behind what they take. So a part of a message is never taken for a whole one (`Stable.part`).
-/

namespace RedisOps.Lib

/-! ## Readers -/

section Readers
variable {α β : Type}

/-- What has been read stays read, whatever follows. -/
def Stable (read : Bytes → Option (α × Bytes)) : Prop :=
  ∀ bs a rest, read bs = some (a, rest) → ∀ more, read (bs ++ more) = some (a, rest ++ more)

/-- **Truncation.** -/
theorem Stable.part {read : Bytes → Option (α × Bytes)} (h : Stable read) {whole part : Bytes} {a : α}
    (hwhole : read whole = some (a, [])) (hpart : part <+: whole) :
    read part = if part = whole then some (a, []) else none := by
  obtain ⟨more, rfl⟩ := hpart
  split
  · rename_i heq
    rw [heq, hwhole]
  · rename_i hne
    cases hread : read part with
    | none => rfl
    | some r =>
      have hsame := h part r.1 r.2 hread more
      rw [hwhole, Option.some.injEq, Prod.mk.injEq] at hsame
      have hnil := (List.append_eq_nil_iff.1 hsame.2.symm).2
      exact absurd (by rw [hnil, List.append_nil]) hne

end Readers

/-! ## Lines -/

def crlf : Bytes := [13, 10]

/-- The bytes before the first CR LF, and those behind it. -/
def readLine : Bytes → Option (Bytes × Bytes)
  | [] => none
  | b :: rest =>
    if b = 13 ∧ rest.head? = some 10 then some ([], rest.tail)
    else (readLine rest).map fun r => (b :: r.1, r.2)

theorem readLine_append {line : Bytes} (h : 13 ∉ line) (rest : Bytes) :
    readLine (line ++ crlf ++ rest) = some (line, rest) := by
  induction line with
  | nil => rfl
  | cons b line ih =>
    have hb : b ≠ 13 := fun heq => h (heq ▸ List.mem_cons_self)
    rw [List.cons_append, List.cons_append, readLine, if_neg (fun hcr => hb hcr.1),
      ih (fun hmem => h (List.mem_cons_of_mem b hmem)), Option.map_some]

theorem readLine_stable : Stable readLine := by
  intro bs
  induction bs with
  | nil =>
    intro line rest h
    cases h
  | cons b bs ih =>
    intro line rest h more
    rw [readLine] at h
    split at h
    · rename_i hcr
      obtain ⟨hb, hhead⟩ := hcr
      cases bs with
      | nil => cases hhead
      | cons c bs =>
        cases h
        rw [List.cons_append, List.cons_append, readLine, if_pos ⟨hb, hhead⟩]
        rfl
    · rename_i hcr
      obtain ⟨r, hr, heq⟩ := Option.map_eq_some_iff.1 h
      cases heq
      have hne : bs ≠ [] := by
        rintro rfl
        cases hr
      have hhead : (bs ++ more).head? = bs.head? := List.head?_append_of_ne_nil bs hne
      rw [List.cons_append, readLine, hhead, if_neg hcr, ih r.1 r.2 hr more, Option.map_some]

theorem length_readLine {bs line rest : Bytes} (h : readLine bs = some (line, rest)) : rest.length < bs.length := by
  induction bs generalizing line with
  | nil => cases h
  | cons b bs ih =>
    rw [readLine] at h
    split at h
    · cases h
      simp only [List.length_tail, List.length_cons]
      omega
    · obtain ⟨r, hr, heq⟩ := Option.map_eq_some_iff.1 h
      cases heq
      exact Nat.lt_succ_of_lt (ih hr)

/-- The lines before the first empty one. -/
def readLines (bs : Bytes) : Option (List Bytes × Bytes) :=
  match _h : readLine bs with
  | none => none
  | some ([], rest) => some ([], rest)
  | some (b :: line, rest) => (readLines rest).map fun r => ((b :: line) :: r.1, r.2)
termination_by bs.length
decreasing_by exact length_readLine _h

theorem readLines_of_empty {bs rest : Bytes} (h : readLine bs = some ([], rest)) : readLines bs = some ([], rest) := by
  rw [readLines]
  split <;> simp_all

theorem readLines_of_line {bs line rest : Bytes} (h : readLine bs = some (line, rest)) (hne : line ≠ []) :
    readLines bs = (readLines rest).map fun r => (line :: r.1, r.2) := by
  rw [readLines]
  split <;> simp_all

theorem readLines_of_none {bs : Bytes} (h : readLine bs = none) : readLines bs = none := by
  rw [readLines]
  split <;> simp_all

theorem readLines_append {lines : List Bytes} (h : ∀ line ∈ lines, 13 ∉ line ∧ line ≠ []) (rest : Bytes) :
    readLines (lines.flatMap (· ++ crlf) ++ crlf ++ rest) = some (lines, rest) := by
  induction lines with
  | nil =>
    have hline : readLine ([] ++ crlf ++ rest) = some ([], rest) := readLine_append List.not_mem_nil rest
    exact readLines_of_empty hline
  | cons line lines ih =>
    obtain ⟨hcr, hne⟩ := h line List.mem_cons_self
    have hline := readLine_append hcr (lines.flatMap (· ++ crlf) ++ crlf ++ rest)
    rw [List.flatMap_cons, List.append_assoc, List.append_assoc, ← List.append_assoc (lines.flatMap _),
      readLines_of_line hline hne, ih fun line' hmem => h line' (List.mem_cons_of_mem line hmem), Option.map_some]

theorem readLines_stable : Stable readLines := by
  intro bs
  induction hn : bs.length using Nat.strong_induction_on generalizing bs with
  | _ n ih =>
    intro lines rest h more
    cases hline : readLine bs with
    | none =>
      rw [readLines_of_none hline] at h
      cases h
    | some r =>
      obtain ⟨line, behind⟩ := r
      have hmore := readLine_stable bs line behind hline more
      by_cases hne : line = []
      · subst hne
        rw [readLines_of_empty hline] at h
        cases h
        exact readLines_of_empty hmore
      · rw [readLines_of_line hline hne] at h
        obtain ⟨r, hr, heq⟩ := Option.map_eq_some_iff.1 h
        cases heq
        have hlt := length_readLine hline
        rw [readLines_of_line hmore hne, ih behind.length (by omega) behind rfl r.1 r.2 hr more, Option.map_some]

/-! ## Messages -/

/-- The lines of the header are kept as they are. -/
structure Message where
  status : Bytes
  fields : List Bytes
  body : Bytes
  deriving DecidableEq

/-- The value of the first field of this name. -/
def field (name : Bytes) (fields : List Bytes) : Option Bytes :=
  fields.findSome? fun line =>
    if (name ++ ascii ": ").isPrefixOf line then some (line.drop (name ++ ascii ": ").length) else none

def contentLength (fields : List Bytes) : Option Nat :=
  (field (ascii "Content-Length") fields).bind fun ds =>
    if ds ≠ [] ∧ ds.all isDigitByte then some (decimalVal ds) else none

namespace Message

def write (m : Message) : Bytes :=
  m.status ++ crlf ++ (m.fields.flatMap (· ++ crlf) ++ crlf ++ m.body)

def read (bs : Bytes) : Option (Message × Bytes) := do
  let (status, bs) ← readLine bs
  let (fields, bs) ← readLines bs
  let n ← contentLength fields
  if n ≤ bs.length then some (⟨status, fields, bs.take n⟩, bs.drop n) else none

structure WellFormed (m : Message) : Prop where
  status : 13 ∉ m.status
  fields : ∀ line ∈ m.fields, 13 ∉ line ∧ line ≠ []
  length : contentLength m.fields = some m.body.length

/-- **Round trip.** -/
theorem read_write {m : Message} (h : m.WellFormed) (rest : Bytes) : read (m.write ++ rest) = some (m, rest) := by
  have hstatus := readLine_append h.status (m.fields.flatMap (· ++ crlf) ++ crlf ++ m.body ++ rest)
  have hfields := readLines_append h.fields (m.body ++ rest)
  simp only [List.append_assoc] at hstatus hfields
  simp [write, read, hstatus, hfields, h.length]

theorem read_stable : Stable read := by
  intro bs m rest h more
  obtain ⟨⟨status, bs₁⟩, hstatus, h⟩ := Option.bind_eq_some_iff.1 h
  obtain ⟨⟨fields, bs₂⟩, hfields, h⟩ := Option.bind_eq_some_iff.1 h
  obtain ⟨n, hn, h⟩ := Option.bind_eq_some_iff.1 h
  split at h
  · rename_i hle
    cases h
    have hstatus' := readLine_stable bs status bs₁ hstatus more
    have hfields' := readLines_stable bs₁ fields bs₂ hfields more
    have hle' : n ≤ bs₂.length + more.length := by omega
    simp [read, hstatus', hfields', hn, hle', List.take_append_of_le_length hle, List.drop_append_of_le_length hle]
  · cases h

/-- A part of a message is read as the message, if it is all of it, and not at all otherwise. -/
theorem read_part {m : Message} (h : m.WellFormed) {part : Bytes} (hpart : part <+: m.write) :
    read part = if part = m.write then some (m, []) else none := by
  have hwhole := read_write h []
  rw [List.append_nil] at hwhole
  exact read_stable.part hwhole hpart

def statusLine (code : Nat) (reason : String) : Bytes :=
  ascii "HTTP/1.1 " ++ toDecimal code ++ ascii " " ++ ascii reason

/-- A response that ends the connection. -/
def closing (status type body : Bytes) : Message :=
  ⟨status, [ascii "Content-Type: " ++ type, ascii "Content-Length: " ++ toDecimal body.length, ascii "Connection: close"], body⟩

theorem closing_wellFormed {status type : Bytes} (hstatus : 13 ∉ status) (htype : 13 ∉ type) (body : Bytes) :
    (closing status type body).WellFormed := by
  have hdigits : 13 ∉ toDecimal body.length := not_mem_toDecimal (by decide) _
  have hall : (toDecimal body.length).all isDigitByte = true :=
    List.all_eq_true.2 fun _ => isDigitByte_of_mem_toDecimal
  refine ⟨hstatus, ?_, ?_⟩
  · intro line hline
    simp only [closing, List.mem_cons, List.not_mem_nil, or_false] at hline
    rcases hline with rfl | rfl | rfl
    · exact ⟨by simp [htype, ascii, charByte], by simp [ascii]⟩
    · exact ⟨by simp [hdigits, ascii, charByte], by simp [ascii]⟩
    · exact ⟨by decide, by simp [ascii]⟩
  · have hother : (ascii "Content-Length" ++ ascii ": ").isPrefixOf (ascii "Content-Type: " ++ type) = false := rfl
    have hthis : (ascii "Content-Length" ++ ascii ": ").isPrefixOf (ascii "Content-Length: " ++ toDecimal body.length) = true :=
      rfl
    have hvalue : (ascii "Content-Length: " ++ toDecimal body.length).drop (ascii "Content-Length" ++ ascii ": ").length =
        toDecimal body.length := rfl
    have hfield : field (ascii "Content-Length") (closing status type body).fields = some (toDecimal body.length) := by
      simp only [closing, field, List.findSome?_cons, hother, hthis, hvalue, if_true, Bool.false_eq_true, if_false]
    rw [contentLength, hfield, Option.bind_some, if_pos ⟨toDecimal_ne_nil _, hall⟩, decimalVal_toDecimal]
    rfl

end Message

end RedisOps.Lib
