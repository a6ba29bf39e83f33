import RedisOps.Proto.Response

/-!
# The client's decoder on any bytes (`sandbox/src/redis_client.cpp:104-167`)

`readValueFrom` leaves two things of `read_value_from` to its reader: that every byte it looks at is in the buffer, and that
no sum of positions and lengths passes 2^64. `readValueChecked` is the same function with both: every access is checked
and `none` when it is outside of the buffer, every sum is taken modulo 2^64. It is also `none` without enough
`fuel`, the depth of the recursion.

* `readValueChecked_eq` — neither happens, on no bytes and from no position.
* `decoder_sound` — and what is accepted is the encoding of what is answered.

A buffer is a `std::vector`, whose size is below 2^63.
-/

namespace RedisOps.Proto

open Lib

/-! ## What a client value is the decoding of -/

mutual

/-- The bytes `Response::encode` writes for a value, with its strings as they are. -/
def ClientResponse.encode : ClientResponse → Bytes
  | ⟨.nil, _, _, _, _, _, _⟩ => [SER_NIL]
  | ⟨.error, code, msg, _, _, _, _⟩ => SER_ERR :: (leBytes 4 code.toUInt32.toNat ++ leBytes 4 msg.length ++ msg)
  | ⟨.str, _, _, s, _, _, _⟩ => SER_STR :: (leBytes 4 s.length ++ s)
  | ⟨.int, _, _, _, v, _, _⟩ => SER_INT :: leBytes 8 v.toUInt64.toNat
  | ⟨.dbl, _, _, _, _, bits, _⟩ => SER_DBL :: leBytes 8 bits.toNat
  | ⟨.arr, _, _, _, _, _, elems⟩ => SER_ARR :: (leBytes 4 elems.length ++ encodeAllClient elems)

def encodeAllClient : List ClientResponse → Bytes
  | [] => []
  | elem :: elems => elem.encode ++ encodeAllClient elems

end

mutual

/-- For the values of the server it is the server's encoding. -/
theorem encode_toClient : ∀ r : Response, r.toClient.encode = r.encode
  | .nil => rfl
  | .err _ _ => rfl
  | .str _ => rfl
  | .int _ => rfl
  | .dbl _ => rfl
  | .arr elems => by
    rw [Response.toClient, ClientResponse.encode, Response.encode, length_toClientAll, encodeAllClient_toClientAll]

theorem encodeAllClient_toClientAll : ∀ rs : List Response,
    encodeAllClient (Response.toClientAll rs) = Response.encodeAll rs
  | [] => rfl
  | r :: rs => by
    rw [Response.toClientAll, encodeAllClient, Response.encodeAll, encode_toClient r, encodeAllClient_toClientAll rs]

theorem length_toClientAll : ∀ rs : List Response, (Response.toClientAll rs).length = rs.length
  | [] => rfl
  | r :: rs => by rw [Response.toClientAll, List.length_cons, List.length_cons, length_toClientAll rs]

end

/-! ## The decoder with its accesses checked -/

abbrev Buffer := { bytes : Bytes // bytes.length < 2 ^ 63 }

/-- A `size_t`. -/
def sizeT (n : Nat) : Nat := n % 2 ^ 64

/-- `memcpy` and `assign` of `n` bytes; `none` when one of them is outside of the buffer. -/
def copy (buf : Bytes) (pos n : Nat) : Option Bytes := if pos + n ≤ buf.length then some (slice buf pos n) else none

def readElemsChecked (readValue : Nat → Option (Option (ClientResponse × Nat))) :
    Nat → Nat → List ClientResponse → Option (Option (List ClientResponse × Nat))
  | 0, pos, arr => some (some (arr, pos))
  | count + 1, pos, arr => do
    match ← readValue pos with
    | some (elem, pos') => readElemsChecked readValue count pos' (arr ++ [elem])
    | none => some none

/-- `read_value_from`; the inner `none` is `nullopt`. -/
def readValueChecked : Nat → Bytes → Nat → Option (Option (ClientResponse × Nat))
  | 0, _, _ => none
  | fuel + 1, buf, pos =>
    if pos ≥ buf.length then some none else do
    let b ← buf[pos]?
    let pos := sizeT (pos + 1)
    match ResponseTag.ofByte b with
    | none => some none
    | some .nil => some (some ({ tag := .nil }, pos))
    | some .error =>
      if sizeT (pos + 8) > buf.length then some none else do
      let code ← copy buf pos 4
      let pos := sizeT (pos + 4)
      let msgLen ← copy buf pos 4
      let pos := sizeT (pos + 4)
      if sizeT (pos + ofLe msgLen) > buf.length then some none else do
      let msg ← copy buf pos (ofLe msgLen)
      some (some ({ tag := .error, errCode := UInt32.toInt32 (UInt32.ofNat (ofLe code)), errMsg := msg },
        sizeT (pos + ofLe msgLen)))
    | some .str =>
      if sizeT (pos + 4) > buf.length then some none else do
      let slen ← copy buf pos 4
      let pos := sizeT (pos + 4)
      if sizeT (pos + ofLe slen) > buf.length then some none else do
      let s ← copy buf pos (ofLe slen)
      some (some ({ tag := .str, str := s }, sizeT (pos + ofLe slen)))
    | some .int =>
      if sizeT (pos + 8) > buf.length then some none else do
      let v ← copy buf pos 8
      some (some ({ tag := .int, integer := UInt64.toInt64 (UInt64.ofNat (ofLe v)) }, sizeT (pos + 8)))
    | some .dbl =>
      if sizeT (pos + 8) > buf.length then some none else do
      let v ← copy buf pos 8
      some (some ({ tag := .dbl, dbl := UInt64.ofNat (ofLe v) }, sizeT (pos + 8)))
    | some .arr =>
      if sizeT (pos + 4) > buf.length then some none else do
      let count ← copy buf pos 4
      match ← readElemsChecked (readValueChecked fuel buf) (ofLe count) (sizeT (pos + 4)) [] with
      | some (arr, pos) => some (some ({ tag := .arr, arr := arr }, pos))
      | none => some none

/-! ## What is accepted -/

def ResponseTag.byte : ResponseTag → UInt8
  | .nil => SER_NIL
  | .error => SER_ERR
  | .str => SER_STR
  | .int => SER_INT
  | .dbl => SER_DBL
  | .arr => SER_ARR

theorem ResponseTag.eq_byte {b : UInt8} {tag : ResponseTag} (h : ofByte b = some tag) : b = tag.byte := by
  unfold ofByte at h
  repeat' split at h
  all_goals cases h
  all_goals assumption

section Slices
variable {buf : Bytes} {pos w : Nat}

theorem slice_cons {b : UInt8} (h : buf[pos]? = some b) (w : Nat) : slice buf pos (1 + w) = b :: slice buf (pos + 1) w := by
  obtain ⟨hlt, rfl⟩ := List.getElem?_eq_some_iff.1 h
  rw [slice_add, slice, List.drop_eq_getElem_cons hlt]
  rfl

/-- An integer read from the buffer is written as the bytes it was read from. -/
theorem leBytes_memcpyInt (h : pos + w ≤ buf.length) : leBytes w (memcpyInt w buf pos) = slice buf pos w := by
  have hlen := leBytes_ofLe (slice buf pos w)
  rwa [length_slice h] at hlen

theorem memcpyInt_lt (h : pos + w ≤ buf.length) : memcpyInt w buf pos < 256 ^ w := by
  have hlt := ofLe_lt (slice buf pos w)
  rwa [length_slice h] at hlt

theorem toUInt32_memcpyInt (h : pos + 4 ≤ buf.length) :
    (UInt32.toInt32 (UInt32.ofNat (memcpyInt 4 buf pos))).toUInt32.toNat = memcpyInt 4 buf pos := by
  have hlt := memcpyInt_lt h
  simp only [UInt32.toUInt32_toInt32, UInt32.toNat_ofNat']
  omega

theorem toNat_memcpyInt (h : pos + 8 ≤ buf.length) : (UInt64.ofNat (memcpyInt 8 buf pos)).toNat = memcpyInt 8 buf pos := by
  have hlt := memcpyInt_lt h
  rw [UInt64.toNat_ofNat']
  omega

end Slices

/-- The value and the position behind it are right for the bytes from `pos` on. -/
structure Decodes (buf : Bytes) (pos : Nat) (r : ClientResponse) (pos' : Nat) : Prop where
  advances : pos < pos'
  inside : pos' ≤ buf.length
  bytes : slice buf pos (pos' - pos) = r.encode

/-- The tag and the `w` bytes behind it. -/
theorem decodes_of_tag {buf : Bytes} {pos pos' : Nat} {r : ClientResponse} {b : UInt8} (w : Nat)
    (hb : buf[pos]? = some b) (hpos : pos' = pos + 1 + w) (hle : pos' ≤ buf.length)
    (henc : r.encode = b :: slice buf (pos + 1) w) : Decodes buf pos r pos' := by
  subst hpos
  refine ⟨by omega, hle, ?_⟩
  have hlen : pos + 1 + w - pos = 1 + w := by omega
  rw [hlen, slice_cons hb, henc]

theorem readElems_sound {buf : Bytes} {readValue : Nat → Option (ClientResponse × Nat)}
    (hread : ∀ pos r pos', readValue pos = some (r, pos') → Decodes buf pos r pos') :
    ∀ (count pos : Nat) (acc arr : List ClientResponse) (pos' : Nat), pos ≤ buf.length →
      readElems readValue count pos acc = some (arr, pos') → ∃ elems, arr = acc ++ elems ∧ elems.length = count ∧
        pos ≤ pos' ∧ pos' ≤ buf.length ∧ slice buf pos (pos' - pos) = encodeAllClient elems
  | 0, pos, acc, arr, pos', hpos, h => by
    cases h
    refine ⟨[], by simp, rfl, Nat.le_refl _, hpos, ?_⟩
    simp [slice, encodeAllClient]
  | count + 1, pos, acc, arr, pos', hpos, h => by
    rw [readElems] at h
    cases hx : readValue pos with
    | none =>
      rw [hx] at h
      cases h
    | some x =>
      obtain ⟨elem, mid⟩ := x
      rw [hx] at h
      obtain ⟨hadv, hin, hbytes⟩ := hread pos elem mid hx
      obtain ⟨elems, rfl, hlen, hmid, hend, hrest⟩ := readElems_sound hread count mid (acc ++ [elem]) arr pos' hin h
      refine ⟨elem :: elems, by simp, by simp [hlen], by omega, hend, ?_⟩
      have hsplit : pos' - pos = (mid - pos) + (pos' - mid) := by omega
      have hseam : pos + (mid - pos) = mid := by omega
      rw [hsplit, slice_add, hbytes, hseam, hrest, encodeAllClient]

/-- **Soundness**, by the depth of the recursion: one case for every tag. -/
theorem readValueFuel_sound (buf : Bytes) : ∀ (fuel pos : Nat) (r : ClientResponse) (pos' : Nat),
    readValueFuel fuel buf pos = some (r, pos') → Decodes buf pos r pos'
  | 0, _, _, _, h => by cases h
  | fuel + 1, pos, r, pos', h => by
    rw [readValueFuel] at h
    cases hb : buf[pos]? with
    | none => simp [hb] at h
    | some b =>
      have hlt := (List.getElem?_eq_some_iff.1 hb).1
      simp only [hb] at h
      cases htag : ResponseTag.ofByte b with
      | none => simp [htag] at h
      | some tag =>
        obtain rfl := ResponseTag.eq_byte htag
        simp only [htag] at h
        cases tag with
        | nil =>
          cases h
          exact decodes_of_tag 0 hb rfl hlt rfl
        | error =>
          simp only [gt_iff_lt] at h
          split at h
          · cases h
          rename_i hfields
          split at h
          · cases h
          rename_i hmsg
          cases h
          have hlen : (slice buf (pos + 1 + 8) (memcpyInt 4 buf (pos + 1 + 4))).length = memcpyInt 4 buf (pos + 1 + 4) :=
            length_slice (by omega)
          refine decodes_of_tag (4 + 4 + memcpyInt 4 buf (pos + 1 + 4)) hb (by omega) (by omega) ?_
          rw [ClientResponse.encode, hlen, toUInt32_memcpyInt (by omega), leBytes_memcpyInt (by omega),
            leBytes_memcpyInt (by omega), slice_add, slice_add]
          rfl
        | str =>
          simp only [gt_iff_lt] at h
          split at h
          · cases h
          rename_i hfield
          split at h
          · cases h
          rename_i hstr
          cases h
          have hlen : (slice buf (pos + 1 + 4) (memcpyInt 4 buf (pos + 1))).length = memcpyInt 4 buf (pos + 1) :=
            length_slice (by omega)
          refine decodes_of_tag (4 + memcpyInt 4 buf (pos + 1)) hb (by omega) (by omega) ?_
          rw [ClientResponse.encode, hlen, leBytes_memcpyInt (by omega), slice_add]
          rfl
        | int =>
          simp only [gt_iff_lt] at h
          split at h
          · cases h
          rename_i hfield
          cases h
          refine decodes_of_tag 8 hb rfl (by omega) ?_
          rw [ClientResponse.encode, UInt64.toUInt64_toInt64, toNat_memcpyInt (by omega), leBytes_memcpyInt (by omega)]
          rfl
        | dbl =>
          simp only [gt_iff_lt] at h
          split at h
          · cases h
          rename_i hfield
          cases h
          refine decodes_of_tag 8 hb rfl (by omega) ?_
          rw [ClientResponse.encode, toNat_memcpyInt (by omega), leBytes_memcpyInt (by omega)]
          rfl
        | arr =>
          simp only [gt_iff_lt] at h
          split at h
          · cases h
          rename_i hfield
          split at h
          · rename_i arr stop helems
            cases h
            obtain ⟨elems, rfl, hlen, hfrom, hto, hbytes⟩ := readElems_sound (readValueFuel_sound buf fuel) _ _ _ _ _
              (by omega) helems
            refine decodes_of_tag (4 + (pos' - (pos + 1 + 4))) hb (by omega) hto ?_
            rw [ClientResponse.encode, hlen, leBytes_memcpyInt (by omega), ← hbytes, slice_add]
            rfl
          · cases h

/-! ## No access outside of the buffer -/

theorem copy_eq {buf : Bytes} {pos n : Nat} (h : pos + n ≤ buf.length) : copy buf pos n = some (slice buf pos n) := if_pos h

theorem sizeT_eq {n : Nat} (h : n < 2 ^ 64) : sizeT n = n := Nat.mod_eq_of_lt h

/-- The loop, from a position on behind which the recursive calls are right. -/
theorem readElemsChecked_eq {checked : Nat → Option (Option (ClientResponse × Nat))}
    {readValue : Nat → Option (ClientResponse × Nat)} {first : Nat}
    (heq : ∀ pos, first ≤ pos → checked pos = some (readValue pos))
    (hadv : ∀ pos r pos', readValue pos = some (r, pos') → pos < pos') :
    ∀ (count pos : Nat) (acc : List ClientResponse), first ≤ pos →
      readElemsChecked checked count pos acc = some (readElems readValue count pos acc)
  | 0, _, _, _ => rfl
  | count + 1, pos, acc, hpos => by
    rw [readElemsChecked, readElems, heq pos hpos]
    cases hx : readValue pos with
    | none => rfl
    | some x =>
      have hlt := hadv pos x.1 x.2 hx
      exact readElemsChecked_eq heq hadv count x.2 (acc ++ [x.1]) (by omega)

/-- A text behind its length: the sum does not wrap around, and the bytes copied are in the buffer. -/
theorem text_checked {buf : Bytes} {field pos : Nat} (hbuf : buf.length < 2 ^ 63) (hfield : field + 4 ≤ buf.length)
    (hpos : pos ≤ buf.length) (value : Bytes → Nat → ClientResponse × Nat) :
    (if sizeT (pos + ofLe (slice buf field 4)) > buf.length then some none else
      (copy buf pos (ofLe (slice buf field 4))).bind fun text =>
        some (some (value text (sizeT (pos + ofLe (slice buf field 4)))))) =
      some (if pos + memcpyInt 4 buf field > buf.length then none else
        some (value (slice buf pos (memcpyInt 4 buf field)) (pos + memcpyInt 4 buf field))) := by
  have hlt : memcpyInt 4 buf field < 256 ^ 4 := memcpyInt_lt hfield
  have hsum : sizeT (pos + ofLe (slice buf field 4)) = pos + memcpyInt 4 buf field := by
    change sizeT (pos + memcpyInt 4 buf field) = _
    exact sizeT_eq (by omega)
  rw [hsum]
  split
  · rfl
  · rename_i hin
    have hcopy : copy buf pos (ofLe (slice buf field 4)) = some (slice buf pos (memcpyInt 4 buf field)) :=
      copy_eq (Nat.not_lt.1 hin)
    rw [hcopy]
    rfl

/-- Every check comes before its access and no sum wraps around. Each level of the recursion is at least one byte further
    on, so `fuel` above the number of bytes left is enough. -/
theorem readValueChecked_fuel {buf : Bytes} (hbuf : buf.length < 2 ^ 63) : ∀ (fuel pos : Nat), 0 < fuel →
    buf.length < fuel + pos → readValueChecked fuel buf pos = some (readValueFuel fuel buf pos)
  | 0, _, h, _ => by omega
  | fuel + 1, pos, _, hfuel => by
    rw [readValueChecked, readValueFuel]
    by_cases hend : pos ≥ buf.length
    · rw [if_pos hend, List.getElem?_eq_none hend]
    have hb : buf[pos]? = some buf[pos] := List.getElem?_eq_getElem (by omega)
    have hpos : sizeT (pos + 1) = pos + 1 := sizeT_eq (by omega)
    rw [if_neg hend, hb]
    simp only [Option.bind_eq_bind, Option.bind_some, hpos, sizeT_eq (show pos + 1 + 8 < 2 ^ 64 by omega),
      sizeT_eq (show pos + 1 + 4 < 2 ^ 64 by omega)]
    cases htag : ResponseTag.ofByte buf[pos] with
    | none => rfl
    | some tag =>
      cases tag with
      | nil => rfl
      | error =>
        simp only
        split
        · rfl
        rw [copy_eq (show pos + 1 + 4 ≤ buf.length by omega), copy_eq (show pos + 1 + 4 + 4 ≤ buf.length by omega)]
        simp only [Option.bind_some]
        exact text_checked hbuf (by omega) (by omega) fun msg pos' =>
          ({ tag := .error, errCode := UInt32.toInt32 (UInt32.ofNat (memcpyInt 4 buf (pos + 1))), errMsg := msg }, pos')
      | str =>
        simp only
        split
        · rfl
        rw [copy_eq (show pos + 1 + 4 ≤ buf.length by omega)]
        simp only [Option.bind_some]
        exact text_checked hbuf (by omega) (by omega) fun text pos' => ({ tag := .str, str := text }, pos')
      | int =>
        simp only
        split
        · rfl
        · rw [copy_eq (by omega)]
          rfl
      | dbl =>
        simp only
        split
        · rfl
        · rw [copy_eq (by omega)]
          rfl
      | arr =>
        simp only
        split
        · rfl
        rename_i hfield
        have hrec : ∀ p, pos + 1 + 4 ≤ p → readValueChecked fuel buf p = some (readValueFuel fuel buf p) :=
          fun p hp => readValueChecked_fuel hbuf fuel p (by omega) (by omega)
        have helems := readElemsChecked_eq hrec (fun p r p' h => (readValueFuel_sound buf fuel p r p' h).advances)
          (memcpyInt 4 buf (pos + 1)) (pos + 1 + 4) [] (Nat.le_refl _)
        rw [copy_eq (by omega), Option.bind_some]
        change (readElemsChecked (readValueChecked fuel buf) (memcpyInt 4 buf (pos + 1)) (pos + 1 + 4) []).bind _ = _
        rw [helems, Option.bind_some]
        cases readElems (readValueFuel fuel buf) (memcpyInt 4 buf (pos + 1)) (pos + 1 + 4) [] <;> rfl

/-- `read_value_from` from any position. -/
def decode (buf : Buffer) (pos : UInt64) : Option (Option (ClientResponse × Nat)) :=
  readValueChecked (buf.1.length + 1) buf.1 pos.toNat

theorem decode_eq (buf : Buffer) (pos : UInt64) : decode buf pos = some (readValueFrom buf.1 pos.toNat) :=
  readValueChecked_fuel buf.2 _ _ (by omega) (by omega)

/-- **The decoder on any bytes.** Whatever the buffer and the position: it ends, without an access outside of the buffer, and a
    value it answers is encoded by the bytes it has gone over, at least one, all of them in the buffer. -/
theorem decoder_sound (buf : Buffer) (pos : UInt64) : ∃ answer, decode buf pos = some answer ∧
    ∀ r pos', answer = some (r, pos') →
      pos.toNat < pos' ∧ pos' ≤ buf.1.length ∧ slice buf.1 pos.toNat (pos' - pos.toNat) = r.encode := by
  refine ⟨readValueFrom buf.1 pos.toNat, decode_eq buf pos, ?_⟩
  intro r pos' h
  obtain ⟨hadv, hin, hbytes⟩ := readValueFuel_sound buf.1 _ _ _ _ h
  exact ⟨hadv, hin, hbytes⟩

end RedisOps.Proto
