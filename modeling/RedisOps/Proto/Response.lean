import RedisOps.Lib.Text

/-!
# Responses: the server's encoder and the client's decoder

| here | there |
| --- | --- |
| `Response`, `encode`  | `proto::Response`, `Response::encode` (`redisdb/src/proto/mod.rs:20-67`) |
| `ResponseTag`, `ClientResponse` | `devops::ResponseTag`, `devops::Response` (`sandbox/include/devops/redis_client.hpp:10-35`) |
| `readValueFrom`       | `read_value_from` (`sandbox/src/redis_client.cpp:104-167`) |

A double is its 64-bit pattern. The client's strings are raw bytes, the server's are UTF-8. The client
runs on a little-endian host with 64-bit `size_t`, so a `memcpy` into an integer reads it little-endian
and no position overflows (a buffer is shorter than `2^63`).

`readValueFrom_encode` is the agreement of the two: the client reads back the value the server wrote,
whatever follows it, and stops right behind it. The induction is on the value; the position invariant is
that the bytes at the position start with the encoding.
-/

namespace RedisOps.Proto

open Lib

/-! ## The server side -/

def SER_NIL : UInt8 := 0
def SER_ERR : UInt8 := 1
def SER_STR : UInt8 := 2
def SER_INT : UInt8 := 3
def SER_DBL : UInt8 := 4
def SER_ARR : UInt8 := 5

def ERR_UNKNOWN : Int32 := 1
def ERR_TOO_BIG : Int32 := 2
def ERR_TYPE : Int32 := 3
def ERR_ARG : Int32 := 4

inductive Response where
  | nil
  | err (code : Int32) (msg : String)
  | str (s : String)
  | int (v : Int64)
  | dbl (bits : UInt64)
  | arr (elems : List Response)

namespace Response

mutual

/-- `Response::encode` (`proto/mod.rs:30-67`). Lengths are cut to 32 bits (`as u32`). -/
def encode : Response → Bytes
  | .nil => [SER_NIL]
  | .err code msg =>
    SER_ERR :: (leBytes 4 code.toUInt32.toNat ++ leBytes 4 (utf8 msg).length ++ utf8 msg)
  | .str s => SER_STR :: (leBytes 4 (utf8 s).length ++ utf8 s)
  | .int v => SER_INT :: leBytes 8 v.toUInt64.toNat
  | .dbl bits => SER_DBL :: leBytes 8 bits.toNat
  | .arr elems => SER_ARR :: (leBytes 4 elems.length ++ encodeAll elems)

/-- The loop over the elements of an array (`:61-63`). -/
def encodeAll : List Response → Bytes
  | [] => []
  | elem :: elems => elem.encode ++ encodeAll elems

end

mutual

/-- Every string, error message and array in the value is shorter than `2^32`. -/
def Fits : Response → Prop
  | .err _ msg => (utf8 msg).length < 2 ^ 32
  | .str s => (utf8 s).length < 2 ^ 32
  | .arr elems => elems.length < 2 ^ 32 ∧ FitsAll elems
  | _ => True

def FitsAll : List Response → Prop
  | [] => True
  | elem :: elems => elem.Fits ∧ FitsAll elems

end

def isErr : Response → Bool
  | .err _ _ => true
  | _ => false

theorem encode_ne_nil (r : Response) : r.encode ≠ [] := by
  cases r <;> simp [encode]

theorem encode_head? (r : Response) : r.encode.head? = some SER_ERR ↔ r.isErr = true := by
  cases r <;> simp [encode, isErr, SER_NIL, SER_ERR, SER_STR, SER_INT, SER_DBL, SER_ARR]

/-! Encodings that differ. Different tags: `simp [encode]` sees it. -/

theorem encode_int_inj {a b : Int64} : encode (.int a) = encode (.int b) ↔ a = b := by
  refine ⟨fun h => ?_, fun h => h ▸ rfl⟩
  have hle := congrArg ofLe (List.cons.inj (by simpa only [encode] using h)).2
  rw [ofLe_leBytes_of_lt (by simpa using a.toUInt64.toNat_lt),
    ofLe_leBytes_of_lt (by simpa using b.toUInt64.toNat_lt)] at hle
  exact congrArg Int64.ofUInt64 (UInt64.toNat_inj.1 hle)

theorem encode_str_inj {a b : String} : encode (.str a) = encode (.str b) ↔ a = b := by
  refine ⟨fun h => ?_, fun h => h ▸ rfl⟩
  have hs := (List.cons.inj (by simpa only [encode] using h)).2
  exact utf8_injective (List.append_inj hs (by simp)).2

theorem encode_arr_nil {elems : List Response} : encode (.arr elems) = encode (.arr []) ↔ elems = [] := by
  refine ⟨fun h => ?_, fun h => h ▸ rfl⟩
  cases elems with
  | nil => rfl
  | cons r rs =>
    have hs := (List.cons.inj (by simpa only [encode] using h)).2
    have := (List.append_inj hs (by simp)).2
    simp [encodeAll, encode_ne_nil] at this

end Response

/-! ## The client side -/

inductive ResponseTag where
  | nil | error | str | int | dbl | arr
  deriving DecidableEq, Repr

/-- `static_cast<ResponseTag>` of a byte; the `switch` has no case for the other values. -/
def ResponseTag.ofByte (b : UInt8) : Option ResponseTag :=
  if b = 0 then some .nil else if b = 1 then some .error else if b = 2 then some .str
  else if b = 3 then some .int else if b = 4 then some .dbl else if b = 5 then some .arr else none

structure ClientResponse where
  tag : ResponseTag
  errCode : Int32 := 0
  errMsg : Bytes := []
  str : Bytes := []
  integer : Int64 := 0
  dbl : UInt64 := 0
  arr : List ClientResponse := []

/-- `memcpy` of a `w`-byte integer out of the buffer. -/
def memcpyInt (w : Nat) (buf : Bytes) (pos : Nat) : Nat := ofLe (slice buf pos w)

/-- The element loop of the array case (`redis_client.cpp:157-161`). -/
def readElems (readValue : Nat → Option (ClientResponse × Nat)) :
    Nat → Nat → List ClientResponse → Option (List ClientResponse × Nat)
  | 0, pos, arr => some (arr, pos)
  | count + 1, pos, arr =>
    match readValue pos with
    | some (elem, pos') => readElems readValue count pos' (arr ++ [elem])
    | none => none

/-- The body of `read_value_from` with the recursion bounded by `fuel`, the nesting depth. -/
def readValueFuel : Nat → Bytes → Nat → Option (ClientResponse × Nat)
  | 0, _, _ => none
  | fuel + 1, buf, pos =>
    match buf[pos]? with
    | none => none
    | some b =>
      let pos := pos + 1
      match ResponseTag.ofByte b with
      | none => none
      | some .nil => some ({ tag := .nil }, pos)
      | some .error =>
        if pos + 8 > buf.length then none else
        let errCode := UInt32.toInt32 (UInt32.ofNat (memcpyInt 4 buf pos))
        let msgLen := memcpyInt 4 buf (pos + 4)
        let pos := pos + 8
        if pos + msgLen > buf.length then none else
        some ({ tag := .error, errCode := errCode, errMsg := slice buf pos msgLen }, pos + msgLen)
      | some .str =>
        if pos + 4 > buf.length then none else
        let slen := memcpyInt 4 buf pos
        let pos := pos + 4
        if pos + slen > buf.length then none else
        some ({ tag := .str, str := slice buf pos slen }, pos + slen)
      | some .int =>
        if pos + 8 > buf.length then none else
        some ({ tag := .int, integer := UInt64.toInt64 (UInt64.ofNat (memcpyInt 8 buf pos)) }, pos + 8)
      | some .dbl =>
        if pos + 8 > buf.length then none else
        some ({ tag := .dbl, dbl := UInt64.ofNat (memcpyInt 8 buf pos) }, pos + 8)
      | some .arr =>
        if pos + 4 > buf.length then none else
        let count := memcpyInt 4 buf pos
        match readElems (readValueFuel fuel buf) count (pos + 4) [] with
        | some (arr, pos') => some ({ tag := .arr, arr := arr }, pos')
        | none => none

/-- `read_value_from`: the parsed value and the position after it, or `nullopt`. Every level of nesting
    has read a byte of its own, so it is never deeper than the buffer is long. -/
def readValueFrom (buf : Bytes) (pos : Nat) : Option (ClientResponse × Nat) :=
  readValueFuel (buf.length + 1) buf pos

/-! ## The value a response stands for on the client -/

mutual

/-- The client's record of a server value: the field of its tag is set, the others keep their
    defaults. -/
def Response.toClient : Response → ClientResponse
  | .nil => { tag := .nil }
  | .err code msg => { tag := .error, errCode := code, errMsg := utf8 msg }
  | .str s => { tag := .str, str := utf8 s }
  | .int v => { tag := .int, integer := v }
  | .dbl bits => { tag := .dbl, dbl := bits }
  | .arr elems => { tag := .arr, arr := Response.toClientAll elems }

def Response.toClientAll : List Response → List ClientResponse
  | [] => []
  | elem :: elems => elem.toClient :: Response.toClientAll elems

end

/-! ## Reading at a seam -/

/-- An integer of `w` bytes written behind `pre` is read back from there. -/
theorem memcpyInt_seam {w n pos : Nat} (pre post : Bytes) (hpos : pre.length = pos)
    (hn : n < 256 ^ w) : memcpyInt w (pre ++ (leBytes w n ++ post)) pos = n := by
  rw [memcpyInt, slice_append pre (leBytes w n) post hpos (length_leBytes w n), ofLe_leBytes_of_lt hn]

/-- The field behind the tag of an encoded value. -/
theorem memcpyInt_field {w n : Nat} (tag : UInt8) (pre rest post : Bytes) (hn : n < 256 ^ w) :
    memcpyInt w (pre ++ (tag :: (leBytes w n ++ rest) ++ post)) (pre.length + 1) = n := by
  have e : pre ++ (tag :: (leBytes w n ++ rest) ++ post) = (pre ++ [tag]) ++ (leBytes w n ++ (rest ++ post)) := by
    simp
  rw [e]
  exact memcpyInt_seam _ _ (by simp) hn

theorem toNat_toUInt32_lt (c : Int32) : c.toUInt32.toNat < 256 ^ 4 := by
  have := c.toUInt32.toNat_lt
  omega

theorem toNat_lt_of_u64 (v : UInt64) : v.toNat < 256 ^ 8 := by
  have := v.toNat_lt
  omega

mutual

/-- The decoder on an encoded value inside a larger buffer. -/
theorem readValueFuel_encode : ∀ (r : Response) (pre post : Bytes) (fuel : Nat), r.Fits →
    r.encode.length ≤ fuel →
    readValueFuel fuel (pre ++ (r.encode ++ post)) pre.length =
      some (r.toClient, pre.length + r.encode.length)
  | r, _, _, 0, _, hfuel => absurd (List.length_eq_zero_iff.1 (Nat.le_zero.1 hfuel)) r.encode_ne_nil
  | .nil, pre, post, fuel + 1, _, _ => by
    simp [Response.encode, readValueFuel, SER_NIL, ResponseTag.ofByte, Response.toClient]
  | .err code msg, pre, post, fuel + 1, hf, _ => by
    have hf : (utf8 msg).length < 256 ^ 4 := by simpa [Response.Fits] using hf
    have htag : (pre ++ ((Response.err code msg).encode ++ post))[pre.length]? = some SER_ERR := by
      simp [Response.encode]
    have e : pre ++ ((Response.err code msg).encode ++ post) =
        (pre ++ [SER_ERR] ++ leBytes 4 code.toUInt32.toNat) ++
          (leBytes 4 (utf8 msg).length ++ (utf8 msg ++ post)) := by simp [Response.encode]
    have e' : pre ++ ((Response.err code msg).encode ++ post) =
        (pre ++ [SER_ERR] ++ leBytes 4 code.toUInt32.toNat ++ leBytes 4 (utf8 msg).length) ++
          (utf8 msg ++ post) := by simp [Response.encode]
    have hcode : memcpyInt 4 (pre ++ ((Response.err code msg).encode ++ post)) (pre.length + 1) =
        code.toUInt32.toNat := by
      simpa [Response.encode] using memcpyInt_field SER_ERR pre (leBytes 4 (utf8 msg).length ++ utf8 msg) post
        (toNat_toUInt32_lt code)
    have hlen : memcpyInt 4 (pre ++ ((Response.err code msg).encode ++ post)) (pre.length + 1 + 4) =
        (utf8 msg).length := by
      rw [e]; exact memcpyInt_seam _ _ (by simp) hf
    have hmsg : slice (pre ++ ((Response.err code msg).encode ++ post)) (pre.length + 1 + 8)
        (utf8 msg).length = utf8 msg := by
      rw [e']; exact slice_append _ _ _ (by simp) rfl
    have hbuf : (pre ++ ((Response.err code msg).encode ++ post)).length =
        pre.length + 1 + 8 + (utf8 msg).length + post.length := by simp [Response.encode]; omega
    rw [readValueFuel, htag]
    simp only [SER_ERR, ResponseTag.ofByte, hcode, hlen, hmsg, hbuf]
    simp [Response.toClient, Response.encode]
    omega
  | .str s, pre, post, fuel + 1, hf, _ => by
    have hf : (utf8 s).length < 256 ^ 4 := by simpa [Response.Fits] using hf
    have htag : (pre ++ ((Response.str s).encode ++ post))[pre.length]? = some SER_STR := by
      simp [Response.encode]
    have e : pre ++ ((Response.str s).encode ++ post) =
        (pre ++ [SER_STR] ++ leBytes 4 (utf8 s).length) ++ (utf8 s ++ post) := by
      simp [Response.encode]
    have hlen : memcpyInt 4 (pre ++ ((Response.str s).encode ++ post)) (pre.length + 1) =
        (utf8 s).length := by
      simpa [Response.encode] using memcpyInt_field SER_STR pre (utf8 s) post hf
    have hstr : slice (pre ++ ((Response.str s).encode ++ post)) (pre.length + 1 + 4)
        (utf8 s).length = utf8 s := by
      rw [e]; exact slice_append _ _ _ (by simp) rfl
    have hbuf : (pre ++ ((Response.str s).encode ++ post)).length =
        pre.length + 1 + 4 + (utf8 s).length + post.length := by simp [Response.encode]; omega
    rw [readValueFuel, htag]
    simp only [SER_STR, ResponseTag.ofByte, hlen, hstr, hbuf]
    simp [Response.toClient, Response.encode]
    omega
  | .int v, pre, post, fuel + 1, _, _ => by
    have htag : (pre ++ ((Response.int v).encode ++ post))[pre.length]? = some SER_INT := by
      simp [Response.encode]
    have hint : memcpyInt 8 (pre ++ ((Response.int v).encode ++ post)) (pre.length + 1) =
        v.toUInt64.toNat := by
      simpa [Response.encode] using memcpyInt_field SER_INT pre [] post (toNat_lt_of_u64 v.toUInt64)
    rw [readValueFuel, htag]
    simp only [SER_INT, ResponseTag.ofByte, hint]
    simp [Response.toClient, Response.encode]
    omega
  | .dbl bits, pre, post, fuel + 1, _, _ => by
    have htag : (pre ++ ((Response.dbl bits).encode ++ post))[pre.length]? = some SER_DBL := by
      simp [Response.encode]
    have hdbl : memcpyInt 8 (pre ++ ((Response.dbl bits).encode ++ post)) (pre.length + 1) =
        bits.toNat := by
      simpa [Response.encode] using memcpyInt_field SER_DBL pre [] post (toNat_lt_of_u64 bits)
    rw [readValueFuel, htag]
    simp only [SER_DBL, ResponseTag.ofByte, hdbl]
    simp [Response.toClient, Response.encode]
    omega
  | .arr elems, pre, post, fuel + 1, hf, hfuel => by
    obtain ⟨hlen, hall⟩ : elems.length < 256 ^ 4 ∧ Response.FitsAll elems := by
      simpa [Response.Fits] using hf
    have htag : (pre ++ ((Response.arr elems).encode ++ post))[pre.length]? = some SER_ARR := by
      simp [Response.encode]
    have e : pre ++ ((Response.arr elems).encode ++ post) =
        (pre ++ [SER_ARR] ++ leBytes 4 elems.length) ++ (Response.encodeAll elems ++ post) := by
      simp [Response.encode]
    have hcount : memcpyInt 4 (pre ++ ((Response.arr elems).encode ++ post)) (pre.length + 1) =
        elems.length := by
      simpa [Response.encode] using memcpyInt_field SER_ARR pre (Response.encodeAll elems) post hlen
    have helems : readElems (readValueFuel fuel (pre ++ ((Response.arr elems).encode ++ post)))
        elems.length (pre.length + 1 + 4) [] =
          some (Response.toClientAll elems, pre.length + 1 + 4 + (Response.encodeAll elems).length) := by
      rw [e]
      have h := readElems_encodeAll elems (pre ++ [SER_ARR] ++ leBytes 4 elems.length) post fuel []
        hall (by simp [Response.encode] at hfuel; omega)
      simpa using h
    rw [readValueFuel, htag]
    simp only [SER_ARR, ResponseTag.ofByte, hcount, helems]
    simp [Response.toClient, Response.encode]
    omega

/-- The element loop on the encodings of an array's elements. -/
theorem readElems_encodeAll : ∀ (rs : List Response) (pre post : Bytes) (fuel : Nat)
    (acc : List ClientResponse), Response.FitsAll rs → (Response.encodeAll rs).length ≤ fuel →
    readElems (readValueFuel fuel (pre ++ (Response.encodeAll rs ++ post))) rs.length pre.length acc =
      some (acc ++ Response.toClientAll rs, pre.length + (Response.encodeAll rs).length)
  | [], pre, post, fuel, acc, _, _ => by
    simp [readElems, Response.toClientAll, Response.encodeAll]
  | r :: rs, pre, post, fuel, acc, hf, hfuel => by
    obtain ⟨hr, hrs⟩ : r.Fits ∧ Response.FitsAll rs := by simpa [Response.FitsAll] using hf
    simp only [Response.encodeAll, List.length_append] at hfuel
    have h1 := readValueFuel_encode r pre (Response.encodeAll rs ++ post) fuel hr (by omega)
    have h2 := readElems_encodeAll rs (pre ++ r.encode) post fuel (acc ++ [r.toClient]) hrs (by omega)
    simp only [List.length_append, List.append_assoc] at h1 h2 ⊢
    rw [List.length_cons, readElems, Response.encodeAll, List.append_assoc, h1]
    simp only
    rw [h2]
    simp [Response.toClientAll, Nat.add_assoc]

end

/-- **Codec agreement.** The client reads back exactly the value the server encoded, whatever bytes
    follow it, and leaves the position right behind the encoding. -/
theorem readValueFrom_encode (r : Response) (hr : r.Fits) (t : Bytes) :
    readValueFrom (r.encode ++ t) 0 = some (r.toClient, r.encode.length) := by
  have h := readValueFuel_encode r [] t ((r.encode ++ t).length + 1) hr (by simp; omega)
  simpa [readValueFrom] using h

/-- A nested array with every kind of value in it, followed by two stray bytes. -/
theorem readValueFrom_encode_nested :
    let r : Response := .arr [.nil, .arr [.str "é", .int (-1)], .err ERR_TYPE "expect zset", .dbl 1]
    r.Fits ∧ readValueFrom (r.encode ++ [7, 9]) 0 = some (r.toClient, r.encode.length) := by
  have h : (Response.arr [.nil, .arr [.str "é", .int (-1)], .err ERR_TYPE "expect zset", .dbl 1]).Fits := by
    simp only [Response.Fits, Response.FitsAll]
    decide
  exact ⟨h, readValueFrom_encode _ h [7, 9]⟩

end RedisOps.Proto
