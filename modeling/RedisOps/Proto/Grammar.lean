import RedisOps.Proto.Request

/-!
# The requests `read_request` accepts

`readRequestIdx` is `read_request` (`redisdb/src/proto/mod.rs:70-102`) with its slices as the source writes them:
`buf[..n]` and `&buf[n..]` panic when `n` is past the end (`none`). `readRequestIdx_eq` — none of them ever does, so
it is `readRequest`. `readRequestIdx_iff` — it accepts the streams that start with

    LE32(len) ++ (LE32(n) ++ block₁ ++ … ++ blockₙ ++ tail)

where the bracket is `len ≤ MAX_MSG_SIZE` bytes long, `n ≤ MAX_ARGS` and a block is `LE32(sz) ++ body` with a body of
valid UTF-8, and no others; the `tail` is skipped with the request.
-/

namespace RedisOps.Proto

open Lib

/-! ## With its slices -/

/-- `buf[..n]` -/
def sliceTo (buf : Bytes) (n : Nat) : Option Bytes := if n ≤ buf.length then some (buf.take n) else none

/-- `&buf[n..]` -/
def sliceFrom (buf : Bytes) (n : Nat) : Option Bytes := if n ≤ buf.length then some (buf.drop n) else none

/-- The argument loop (`:87-100`). -/
def readArgsIdx : Nat → Bytes → List String → Option (Except ProtoError (List String))
  | 0, _, args => some (.ok args)
  | n + 1, buf, args =>
    if buf.length < 4 then some (.error (.malformed "truncated arg header")) else do
    let sz := ofLe (← sliceTo buf 4)
    let buf ← sliceFrom buf 4
    if buf.length < sz then some (.error (.malformed "truncated arg body")) else do
    let body ← sliceTo buf sz
    match fromUtf8 body with
    | none => some (.error (.malformed "invalid utf-8"))
    | some arg => do
      let buf ← sliceFrom buf sz
      readArgsIdx n buf (args ++ [arg])

def readRequestIdx (stream : Bytes) : Option (Except ProtoError (List String × Bytes)) :=
  match readExact 4 stream with
  | .error e => some (.error e)
  | .ok (hdr, stream) =>
    let msgLen := ofLe hdr
    if msgLen > MAX_MSG_SIZE then some (.error (.tooLarge msgLen)) else
    match readExact msgLen stream with
    | .error e => some (.error e)
    | .ok (buf, stream) =>
      if buf.length < 4 then some (.error (.malformed "header too short")) else do
      let n := ofLe (← sliceTo buf 4)
      if n > MAX_ARGS then some (.error (.tooManyArgs n)) else do
      let buf ← sliceFrom buf 4
      let args ← readArgsIdx n buf []
      some (args.map fun args => (args, stream))

theorem sliceTo_eq {buf : Bytes} {n : Nat} (h : n ≤ buf.length) : sliceTo buf n = some (buf.take n) := if_pos h

theorem sliceFrom_eq {buf : Bytes} {n : Nat} (h : n ≤ buf.length) : sliceFrom buf n = some (buf.drop n) := if_pos h

theorem readArgsIdx_eq : ∀ (n : Nat) (buf : Bytes) (acc : List String),
    readArgsIdx n buf acc = some (readArgs n buf acc)
  | 0, _, _ => rfl
  | n + 1, buf, acc => by
    rw [readArgsIdx, readArgs]
    by_cases h4 : buf.length < 4
    · rw [if_pos h4, if_pos h4]
    · rw [if_neg h4, if_neg h4, sliceTo_eq (by omega), sliceFrom_eq (by omega)]
      simp only [Option.bind_eq_bind, Option.bind_some]
      by_cases hsz : (buf.drop 4).length < ofLe (buf.take 4)
      · rw [if_pos hsz, if_pos hsz]
      · rw [if_neg hsz, if_neg hsz, sliceTo_eq (by omega), Option.bind_some]
        cases fromUtf8 ((buf.drop 4).take (ofLe (buf.take 4))) with
        | none => rfl
        | some arg =>
          rw [sliceFrom_eq (by omega)]
          exact readArgsIdx_eq n _ _

/-- Every check comes before its slice. -/
theorem readRequestIdx_eq (stream : Bytes) : readRequestIdx stream = some (readRequest stream) := by
  unfold readRequestIdx readRequest
  cases readExact 4 stream with
  | error e => rfl
  | ok x =>
    obtain ⟨hdr, stream⟩ := x
    dsimp only
    split
    · rfl
    · cases readExact (ofLe hdr) stream with
      | error e => rfl
      | ok y =>
        obtain ⟨buf, stream⟩ := y
        dsimp only
        by_cases h4 : buf.length < 4
        · rw [if_pos h4, if_pos h4]
        · rw [if_neg h4, if_neg h4, sliceTo_eq (by omega)]
          simp only [Option.bind_eq_bind, Option.bind_some]
          split
          · rfl
          · rw [sliceFrom_eq (by omega), Option.bind_some, readArgsIdx_eq]
            cases readArgs (ofLe (buf.take 4)) (buf.drop 4) [] <;> rfl

/-! ## The grammar -/

/-- The stream starts with a request of these arguments, `len` bytes long behind its header. -/
structure IsRequest (stream : Bytes) (bodies : List Bytes) (len : Nat) : Prop where
  header : stream.take 4 = leBytes 4 len
  complete : 4 + len ≤ stream.length
  fits : len ≤ MAX_MSG_SIZE
  few : bodies.length ≤ MAX_ARGS
  blocks : leBytes 4 bodies.length ++ argBlocks bodies <+: (stream.drop 4).take len

theorem readExact_eq_ok {n : Nat} {stream a b : Bytes} (h : readExact n stream = .ok (a, b)) :
    n ≤ stream.length ∧ a = stream.take n ∧ b = stream.drop n := by
  unfold readExact at h
  split at h
  · cases h
    exact ⟨‹_›, rfl, rfl⟩
  · cases h

/-- A round that succeeds has found a block. -/
theorem block_of_readArgs {n : Nat} {buf : Bytes} {acc out : List String} (h : readArgs (n + 1) buf acc = .ok out) :
    ∃ body rest arg, buf = leBytes 4 body.length ++ (body ++ rest) ∧ fromUtf8 body = some arg ∧
      readArgs n rest (acc ++ [arg]) = .ok out := by
  rw [readArgs] at h
  split at h
  · cases h
  · rename_i h4
    dsimp only at h
    split at h
    · cases h
    · rename_i hsz
      have hlen : ((buf.drop 4).take (ofLe (buf.take 4))).length = ofLe (buf.take 4) := by
        rw [List.length_take]
        omega
      split at h
      · cases h
      · rename_i arg harg
        refine ⟨_, _, arg, ?_, harg, h⟩
        rw [hlen, leBytes_ofLe_take (by omega), List.take_append_drop, List.take_append_drop]

theorem blocks_of_readArgs : ∀ {n : Nat} {buf : Bytes} {acc out : List String}, readArgs n buf acc = .ok out →
    ∃ bodies args, argBlocks bodies <+: buf ∧ bodies.length = n ∧ bodies.map fromUtf8 = args.map some ∧
      out = acc ++ args
  | 0, buf, acc, out, h => by
    cases h
    exact ⟨[], [], List.nil_prefix, rfl, rfl, by simp⟩
  | n + 1, buf, acc, out, h => by
    obtain ⟨body, rest, arg, rfl, harg, hrest⟩ := block_of_readArgs h
    obtain ⟨bodies, args, hblocks, hn, hargs, rfl⟩ := blocks_of_readArgs hrest
    refine ⟨body :: bodies, arg :: args, ?_, by simp [hn], by simp [harg, hargs], by simp⟩
    rw [argBlocks_cons]
    exact (List.prefix_append_right_inj _).2 ((List.prefix_append_right_inj _).2 hblocks)

theorem readArgs_of_blocks : ∀ {bodies : List Bytes} {args : List String} (tail : Bytes) (acc : List String),
    (∀ b ∈ bodies, b.length < 2 ^ 32) → bodies.map fromUtf8 = args.map some →
    readArgs bodies.length (argBlocks bodies ++ tail) acc = .ok (acc ++ args)
  | [], [], tail, acc, _, _ => by simp [readArgs]
  | [], arg :: args, tail, acc, _, h => by simp at h
  | body :: bodies, [], tail, acc, _, h => by simp at h
  | body :: bodies, arg :: args, tail, acc, hlen, h => by
    simp only [List.map_cons, List.cons.injEq] at h
    have ih := readArgs_of_blocks tail (acc ++ [arg]) (fun b hb => hlen b (by simp [hb])) h.2
    rw [argBlocks_cons, List.append_assoc, List.append_assoc, List.length_cons, readArgs_block (hlen body (by simp)),
      h.1, Option.elim_some, ih]
    simp

theorem length_le_argBlocks {bodies : List Bytes} {body : Bytes} (h : body ∈ bodies) :
    body.length ≤ (argBlocks bodies).length := by
  have hle : 4 + body.length ≤ (bodies.map fun a => 4 + a.length).sum :=
    List.single_le_sum (by simp) _ (List.mem_map_of_mem h)
  rw [length_argBlocks]
  omega

/-- What is accepted is in the grammar. -/
theorem isRequest_of_readRequest {stream rest : Bytes} {args : List String} (h : readRequest stream = .ok (args, rest)) :
    ∃ bodies len, IsRequest stream bodies len ∧ bodies.map fromUtf8 = args.map some ∧ rest = stream.drop (4 + len) := by
  unfold readRequest at h
  split at h
  · cases h
  · rename_i hdr stream₁ hhdr
    obtain ⟨h4, rfl, rfl⟩ := readExact_eq_ok hhdr
    dsimp only at h
    split at h
    · cases h
    · rename_i hmax
      split at h
      · cases h
      · rename_i buf stream₂ hbuf
        obtain ⟨hlen, rfl, rfl⟩ := readExact_eq_ok hbuf
        split at h
        · cases h
        · rename_i hb4
          split at h
          · cases h
          · rename_i hn
            split at h
            · cases h
            · rename_i args' hargs
              cases h
              obtain ⟨bodies, args, hblocks, hcount, hutf8, rfl⟩ := blocks_of_readArgs hargs
              rw [List.length_drop] at hlen
              refine ⟨bodies, ofLe (stream.take 4), ⟨(leBytes_ofLe_take h4).symm, by omega, by omega, by omega, ?_⟩, hutf8,
                List.drop_drop⟩
              rw [hcount, leBytes_ofLe_take (by omega)]
              nth_rewrite 2 [← List.take_append_drop 4 ((stream.drop 4).take (ofLe (stream.take 4)))]
              exact (List.prefix_append_right_inj _).2 hblocks

/-- What is in the grammar is accepted. -/
theorem readRequest_of_isRequest {stream : Bytes} {bodies : List Bytes} {len : Nat} (h : IsRequest stream bodies len)
    {args : List String} (hutf8 : bodies.map fromUtf8 = args.map some) :
    readRequest stream = .ok (args, stream.drop (4 + len)) := by
  have hfits := h.fits
  have hfew := h.few
  have hcomplete := h.complete
  simp only [MAX_MSG_SIZE] at hfits
  simp only [MAX_ARGS] at hfew
  obtain ⟨tail, htail⟩ := h.blocks
  have hlen := congrArg List.length htail
  simp only [List.length_append, length_leBytes, List.length_take, List.length_drop] at hlen
  have hmsg : ofLe (stream.take 4) = len := by
    rw [h.header]
    exact ofLe_leBytes_of_lt (by omega)
  have hn : ofLe (leBytes 4 bodies.length) = bodies.length := ofLe_leBytes_of_lt (by omega)
  have hbodies : ∀ b ∈ bodies, b.length < 2 ^ 32 := by
    intro b hb
    have := length_le_argBlocks hb
    omega
  have hread : ∀ n (bs : Bytes), n ≤ bs.length → readExact n bs = .ok (bs.take n, bs.drop n) := fun n bs hle => if_pos hle
  rw [readRequest, hread 4 stream (by omega)]
  simp only [hmsg]
  rw [if_neg (by simp only [MAX_MSG_SIZE]; omega), hread len _ (by rw [List.length_drop]; omega), ← htail]
  simp only [List.append_assoc]
  rw [if_neg (by simp), List.take_left' (length_leBytes _ _), hn, List.drop_left' (length_leBytes _ _),
    if_neg (by simp only [MAX_ARGS]; omega), readArgs_of_blocks tail [] hbodies hutf8, List.drop_drop]
  rfl

/-- **`read_request`.** On every stream all slices are in range; it accepts exactly the requests of the grammar, answers
    their arguments and consumes exactly their bytes. -/
theorem readRequestIdx_iff (stream : Bytes) : readRequestIdx stream ≠ none ∧
    ∀ args rest, readRequestIdx stream = some (.ok (args, rest)) ↔
      ∃ bodies len, IsRequest stream bodies len ∧ bodies.map fromUtf8 = args.map some ∧ rest = stream.drop (4 + len) := by
  rw [readRequestIdx_eq]
  refine ⟨Option.some_ne_none _, ?_⟩
  intro args rest
  rw [Option.some.injEq]
  constructor
  · exact isRequest_of_readRequest
  · rintro ⟨bodies, len, hreq, hutf8, rfl⟩
    exact readRequest_of_isRequest hreq hutf8

end RedisOps.Proto
