import Mathlib
import RedisOps.Handler.Alike
import RedisOps.Lib.Digits

/-!
# Expired keys and the sweeper's timing

A client should not be able to tell whether the sweeper has run. `runDispatch_sweep_iff` says when it
cannot: the command answers the same and leaves the same unexpired entries with and without a sweep just
before it. `get`, `set`, `keys` and the bit readers test expiry, so they never tell. The sorted set and
list operations, `del`, `pexpire`, `pttl` and the bit writers do not (`blindKey`), so they tell as soon as
their key holds a dead entry, unless what they read of it happens to look like an absent key
(`Harmless`).
-/

namespace RedisOps.Handler

open Lib Store Proto

variable {F : Type} {now : Nat} [F64 F]

/-! ## The condition -/

/-- What a command may find dead without showing it. -/
def Harmless (now : Nat) (s : Data F) : Word → List String → Prop
  | .del, [key] | .pttl, [key] => NoDead now s key
  | .pexpire, [key, ms] => (parseI64 ms).isSome → NoDead now s key
  | .zadd, [key, score, _] => (F64.parse (F := F) score).isSome → NoDead now s key
  | .zrem, [key, name] => DeadOnly now s key (ZSetLike fun z => (z.remove name).1 = false)
  | .zscore, [key, name] => DeadOnly now s key (ZSetLike fun z => z.score name = none)
  | .zquery, [key, score, minName, offset, limit] => ∀ m o l, F64.parse score = some m →
      parseI64 offset = some o → parseI64 limit = some l →
      DeadOnly now s key (ZSetLike fun z => z.query m minName o l = [])
  | .lpush, [key, _] | .rpush, [key, _] => NoDead now s key
  | .lpop, [key] | .rpop, [key] => DeadOnly now s key (ListLike (· = []))
  | .lrange, [key, start, stop] => ∀ a b, parseI64 start = some a → parseI64 stop = some b →
      DeadOnly now s key (ListLike fun l => listRange l a b = some [])
  | .lindex, [key, idx] => ∀ i, parseI64 idx = some i →
      DeadOnly now s key (ListLike fun l => listIndex l i = none)
  | .llen, [key] => DeadOnly now s key EmptyList
  | .lrem, [key, count, val] => ∀ n, parseI64 count = some n →
      DeadOnly now s key (ListLike fun l => (listRem l n val).2 = 0)
  | .setbit, [key, bit] | .clearbit, [key, bit] => (parseU32 bit).isSome → NoDead now s key
  | .bfset, [key, offset, width, val] => (parseU32 offset).isSome → (parseU64 val).isSome →
      ∀ n, parseU32 width = some n → n ≠ 0 → NoDead now s key
  | .jobSubmit, _ :: _ :: _ :: _ :: _ => NoDead now s queueKey
  | .jobNext, _ => DeadOnly now s queueKey (ListLike (· = []))
  | .jobResult, [_, exitCode, durationMs] => (parseI64 exitCode).isSome →
      (parseI64 durationMs).isSome → NoDead now s resultsKey
  | .jobLog, id :: _ :: _ =>
      DeadOnly now s (jobLogKey id) (ListLike fun l => listRange l 0 (-1) = some [])
  | .metricRecord, _ :: value :: _ => (F64.parse (F := F) value).isSome →
      NoDead now s metricsKey ∧ NoDead now s metricsTsKey
  | .metricQuery, name :: more => DeadOnly now s metricsKey (ListLike fun l =>
      (listRange l 0 (limitArg more.head? 100 - 1)).map (metricFilter name) = some [])
  | .metricSummary, _ => DeadOnly now s metricsKey (ListLike fun l => listRange l 0 (-1) = some []) ∧
      DeadOnly now s queueKey EmptyList
  | .tsAdd, name :: ts :: val :: _ => (parseU64 ts).isSome → (F64.parse (F := F) val).isSome →
      NoDead now s (seriesKey name)
  | .tsRange, name :: start :: stop :: more => ∀ a b, parseU64 start = some a →
      parseU64 stop = some b → DeadOnly now s (seriesKey name) (ListLike fun l =>
        (listRange l 0 (limitArg more.head? 1000 - 1)).map (List.filter (pointInRange a b)) = some [])
  | .tsInfo, [name] => DeadOnly now s (seriesKey name) EmptyList
  | _, _ => True

variable {w : World F}

/-! ## One blind operation -/

theorem alike_zscore (key name : String) : Alike now w (zscore [key, name]) ↔
    Harmless now w.store .zscore [key, name] := by
  refine alike_blind rfl (fun r => ?_) fun v t hl _ hs => ?_
  · obtain ⟨_ | _, _ | _⟩ := r <;> exact ⟨_, rfl⟩
  · cases v with
    | zset z =>
      cases hz : z.score name <;>
        simp [alike_iff, Prog.run, exec, zScore, hl, hs, World.swept, live_sweep, hz, ZSetLike,
          Response.encode, SER_DBL, SER_NIL]
    | _ =>
      simp [alike_iff, Prog.run, exec, zScore, hl, hs, World.swept, ZSetLike, Response.encode, errType,
        SER_ERR, SER_NIL]

theorem alike_pttl (key : String) : Alike now w (pttl [key]) ↔
    Harmless now w.store .pttl [key] := by
  refine (alike_blind rfl (fun r => ⟨_, rfl⟩) fun v t hl ht hs => ?_).trans (noDead_iff _ _).symm
  simp [alike_iff, Prog.run, exec, ttlMs, hl, hs, World.swept, live_sweep, Response.encode_int_inj,
    Nat.sub_eq_zero_of_le ht]

theorem alike_lindex (key idx : String) : Alike now w (lindexCmd [key, idx]) ↔
    Harmless now w.store .lindex [key, idx] := by
  change _ ↔ ∀ i, parseI64 idx = some i → DeadOnly now w.store key (ListLike fun l => listIndex l i = none)
  simp only [lindexCmd, alike_parsed]
  apply forall₂_congr
  intro i _
  refine alike_blind rfl (fun r => ⟨_, rfl⟩) fun v t hl _ hs => ?_
  cases v with
  | list l =>
    cases hi : listIndex l i <;>
      simp [alike_iff, Prog.run, exec, lindex, hl, hs, World.swept, live_sweep, hi, ListLike, strOrNil,
        Response.encode, SER_STR, SER_NIL]
  | _ =>
      simp [alike_iff, Prog.run, exec, lindex, hl, hs, World.swept, live_sweep, ListLike, strOrNil]

theorem alike_zrem (key name : String) : Alike now w (zrem [key, name]) ↔
    Harmless now w.store .zrem [key, name] := by
  refine alike_blind rfl (fun r => ?_) fun v t hl ht hs => ?_
  · obtain ⟨_ | _, _ | _⟩ := r <;> exact ⟨_, rfl⟩
  · cases v with
    | zset z =>
      cases hz : (z.remove name).1 <;>
        simp [alike_iff, Prog.run, exec, zRem, hl, hs, World.swept, live_sweep, hz, ZSetLike,
          Response.encode_int_inj, flag, setTyp, live_insert_dead hl ht]
    | _ =>
      simp [alike_iff, Prog.run, exec, zRem, hl, hs, World.swept, ZSetLike, Response.encode, errType,
        flag, SER_ERR, SER_INT]

theorem entryResponses_nil : entryResponses ([] : List (Zset.Entry F)) = [] := rfl

theorem entryResponses_eq_nil {es : List (Zset.Entry F)} : entryResponses es = [] ↔ es = [] := by
  cases es <;> simp [entryResponses]

theorem alike_zquery (key score minName offset limit : String) :
    Alike now w (zquery [key, score, minName, offset, limit]) ↔
      Harmless now w.store .zquery [key, score, minName, offset, limit] := by
  change _ ↔ ∀ m o l, F64.parse score = some m → parseI64 offset = some o → parseI64 limit = some l →
    DeadOnly now w.store key (ZSetLike fun z => z.query m minName o l = [])
  simp only [zquery, alike_parsed]
  have hq : ∀ m o l, Alike now w (.op (.zQuery key m minName o l) fun r =>
      if r.2 then pure (errType "expect zset") else pure (.arr (entryResponses r.1))) ↔
        DeadOnly now w.store key (ZSetLike fun z => z.query m minName o l = []) := by
    intro m o l
    refine alike_blind rfl (fun r => ?_) fun v t hl _ hs => ?_
    · obtain ⟨_, _ | _⟩ := r <;> exact ⟨_, rfl⟩
    · cases v with
      | zset z =>
        simp [alike_iff, Prog.run, exec, zQuery, hl, hs, World.swept, live_sweep, ZSetLike,
          entryResponses_nil, entryResponses_eq_nil, Response.encode_arr_nil]
      | _ =>
        simp [alike_iff, Prog.run, exec, zQuery, hl, hs, World.swept, ZSetLike, Response.encode, errType,
          entryResponses, SER_ERR, SER_ARR]
  exact ⟨fun h m o l hm ho hl => (hq m o l).1 (h m hm o ho l hl),
    fun h m hm o ho l hl => (hq m o l).2 (h m o l hm ho hl)⟩

/-- What a command makes of a range of the list at `key`, dead or not. -/
theorem alike_range (key : String) (a b : Int64) (f : List String → List String) (hf : f [] = []) :
    Alike now w (.op (.lrange key a b) fun vals => pure (strs (f vals))) ↔
      DeadOnly now w.store key (ListLike fun l => (listRange l a b).map f = some []) := by
  refine alike_blind rfl (fun r => ⟨_, rfl⟩) fun v t hl _ hs => ?_
  cases v with
  | list l =>
    cases hr : listRange l a b <;>
      simp [alike_iff, Prog.run, exec, lrange, hl, hs, World.swept, live_sweep, hr, ListLike, strs, hf,
        Response.encode_arr_nil]
  | _ => simp [alike_iff, Prog.run, exec, lrange, hl, hs, World.swept, live_sweep, ListLike]

theorem alike_lrange (key start stop : String) : Alike now w (lrangeCmd [key, start, stop]) ↔
    Harmless now w.store .lrange [key, start, stop] := by
  change _ ↔ ∀ a b, parseI64 start = some a → parseI64 stop = some b →
    DeadOnly now w.store key (ListLike fun l => listRange l a b = some [])
  simp only [lrangeCmd, alike_parsed]
  have hr : ∀ a b, Alike now w (.op (.lrange key a b) fun vals => pure (strs vals)) ↔
      DeadOnly now w.store key (ListLike fun l => listRange l a b = some []) := by
    intro a b
    simpa using alike_range key a b id rfl
  exact ⟨fun h a b ha hb => (hr a b).1 (h a ha b hb), fun h a ha b hb => (hr a b).2 (h a b ha hb)⟩

theorem alike_metricQuery (name : String) (more : List String) :
    Alike now w (metricQuery (name :: more)) ↔ Harmless now w.store .metricQuery (name :: more) :=
  alike_range metricsKey 0 _ (metricFilter name) rfl

theorem alike_tsRange (name start stop : String) (more : List String) :
    Alike now w (tsRange (name :: start :: stop :: more)) ↔
      Harmless now w.store .tsRange (name :: start :: stop :: more) := by
  change _ ↔ ∀ a b, parseU64 start = some a → parseU64 stop = some b →
    DeadOnly now w.store (seriesKey name) (ListLike fun l =>
      (listRange l 0 (limitArg more.head? 1000 - 1)).map (List.filter (pointInRange a b)) = some [])
  simp only [tsRange, alike_parsed]
  have hr := fun a b => @alike_range F now _ w (seriesKey name) 0 (limitArg more.head? 1000 - 1)
    (List.filter (pointInRange a b)) rfl
  exact ⟨fun h a b ha hb => (hr a b).1 (h a ha b hb), fun h a ha b hb => (hr a b).2 (h a b ha hb)⟩

theorem alike_llen (key : String) : Alike now w (llenCmd [key]) ↔ Harmless now w.store .llen [key] := by
  refine alike_blind rfl (fun r => ⟨_, rfl⟩) fun v t hl _ hs => ?_
  cases v <;>
    simp [alike_iff, Prog.run, exec, llen, hl, hs, World.swept, live_sweep, EmptyList,
      Response.encode_int_inj]

theorem alike_lrem (key count val : String) : Alike now w (lremCmd [key, count, val]) ↔
    Harmless now w.store .lrem [key, count, val] := by
  change _ ↔ ∀ n, parseI64 count = some n →
    DeadOnly now w.store key (ListLike fun l => (listRem l n val).2 = 0)
  simp only [lremCmd, alike_parsed]
  apply forall₂_congr
  intro n _
  refine alike_blind rfl (fun r => ⟨_, rfl⟩) fun v t hl ht hs => ?_
  cases v <;>
    simp [alike_iff, Prog.run, exec, lrem, hl, hs, World.swept, live_sweep, ListLike, setTyp,
      live_insert_dead hl ht, Response.encode_int_inj]

theorem alike_lpop (key : String) : Alike now w (lpopCmd [key]) ↔ Harmless now w.store .lpop [key] := by
  refine alike_blind rfl (fun r => ⟨_, rfl⟩) fun v t hl ht hs => ?_
  cases v with
  | list l =>
    cases l <;>
      simp [alike_iff, Prog.run, exec, lpop, hl, hs, World.swept, live_sweep, ListLike, strOrNil,
        Response.encode, SER_STR, SER_NIL]
  | _ => simp [alike_iff, Prog.run, exec, lpop, hl, hs, World.swept, live_sweep, ListLike]

theorem alike_rpop (key : String) : Alike now w (rpopCmd [key]) ↔ Harmless now w.store .rpop [key] := by
  refine alike_blind rfl (fun r => ⟨_, rfl⟩) fun v t hl ht hs => ?_
  cases v with
  | list l =>
    rcases List.eq_nil_or_concat' l with rfl | ⟨l, x, rfl⟩ <;>
      simp [alike_iff, Prog.run, exec, rpop, hl, hs, World.swept, live_sweep, ListLike, strOrNil,
        Response.encode, SER_STR, SER_NIL]
  | _ => simp [alike_iff, Prog.run, exec, rpop, hl, hs, World.swept, live_sweep, ListLike]

theorem alike_del (key : String) : Alike now w (delCmd [key]) ↔ Harmless now w.store .del [key] := by
  refine (alike_blind rfl (fun r => ⟨_, rfl⟩) fun v t hl ht hs => ?_).trans (noDead_iff _ _).symm
  simp [alike_iff, Prog.run, exec, del, hl, hs, World.swept, flag, Response.encode_int_inj]

theorem alike_pexpire (key ms : String) : Alike now w (pexpire [key, ms]) ↔
    Harmless now w.store .pexpire [key, ms] := by
  apply alike_parsed_const
  intro n
  refine (alike_blind rfl (fun r => ⟨_, rfl⟩) fun v t hl ht hs => ?_).trans (noDead_iff _ _).symm
  simp [alike_iff, Prog.run, exec, expire, hl, hs, World.swept, flag, Response.encode_int_inj]

/-! ## Commands that make an entry -/

theorem alike_zadd (key score name : String) : Alike now w (zadd [key, score, name]) ↔
    Harmless now w.store .zadd [key, score, name] := by
  refine alike_parsed_const fun m => alike_creates ?_ ?_ fun w hn => ?_
  · exact ⟨by simp [blindKey], fun r => by obtain ⟨_, _ | _⟩ := r <;> trivial⟩
  · exact ⟨by simp [renewKey], fun r => by obtain ⟨_, _ | _⟩ := r <;> trivial⟩
  · simp [Prog.run, exec, zAdd, hn]

theorem alike_lpush (key val : String) : Alike now w (lpushCmd [key, val]) ↔
    Harmless now w.store .lpush [key, val] := by
  refine alike_creates ⟨by simp [blindKey], fun _ => trivial⟩ ⟨by simp [renewKey], fun _ => trivial⟩
    fun w hn => ?_
  simp [lpushCmd, Prog.run, exec, lpush, hn]

/-- `setbit` and `clearbit`. -/
theorem alike_setBit (key : String) (bit : UInt32) (on : Bool) :
    Alike now w (.op (.setBit key bit on) fun _ => pure (.int 1)) ↔ NoDead now w.store key := by
  refine alike_creates ⟨by simp [blindKey], fun _ => trivial⟩ ⟨by simp [renewKey], fun _ => trivial⟩
    fun w hn => ?_
  simp [Prog.run, exec, setBit, hn]

theorem alike_jobSubmit (id name target command : String) (jobArgs : List String) :
    Alike now w (jobSubmit (id :: name :: target :: command :: jobArgs)) ↔
      Harmless now w.store .jobSubmit (id :: name :: target :: command :: jobArgs) := by
  obtain ⟨h₁, h₂, -, -⟩ := job_keys_ne id queueKey (by decide)
  refine alike_creates ?_ ?_ fun w hn => ?_
  · simp [jobSubmit, blindKey]
  · simp [jobSubmit, renewKey, h₁, h₂]
  · simp [jobSubmit, Prog.run, exec, lpush, hn, setStr, live_insertNew_ne h₁.symm, live_insertNew_ne h₂.symm]

theorem alike_jobResult (id exitCode durationMs : String) :
    Alike now w (jobResult [id, exitCode, durationMs]) ↔
      Harmless now w.store .jobResult [id, exitCode, durationMs] := by
  obtain ⟨-, h₁, h₂, -⟩ := job_keys_ne id resultsKey (by decide)
  refine alike_parsed_const fun e => alike_parsed_const fun d => alike_creates ?_ ?_ fun w hn => ?_
  · simp [blindKey]
  · simp [renewKey, h₁, h₂]
  · simp [Prog.run, exec, lpush, setStr, lookup_insertNew_ne h₁.symm, lookup_insertNew_ne h₂.symm, hn]

theorem alike_tsAdd (name ts val : String) (labelArgs : List String) :
    Alike now w (tsAdd (name :: ts :: val :: labelArgs)) ↔
      Harmless now w.store .tsAdd (name :: ts :: val :: labelArgs) := by
  obtain ⟨h₁, h₂⟩ := series_keys_ne name
  refine alike_parsed_const fun e => alike_parsed_const fun d => alike_creates ?_ ?_ fun w hn => ?_
  · simp [blindKey]
  · simp [renewKey, h₁, h₂]
  · simp [Prog.run, exec, lpush, setStr, live_insertNew_ne h₁.symm, live_insertNew_ne h₂.symm, hn]

omit [F64 F] in
theorem live_setBit {s : Data F} {key : String} (h : live now s key ≠ none ∨ s.lookup key = none)
    (bit : UInt32) (on : Bool) : live now (setBit s key bit on) key ≠ none := by
  unfold setBit
  cases hl : s.lookup key with
  | none => simp
  | some e =>
    have he : e.expired now = false := by simpa [live, hl, Option.filter_some] using h
    cases ht : e.typ <;> simp_all [live, Option.filter_some, setTyp, Entry.expired]

/-- Setting a field of at least one bit. -/
theorem alike_bitfieldSet (key : String) (offset : UInt32) (val : UInt64) (width n : Nat) :
    Alike now w (bitfieldSet key offset val width (n + 1) >>= fun _ => pure (.int 1)) ↔
      NoDead now w.store key := by
  have hall : ∀ n, (bitfieldSet (F := F) key offset val width n).All (fun o => ∃ b on, o = .setBit key b on)
      fun _ => True := all_bitfieldSet (fun b on => ⟨b, on, rfl⟩) offset val width
  refine alike_creates ?_ ?_ fun w hn => ?_
  · refine (Prog.all_bind _ _).2 ((hall (n + 1)).mono ?_ fun _ _ => trivial)
    rintro _ ⟨b, on, rfl⟩ k hk
    simpa [blindKey] using hk.symm
  · refine (Prog.all_bind _ _).2 ((hall (n + 1)).mono ?_ fun _ _ => trivial)
    rintro _ ⟨b, on, rfl⟩
    simp [renewKey]
  · -- the first bit makes the entry, the others keep it
    have hstep : ∀ (o : Op F) (w : World F) (r : o.Ret) (w' : World F),
        (∃ b on, o = .setBit key b on) → live now w.store key ≠ none → exec now o w = some (r, w') →
        live now w'.store key ≠ none := by
      rintro _ w r w' ⟨b, on, rfl⟩ hw hx
      simp only [exec, Option.some.injEq, Prod.mk.injEq] at hx
      obtain ⟨-, rfl⟩ := hx
      exact live_setBit (.inl hw) b on
    have hrest := (Prog.all_bind (P := fun o => ∃ b on, o = Op.setBit key b on) (R := fun _ => True)
      (bitfieldSet key offset val width n) fun _ => (.ret (.int 1) : Cmd F Response)).2
      ((hall n).mono (fun _ h => h) fun _ _ => trivial)
    exact (Prog.run_inv hstep hrest (live_setBit (.inr hn) _ _)).1

theorem alike_bfset (key offset width val : String) : Alike now w (bfset [key, offset, width, val]) ↔
    Harmless now w.store .bfset [key, offset, width, val] := by
  have hn : ∀ (o n : UInt32) (v : UInt64),
      Alike now w (bitfieldSet key o v n.toNat n.toNat >>= fun _ => pure (.int 1)) ↔
        (n ≠ 0 → NoDead now w.store key) := by
    intro o n v
    cases hn : n.toNat with
    | zero =>
      have h0 : n = 0 := UInt32.toNat_inj.1 hn
      exact iff_of_true (alike_ret _) (absurd h0)
    | succ m =>
      have h0 : n ≠ 0 := fun h => by simp [h] at hn
      simpa [h0] using alike_bitfieldSet key o v (m + 1) m
  refine (alike_parsed_const (Q := (parseU64 val).isSome → ∀ n, parseU32 width = some n → n ≠ 0 →
    NoDead now w.store key) fun o => ?_)
  rw [alike_parsed]
  constructor
  · intro h hv n hw hn0
    exact ((alike_parsed_const fun v => hn o n v).1 (h n hw)) hv hn0
  · intro h n hw
    exact (alike_parsed_const fun v => hn o n v).2 fun hv hn0 => h hv n hw hn0

theorem alike_metricRecord (ts : Nat) (name value : String) (labels : List String) :
    Alike now w (metricRecord ts (name :: value :: labels)) ↔
      Harmless now w.store .metricRecord (name :: value :: labels) := by
  have hne : metricsKey ≠ metricsTsKey := by decide
  refine alike_parsed_const fun m => ⟨fun h => ⟨?_, ?_⟩, fun ⟨h₁, h₂⟩ => alike_of_all ?_⟩
  · apply noDead_of_creates h (by simp [renewKey])
    intro w hn
    cases hz : w.store.lookup metricsTsKey with
    | none =>
      simp [Prog.run, exec, lpush, zAdd, hn, hz, lookup_insertNew_ne hne.symm, live_insertNew_ne hne]
    | some e =>
      cases ht : e.typ <;>
        simp [Prog.run, exec, lpush, zAdd, hn, hz, ht, lookup_insertNew_ne hne.symm, live_setTyp_ne hne]
  · apply noDead_of_creates h (by simp [renewKey])
    intro w hn
    have hl : ∀ v, (lpush w.store metricsKey v).lookup metricsTsKey = none := fun v =>
      (exec_frame (show exec now (.lpush metricsKey v) w = some _ from rfl) (by simp [writeKey, hne])).trans
        hn
    simp [Prog.run, exec, zAdd, hl]
  · simp [blindKey, h₁, h₂]

/-! ## Several operations -/

theorem alike_jobNext : Alike now w jobNext ↔ DeadOnly now w.store queueKey (ListLike (· = [])) := by
  obtain ⟨hd, -⟩ | ⟨v, t, hl, ht, hd, hs⟩ := dead_cases now w.store queueKey
  · simp only [DeadOnly, hd, reduceCtorEq, false_implies, implies_true, iff_true]
    refine alike_of_all ⟨by simp [blindKey, NoDead, hd], ?_⟩
    intro payload
    cases payload with
    | none => trivial
    | some payload =>
      simp only [Prog.ret_bind']
      split
      · exact ⟨by simp [blindKey], fun _ => trivial⟩
      · trivial
  · cases v with
    | list l =>
      rcases List.eq_nil_or_concat' l with rfl | ⟨l, x, rfl⟩
      · simp [alike_iff, jobNext, Prog.run, exec, rpop, hl, hd, hs, World.swept, live_sweep, DeadOnly,
          ListLike]
      · -- a payload is answered, or refused: not `Nil` either way
        refine iff_of_false (fun h => ?_) (by simp [DeadOnly, hd, ListLike])
        have hresp := (alike_iff.1 h).1
        simp only [jobNext, await_def, Prog.op_bind, Prog.run, exec, rpop, hl, hs, World.swept,
          List.getLast?_concat, Prog.ret_bind] at hresp
        split at hresp <;>
          simp [Prog.run, exec, strs, errUnknown, Response.encode, SER_ARR, SER_ERR, SER_NIL] at hresp
    | _ =>
      simp [alike_iff, jobNext, Prog.run, exec, rpop, hl, hd, hs, World.swept, live_sweep, DeadOnly,
        ListLike]

/-- Pushes onto a list that never expires. -/
theorem run_lpushEach (key : String) : ∀ (vals l : List String) (w : World F),
    w.store.lookup key = some ⟨.list l, none⟩ →
      ∃ w', (lpushEach key vals).run (exec now) w = (some (), w') ∧
        w'.store.lookup key = some ⟨.list (vals.reverse ++ l), none⟩
  | [], l, w, h => ⟨w, rfl, by simpa using h⟩
  | v :: vals, l, w, h => by
    obtain ⟨w', hw', hl⟩ := run_lpushEach key vals (v :: l) { w with store := lpush w.store key v }
      (by simp [lpush, h, setTyp])
    exact ⟨w', hw', by simpa using hl⟩

/-- Pushes where there is no entry. -/
theorem run_lpushEach_none {key : String} {w : World F} (h : w.store.lookup key = none) (v : String)
    (vals : List String) : ∃ w', (lpushEach key (v :: vals)).run (exec now) w = (some (), w') ∧
      live now w'.store key = some ⟨.list (v :: vals).reverse, none⟩ := by
  obtain ⟨w', hw', hl⟩ := @run_lpushEach F now _ key vals [v] { w with store := lpush w.store key v }
    (by simp [lpush, h, insertNew])
  exact ⟨w', hw', by simp [live, hl, Option.filter_some, Entry.expired]⟩

theorem asUsize_length_le (l : List String) :
    asUsize (max (Int64.ofNat l.length + -1 + 1) 0) ≤ l.length := by
  have hlen : Int64.ofNat l.length + -1 + 1 = Int64.ofNat l.length := by
    rw [Int64.add_assoc]; simp
  have hmax : max (Int64.ofNat l.length) 0 = Int64.ofNat l.length ∨
      max (Int64.ofNat l.length) 0 = 0 := by
    change (if _ then _ else _) = _ ∨ (if _ then _ else _) = _
    split <;> simp
  rw [hlen, asUsize]
  rcases hmax with h | h
  · rw [h, Int64.toUInt64_ofNat', UInt64.toNat_ofNat']
    exact Nat.mod_le _ _
  · rw [h]
    exact Nat.zero_le _

/-- The whole range is never out of bounds. -/
theorem listRange_all (l : List String) : ∃ vals, listRange l 0 (-1) = some vals := by
  have he := asUsize_length_le l
  have h0 : ¬ (0 : Int64) < 0 := by decide
  have h1 : (-1 : Int64) < 0 := by decide
  simp only [listRange, h0, h1, if_false, if_true]
  split
  · exact ⟨_, rfl⟩
  · rw [if_neg (by omega)]
    exact ⟨_, rfl⟩

omit [F64 F] in
theorem lrange_all (s : Data F) (key : String) : ∃ vals, lrange s key 0 (-1) = some vals := by
  unfold lrange
  repeat' split
  · exact listRange_all _
  all_goals exact ⟨_, rfl⟩

/-- The second half of `job log`: the old lines and the new one go into a fresh list. -/
def pushLog (key text : String) (vals : List String) : Cmd F Response := do
  lpushEach key (vals ++ [text])
  pure (.int 1)

omit [F64 F] in
theorem all_pushLog (key text : String) (vals : List String) : (pushLog (F := F) key text vals).All
    (fun o => ∃ v, o = .lpush key v) fun _ => True :=
  (Prog.all_bind _ _).2 ((all_lpushEach (fun v => ⟨v, rfl⟩) _).mono (fun _ h => h) fun _ _ => trivial)

theorem run_jobLog {id : String} {vals : List String} (line : String) (more : List String) {w : World F}
    (h : lrange w.store (jobLogKey id) 0 (-1) = some vals) :
    (jobLog (id :: line :: more)).run (exec now) w =
      (pushLog (jobLogKey id) (join " " (line :: more)) vals).run (exec now)
        { w with store := w.store.erase (jobLogKey id) } := by
  simp only [jobLog]
  rw [await_bind, Prog.run_op_some _ (by rw [exec, h]; rfl), await_bind, Prog.run_op_some _ rfl]
  rfl

theorem live_pushLog {key : String} {w : World F} (h : w.store.lookup key = none) (text : String)
    (vals : List String) : live now ((pushLog key text vals).run (exec now) w).2.store key =
      some ⟨.list (vals ++ [text]).reverse, none⟩ := by
  obtain ⟨v, rest, hv⟩ := List.exists_cons_of_ne_nil (show vals ++ [text] ≠ [] by simp)
  obtain ⟨w', hw', hl⟩ := @run_lpushEach_none F now _ key w h v rest
  rw [pushLog, hv, Prog.run_bind, hw']
  exact hl

/-- Both runs of `job log` on a dead entry write a fresh list; the one before the sweep starts it with
    the dead lines. -/
theorem alike_jobLog (id line : String) (more : List String) :
    Alike now w (jobLog (id :: line :: more)) ↔ Harmless now w.store .jobLog (id :: line :: more) := by
  change _ ↔ DeadOnly now w.store (jobLogKey id) (ListLike fun l => listRange l 0 (-1) = some [])
  obtain ⟨hd, -⟩ | ⟨v, t, hl, ht, hd, hs⟩ := dead_cases now w.store (jobLogKey id)
  · simp only [DeadOnly, hd, reduceCtorEq, false_implies, implies_true, iff_true]
    refine alike_of_all ⟨by simp [blindKey, NoDead, hd], fun vals =>
      ⟨by simp [blindKey, NoDead, hd], fun _ => (all_pushLog _ _ vals).mono ?_ fun _ _ => trivial⟩⟩
    rintro _ ⟨v, rfl⟩
    simp [blindKey, NoDead, hd]
  · obtain ⟨vals, hvals, hcond⟩ : ∃ vals, lrange w.store (jobLogKey id) 0 (-1) = some vals ∧
        (DeadOnly now w.store (jobLogKey id) (ListLike fun l => listRange l 0 (-1) = some []) ↔ vals = []) := by
      obtain ⟨vals, hvals⟩ := lrange_all w.store (jobLogKey id)
      refine ⟨vals, hvals, ?_⟩
      cases v <;> simp_all [lrange, DeadOnly, ListLike]
    have hvals' : lrange (w.swept now).store (jobLogKey id) 0 (-1) = some [] := by
      simp [lrange, World.swept, hs]
    rw [alike_iff, run_jobLog line more hvals, run_jobLog line more hvals', hcond]
    constructor
    · -- the lengths of the two lists differ unless there were no dead lines
      rintro ⟨-, h⟩
      have hk := h (jobLogKey id)
      rw [live_pushLog (by simp), live_pushLog (by simp)] at hk
      simpa using hk
    · rintro rfl
      have htw : Twins now (· = jobLogKey id) { w with store := w.store.erase (jobLogKey id) }
          { w.swept now with store := (w.swept now).store.erase (jobLogKey id) } :=
        ⟨rfl, ((twins_swept now w).erase _).live, by rintro _ rfl; simp⟩
      have hall : (pushLog (F := F) (jobLogKey id) (join " " (line :: more)) []).All
          (fun o => ∀ k, blindKey o = some k → k = jobLogKey id) fun _ => True := by
        refine (all_pushLog _ _ _).mono ?_ fun _ _ => trivial
        rintro _ ⟨v, rfl⟩ k hk
        simpa [blindKey] using hk.symm
      obtain ⟨hr, ht⟩ := Prog.run_rel (fun o s t ho hst => twins_step o ho hst) hall htw
      exact ⟨by rw [hr], live_of_sweep_eq ht.live⟩

/-! ## Answers in text -/

omit [F64 F] in
theorem llen_sweep_iff {s : Data F} {key : String} : llen s key = llen (sweep now s) key ↔
    DeadOnly now s key EmptyList := by
  obtain ⟨hd, hs⟩ | ⟨v, t, hl, -, hd, hs⟩ := dead_cases now s key
  · simp [llen, DeadOnly, hd, hs]
  · cases v <;> simp [llen, DeadOnly, EmptyList, hl, hd, hs]

theorem toString_int64_inj {a b : Int64} (h : toString a = toString b) : a = b :=
  Int64.toInt_inj.1 (Int.repr_injective h)

theorem alike_tsInfo (name : String) : Alike now w (tsInfo [name]) ↔
    Harmless now w.store .tsInfo [name] := by
  have hlast : getStr now (sweep now w.store) (seriesLastKey name) =
      getStr now w.store (seriesLastKey name) := getStr_sweep _ _
  change _ ↔ DeadOnly now w.store (seriesKey name) EmptyList
  rw [← llen_sweep_iff, alike_iff]
  simp only [tsInfo, await_def, Prog.op_bind, Prog.ret_bind, Prog.pure_def, Prog.run, exec, World.swept,
    hlast, live_sweep, Option.map_some, Option.some.injEq, Response.encode_str_inj, implies_true, and_true]
  refine ⟨fun h => ?_, fun h => by rw [h]⟩
  have hl := congrArg String.toList h
  simp only [String.toList_append, List.append_assoc, List.append_cancel_left_eq,
    List.append_cancel_right_eq] at hl
  exact toString_int64_inj (String.toList_inj.1 hl)

/-- No key both starts with `devops:job:` and is free of colons: `metric summary` counts no job. -/
theorem jobKeys_nil (ks : List String) :
    ks.filter (fun k => startsWith k "devops:job:" && !contains k ":") = [] := by
  apply List.filter_eq_nil_iff.2
  intro k _
  simp only [Bool.and_eq_true, Bool.not_eq_true', not_and, Bool.not_eq_false]
  intro h
  obtain ⟨t, ht⟩ := List.isPrefixOf_iff_prefix.1 h
  refine List.any_eq_true.2 ⟨":job:".toList ++ t, ?_, by simp⟩
  rw [List.mem_tails, ← ht]
  exact ⟨"devops".toList, by simp⟩

/-- The text of `metric summary` from its first number to its last. -/
theorem summaryText_eq (n : Nat) (c : JobCounts) : ∃ mid : String, ∀ total queueLen,
    summaryText total n c queueLen =
      "metrics=" ++ (toString total ++ ("," ++ (mid ++ toString queueLen))) := by
  refine ⟨"jobs=" ++ (toString n ++ (",passed=" ++ (toString c.passed ++ (",failed=" ++
    (toString c.failed ++ (",queued=" ++ (toString c.queued ++ ",queue_depth="))))))),
    fun total queueLen => ?_⟩
  unfold summaryText
  have hj : ",jobs=" = "," ++ "jobs=" := by decide
  simp only [String.append_assoc, hj]

theorem summaryText_inj {n a b : Nat} {c : JobCounts} {p q : Int64}
    (h : summaryText a n c p = summaryText b n c q) : a = b ∧ p = q := by
  obtain ⟨mid, hmid⟩ := summaryText_eq n c
  have hl := congrArg String.toList h
  have hc : ",".toList = [','] := by decide
  simp only [hmid, String.toList_append, hc, List.append_cancel_left_eq, List.cons_append,
    List.nil_append] at hl
  obtain ⟨htotal, hrest⟩ := toString_cut (by decide) hl
  exact ⟨htotal, toString_int64_inj (String.toList_inj.1 (List.append_cancel_left hrest))⟩

theorem run_metricSummary {w : World F} {vals : List String}
    (h : lrange w.store metricsKey 0 (-1) = some vals) : metricSummary.run (exec now) w =
      (some (.str (summaryText vals.length 0 {} (llen w.store queueKey))), w) := by
  simp [metricSummary, Prog.run, exec, h, jobKeys_nil, countJobs]

theorem alike_metricSummary (args : List String) :
    Alike now w metricSummary ↔ Harmless now w.store .metricSummary args := by
  obtain ⟨vals, vals', hvals, hvals', hcond⟩ : ∃ vals vals',
      lrange w.store metricsKey 0 (-1) = some vals ∧
      lrange (sweep now w.store) metricsKey 0 (-1) = some vals' ∧
      (DeadOnly now w.store metricsKey (ListLike fun l => listRange l 0 (-1) = some []) ↔
        vals.length = vals'.length) := by
    obtain ⟨hd, hs⟩ | ⟨v, t, hl, -, hd, hs⟩ := dead_cases now w.store metricsKey
    · obtain ⟨vals, hvals⟩ := lrange_all w.store metricsKey
      exact ⟨vals, vals, hvals, by simpa [lrange, hs] using hvals, by simp [DeadOnly, hd]⟩
    · obtain ⟨vals, hvals⟩ := lrange_all w.store metricsKey
      refine ⟨vals, [], hvals, by simp [lrange, hs], ?_⟩
      cases v <;> simp_all [lrange, DeadOnly, ListLike]
  change _ ↔ DeadOnly now w.store metricsKey (ListLike fun l => listRange l 0 (-1) = some []) ∧
    DeadOnly now w.store queueKey EmptyList
  rw [hcond, ← llen_sweep_iff, alike_iff, run_metricSummary hvals,
    run_metricSummary (w := w.swept now) hvals']
  simp only [Option.map_some, Option.some.injEq, Response.encode_str_inj, World.swept, live_sweep,
    implies_true, and_true]
  refine ⟨summaryText_inj, ?_⟩
  rintro ⟨h₁, h₂⟩
  rw [h₁, h₂]

/-! ## Commands that test expiry -/

/-- The commands that never tell. -/
theorem aware_handle (ts : Nat) (args : List String) {word : Word}
    (h : word ∈ [Word.auth, .config, .keys, .get, .set, .getbit, .bitcount, .bfget, .jobStatus, .jobList,
      .sandboxStatus, .sandboxRegister, .sandboxClaim, .tsList]) :
    (handle (F := F) ts args word).All (fun o => blindKey o = none) fun _ => True := by
  simp only [List.mem_cons, List.not_mem_nil, or_false] at h
  rcases h with rfl | rfl | rfl | rfl | rfl | rfl | rfl | rfl | rfl | rfl | rfl | rfl | rfl | rfl
  case inr.inr.inr.inr.inr.inr.inr.inr.inr.inl =>
    exact all_await rfl fun ks => (Prog.all_bind _ _).2 ((all_jobListLoop (fun _ => rfl) _ ks []).mono
      (fun _ h => h) fun _ _ => trivial)
  all_goals
    simp only [handle, auth, config, keysCmd, get, set, getbit, bitcountCmd, bfget, jobStatus,
      sandboxStatus, sandboxRegister, sandboxClaim, tsList]
    repeat' (first | split | refine all_parsed fun _ => ?_ | refine all_await rfl fun _ => ?_)
    all_goals exact True.intro

/-- `del` on a dead entry shows only in its answer, and `sandbox release` ignores it. -/
theorem alike_sandboxRelease (id : String) : Alike now w (sandboxRelease [id]) := by
  have htw : Twins now (fun _ => False) w (w.swept now) :=
    ⟨rfl, (twins_swept now w).live, fun _ h => h.elim⟩
  have hend := ((htw.insert (sandboxStatusKey id) ⟨.str "idle", none⟩).erase (sandboxJobKey id)).live
  refine alike_iff.2 ⟨rfl, live_of_sweep_eq hend⟩

/-! ## The theorem -/

theorem alike_handle (ts : Nat) (args : List String) (word : Word) :
    Alike now w (handle ts args word) ↔ Harmless now w.store word args := by
  cases word
  case auth | config | keys | get | set | getbit | bitcount | bfget | jobStatus | jobList | sandboxStatus
      | sandboxRegister | sandboxClaim | tsList =>
    exact iff_of_true (alike_aware (aware_handle ts args (by decide))) trivial
  -- a wrong number of arguments is answered before the store is looked at
  case del => match args with
    | [key] => exact alike_del key
    | [] | _ :: _ :: _ => exact iff_of_true (alike_ret _) trivial
  case pttl => match args with
    | [key] => exact alike_pttl key
    | [] | _ :: _ :: _ => exact iff_of_true (alike_ret _) trivial
  case pexpire => match args with
    | [key, ms] => exact alike_pexpire key ms
    | [] | [_] | _ :: _ :: _ :: _ => exact iff_of_true (alike_ret _) trivial
  case zadd => match args with
    | [key, score, name] => exact alike_zadd key score name
    | [] | [_] | [_, _] | _ :: _ :: _ :: _ :: _ => exact iff_of_true (alike_ret _) trivial
  case zrem => match args with
    | [key, name] => exact alike_zrem key name
    | [] | [_] | _ :: _ :: _ :: _ => exact iff_of_true (alike_ret _) trivial
  case zscore => match args with
    | [key, name] => exact alike_zscore key name
    | [] | [_] | _ :: _ :: _ :: _ => exact iff_of_true (alike_ret _) trivial
  case zquery => match args with
    | [key, score, minName, offset, limit] => exact alike_zquery key score minName offset limit
    | [] | [_] | [_, _] | [_, _, _] | [_, _, _, _] | _ :: _ :: _ :: _ :: _ :: _ :: _ =>
      exact iff_of_true (alike_ret _) trivial
  case lpush | rpush => match args with
    | [key, val] => exact alike_lpush key val
    | [] | [_] | _ :: _ :: _ :: _ => exact iff_of_true (alike_ret _) trivial
  case lpop => match args with
    | [key] => exact alike_lpop key
    | [] | _ :: _ :: _ => exact iff_of_true (alike_ret _) trivial
  case rpop => match args with
    | [key] => exact alike_rpop key
    | [] | _ :: _ :: _ => exact iff_of_true (alike_ret _) trivial
  case lrange => match args with
    | [key, start, stop] => exact alike_lrange key start stop
    | [] | [_] | [_, _] | _ :: _ :: _ :: _ :: _ => exact iff_of_true (alike_ret _) trivial
  case lindex => match args with
    | [key, idx] => exact alike_lindex key idx
    | [] | [_] | _ :: _ :: _ :: _ => exact iff_of_true (alike_ret _) trivial
  case llen => match args with
    | [key] => exact alike_llen key
    | [] | _ :: _ :: _ => exact iff_of_true (alike_ret _) trivial
  case lrem => match args with
    | [key, count, val] => exact alike_lrem key count val
    | [] | [_] | [_, _] | _ :: _ :: _ :: _ :: _ => exact iff_of_true (alike_ret _) trivial
  case setbit | clearbit => match args with
    | [key, bit] => exact alike_parsed_const fun b => alike_setBit key b _
    | [] | [_] | _ :: _ :: _ :: _ => exact iff_of_true (alike_ret _) trivial
  case bfset => match args with
    | [key, offset, width, val] => exact alike_bfset key offset width val
    | [] | [_] | [_, _] | [_, _, _] | _ :: _ :: _ :: _ :: _ :: _ =>
      exact iff_of_true (alike_ret _) trivial
  case jobSubmit => match args with
    | id :: name :: target :: command :: jobArgs => exact alike_jobSubmit id name target command jobArgs
    | [] | [_] | [_, _] | [_, _, _] => exact iff_of_true (alike_ret _) trivial
  case jobNext => exact alike_jobNext
  case jobResult => match args with
    | [id, exitCode, durationMs] => exact alike_jobResult id exitCode durationMs
    | [] | [_] | [_, _] | _ :: _ :: _ :: _ :: _ => exact iff_of_true (alike_ret _) trivial
  case jobLog => match args with
    | id :: line :: more => exact alike_jobLog id line more
    | [] | [_] => exact iff_of_true (alike_ret _) trivial
  case metricRecord => match args with
    | name :: value :: labels => exact alike_metricRecord ts name value labels
    | [] | [_] => exact iff_of_true (alike_ret _) trivial
  case metricQuery => match args with
    | name :: more => exact alike_metricQuery name more
    | [] => exact iff_of_true (alike_ret _) trivial
  case metricSummary => exact alike_metricSummary args
  case sandboxRelease => match args with
    | [id] => exact iff_of_true (alike_sandboxRelease id) trivial
    | [] | _ :: _ :: _ => exact iff_of_true (alike_ret _) trivial
  case tsAdd => match args with
    | name :: t :: val :: labelArgs => exact alike_tsAdd name t val labelArgs
    | [] | [_] | [_, _] => exact iff_of_true (alike_ret _) trivial
  case tsRange => match args with
    | name :: start :: stop :: more => exact alike_tsRange name start stop more
    | [] | [_] | [_, _] => exact iff_of_true (alike_ret _) trivial
  case tsInfo => match args with
    | [name] => exact alike_tsInfo name
    | [] | _ :: _ :: _ => exact iff_of_true (alike_ret _) trivial

/-- The dead entries a request may meet without showing them. -/
def HarmlessRequest (now : Nat) (s : Data F) : List String → Prop
  | [] => True
  | word :: args =>
    match Word.ofString (toLowercase word) with
    | some word => Harmless now s word args
    | none => True

/-- **When the sweeper's timing does not show.** A request answers the same and leaves the same
    unexpired entries before and after a sweep exactly when it meets harmless dead entries only. -/
theorem runDispatch_sweep_iff (now ts : Nat) (args : List String) (w : World F) :
    SameOutcome now (runDispatch now ts args w) (runDispatch now ts args (w.swept now)) ↔
      HarmlessRequest now w.store args := by
  change Alike now w (respond ts args) ↔ _
  cases args with
  | nil => exact iff_of_true (alike_ret _) trivial
  | cons word args =>
    cases hw : Word.ofString (toLowercase word) with
    | none => simpa [respond, HarmlessRequest, hw] using alike_ret _
    | some word' => simpa [respond, HarmlessRequest, hw] using alike_handle ts args word'

/-- `LPUSH l x` on a list that expired at time 5, at time 10: the write vanishes with the next sweep. -/
theorem dead_list_swallows_push :
    ¬ ∀ (now ts : Nat) (args : List String) (w : World Float),
      SameOutcome now (runDispatch now ts args w) (runDispatch now ts args (w.swept now)) := by
  intro h
  let w : World Float := ⟨(∅ : Data Float).insert "l" ⟨.list ["a"], some 5⟩, {}⟩
  have hr : (respond 0 ["LPUSH", "l", "x"] : Cmd Float Response) = lpushCmd ["l", "x"] := by
    simp [respond, handle, show Word.ofString (toLowercase "LPUSH") = some .lpush by decide]
  have ha : Alike 10 w (respond 0 ["LPUSH", "l", "x"]) := h 10 0 ["LPUSH", "l", "x"] w
  rw [hr] at ha
  have hd : deadVal 10 w.store "l" = none := (alike_lpush "l" "x").1 ha
  have hd' : deadVal 10 w.store "l" = some (.list ["a"]) := rfl
  simp [hd'] at hd

end RedisOps.Handler
