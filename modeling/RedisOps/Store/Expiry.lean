import RedisOps.Store.Op

/-!
# The sweeper and the operations

An expired entry stays in the map until the next tick of the sweeper. `sweep` is that tick; `Twins` says
that two states differ by nothing but entries the sweeper would remove, and agree outright on the keys in
`K`. An operation that looks a key up without testing its expiry (`blindKey`) keeps twins in step when
its key is in `K`; the others always do (`twins_step`).
-/

namespace RedisOps.Store

open Lib Zset

variable {F : Type} {now : Nat}

/-! ## Entries after a sweep -/

theorem dlookup_filter {α : Type} [DecidableEq α] {β : α → Type} (p : (a : α) → β a → Bool) (k : α) :
    ∀ {l : List (Sigma β)}, l.NodupKeys →
      (l.filter fun x => p x.1 x.2).dlookup k = (l.dlookup k).filter (p k)
  | [], _ => rfl
  | ⟨k', v⟩ :: l, hnd => by
    obtain ⟨hk, hl⟩ := List.nodupKeys_cons.1 hnd
    have ih := dlookup_filter p k hl
    by_cases hkk : k = k'
    · subst hkk
      -- the key does not occur again in the rest
      have hno : l.dlookup k = none := List.dlookup_eq_none.2 hk
      cases hp : p k v <;> simp [hp, ih, hno, Option.filter_some]
    · have hne : k ≠ (⟨k', v⟩ : Sigma β).1 := hkk
      rw [List.dlookup_cons_ne _ ⟨k', v⟩ hne, ← ih]
      cases hp : p k' v <;> simp [hp, List.dlookup_cons_ne _ ⟨k', v⟩ hne]

theorem lookup_retain (p : Entry F → Bool) (s : Data F) (k : String) :
    (retain p s).lookup k = (s.lookup k).filter p :=
  dlookup_filter (fun _ e => p e) k s.nodupKeys

theorem lookup_sweep (s : Data F) (k : String) :
    (sweep now s).lookup k = (s.lookup k).filter fun e => !e.expired now :=
  lookup_retain _ s k

theorem kerase_filter {α : Type} [DecidableEq α] {β : α → Type} (p : Sigma β → Bool) (k : α) :
    ∀ {l : List (Sigma β)}, l.NodupKeys → (l.kerase k).filter p = (l.filter p).kerase k
  | [], _ => rfl
  | ⟨k', v⟩ :: l, hnd => by
    obtain ⟨hk, hl⟩ := List.nodupKeys_cons.1 hnd
    have ih := kerase_filter p k hl
    by_cases hkk : k = k'
    · subst hkk
      have hno : k ∉ (l.filter p).keys := fun hm => hk ((List.filter_sublist.map _).subset hm)
      cases hp : p ⟨k, v⟩ <;> simp [hp, List.kerase_of_notMem_keys hno]
    · cases hp : p ⟨k', v⟩ <;> simp [hp, List.kerase_cons_ne (s := ⟨k', v⟩) hkk, ih]

theorem sweep_erase (s : Data F) (k : String) : sweep now (s.erase k) = (sweep now s).erase k :=
  AList.ext (kerase_filter _ k s.nodupKeys)

/-- What a sweep leaves of a written entry depends on the entry and on what it leaves of the rest. -/
theorem sweep_insert_congr {s t : Data F} (h : sweep now s = sweep now t) (k : String) (e : Entry F) :
    sweep now (s.insert k e) = sweep now (t.insert k e) := by
  have hs : sweep now (s.erase k) = sweep now (t.erase k) := by rw [sweep_erase, h, ← sweep_erase]
  have he : (List.kerase k s.entries).filter (fun x => !x.2.expired now) =
      (List.kerase k t.entries).filter (fun x => !x.2.expired now) := congrArg AList.entries hs
  apply AList.ext
  simp only [sweep, retain, AList.entries_insert, List.filter_cons, he]

theorem sweep_sweep (s : Data F) : sweep now (sweep now s) = sweep now s :=
  AList.ext (by simp [sweep, retain])

theorem keys_sweep (s : Data F) : keys now s = (sweep now s).entries.map fun x => x.1 := rfl

/-- Whoever tests expiry sees what the sweeper would leave. -/
theorem getStr_sweep (s : Data F) (key : String) : getStr now (sweep now s) key = getStr now s key := by
  unfold getStr
  rw [lookup_sweep]
  cases s.lookup key with
  | none => rfl
  | some e => cases hx : e.expired now <;> simp [Option.filter_some, hx]

theorem bitsOf_sweep (s : Data F) (key : String) : bitsOf now (sweep now s) key = bitsOf now s key := by
  unfold bitsOf
  rw [lookup_sweep]
  cases s.lookup key with
  | none => rfl
  | some e => cases hx : e.expired now <;> simp [Option.filter_some, hx]

/-! ## Dead entries -/

/-- The value of an entry that is there but has expired. -/
def deadVal (now : Nat) (s : Data F) (key : String) : Option (Value F) :=
  ((s.lookup key).filter fun e => e.expired now).map fun e => e.typ

/-- A key is either as the sweeper would leave it, or a dead entry the sweeper removes. -/
theorem dead_cases (now : Nat) (s : Data F) (key : String) :
    (deadVal now s key = none ∧ (sweep now s).lookup key = s.lookup key) ∨
      ∃ v t, s.lookup key = some ⟨v, some t⟩ ∧ t ≤ now ∧ deadVal now s key = some v ∧
        (sweep now s).lookup key = none := by
  rw [lookup_sweep, deadVal]
  cases s.lookup key with
  | none => simp
  | some e =>
    obtain ⟨v, _ | t⟩ := e
    · simp [Entry.expired]
    · by_cases ht : t ≤ now <;> simp [Entry.expired, ht]

theorem lookup_eq_of_alive {s : Data F} {key : String} (h : deadVal now s key = none) :
    (sweep now s).lookup key = s.lookup key := by
  obtain ⟨-, h'⟩ | ⟨v, t, -, -, hd, -⟩ := dead_cases now s key
  · exact h'
  · rw [h] at hd
    cases hd

/-! ## Twin states -/

/-- The same to everyone who tests expiry, and the same on `K` to everyone. -/
structure Twins (now : Nat) (K : String → Prop) (w w' : World F) : Prop where
  auth : w.auth = w'.auth
  live : sweep now w.store = sweep now w'.store
  same : ∀ k, K k → w.store.lookup k = w'.store.lookup k

/-- The state as the sweeper leaves it. -/
def World.swept (now : Nat) (w : World F) : World F := { w with store := sweep now w.store }

theorem twins_swept (now : Nat) (w : World F) :
    Twins now (fun k => deadVal now w.store k = none) w (w.swept now) :=
  ⟨rfl, (sweep_sweep w.store).symm, fun _ hk => (lookup_eq_of_alive hk).symm⟩

section Twins
variable {K : String → Prop} {w w' : World F}

theorem Twins.insert (h : Twins now K w w') (k : String) (e : Entry F) :
    Twins now K { w with store := w.store.insert k e } { w' with store := w'.store.insert k e } := by
  refine ⟨h.auth, sweep_insert_congr h.live k e, ?_⟩
  intro k' hk'
  by_cases hkk : k' = k
  · subst hkk; simp
  · simp [AList.lookup_insert_ne hkk, h.same k' hk']

theorem Twins.erase (h : Twins now K w w') (k : String) :
    Twins now K { w with store := w.store.erase k } { w' with store := w'.store.erase k } := by
  refine ⟨h.auth, by rw [sweep_erase, sweep_erase, h.live], ?_⟩
  intro k' hk'
  by_cases hkk : k' = k
  · subst hkk; simp
  · simp [AList.lookup_erase_ne hkk, h.same k' hk']

end Twins

/-- The key an operation looks up without testing expiry. -/
def blindKey : Op F → Option String
  | .del key | .expire key _ | .ttlMs key | .zAdd key _ _ | .zRem key _ | .zScore key _
  | .zQuery key _ _ _ _ | .lpush key _ | .rpop key | .lpop key | .lrange key _ _ | .lindex key _
  | .llen key | .lrem key _ _ | .setBit key _ _ => some key
  | _ => none

variable [Score F]

/-- **Step.** An operation whose blind key is in `K` answers twins alike and leaves twins. -/
theorem twins_step {K : String → Prop} {w w' : World F} (o : Op F) (ho : ∀ k, blindKey o = some k → K k)
    (h : Twins now K w w') :
    (exec now o w = none ∧ exec now o w' = none) ∨
      ∃ r v v', exec now o w = some (r, v) ∧ exec now o w' = some (r, v') ∧ Twins now K v v' := by
  have hkeys : keys now w.store = keys now w'.store := by rw [keys_sweep, keys_sweep, h.live]
  have hstr : ∀ key, getStr now w.store key = getStr now w'.store key := fun key => by
    rw [← getStr_sweep, ← getStr_sweep w'.store, h.live]
  have hbits : ∀ key, bitsOf now w.store key = bitsOf now w'.store key := fun key => by
    rw [← bitsOf_sweep, ← bitsOf_sweep w'.store, h.live]
  cases o
  case keys => exact .inr ⟨_, w, w', rfl, by simp [exec, hkeys], h⟩
  case getStr key => exact .inr ⟨_, w, w', rfl, by simp [exec, hstr], h⟩
  case setStr key val => exact .inr ⟨_, _, _, rfl, rfl, h.insert key _⟩
  case getBit key bit => exact .inr ⟨_, w, w', rfl, by simp [exec, getBit, hbits], h⟩
  case bitcount key => exact .inr ⟨_, w, w', rfl, by simp [exec, bitcount, hbits], h⟩
  case bitfieldGet key off width => exact .inr ⟨_, w, w', rfl, by simp [exec, bitfieldGet, hbits], h⟩
  case readAuth => exact .inr ⟨_, w, w', rfl, by simp [exec, h.auth], h⟩
  case setTlsCert val | setTlsKey val =>
    exact .inr ⟨_, _, _, rfl, rfl, ⟨by simp [h.auth], h.live, h.same⟩⟩
  -- the blind operations find the same entry
  case ttlMs key | zScore key _ | zQuery key _ _ _ _ | lindex key _ | llen key =>
    have hk := h.same key (ho key rfl)
    exact .inr ⟨_, w, w', rfl, by simp [exec, ttlMs, zScore, zQuery, lindex, llen, hk], h⟩
  case lrange key start stop =>
    have he : lrange w'.store key start stop = lrange w.store key start stop := by
      simp [lrange, h.same key (ho key rfl)]
    cases hr : lrange w.store key start stop with
    | none => exact .inl ⟨by simp [exec, hr], by simp [exec, he, hr]⟩
    | some r => exact .inr ⟨r, w, w', by simp [exec, hr], by simp [exec, he, hr], h⟩
  case del key =>
    exact .inr ⟨_, _, _, rfl, by simp [exec, del, h.same key (ho key rfl)], h.erase key⟩
  -- and write the same one
  case expire key _ | zAdd key _ _ | zRem key _ | lpush key _ | lrem key _ _ | setBit key _ _ =>
    have hk := h.same key (ho key rfl)
    cases hl : w.store.lookup key with
    | none =>
      rw [hl] at hk
      simp [exec, expire, zAdd, zRem, lpush, lrem, setBit, hl, ← hk, insertNew, h, h.insert]
    | some e =>
      rw [hl] at hk
      cases ht : e.typ <;>
        simp [exec, expire, zAdd, zRem, lpush, lrem, setBit, hl, ← hk, ht, setTyp, h, h.insert]
  case rpop key =>
    have hk := h.same key (ho key rfl)
    cases hl : w.store.lookup key with
    | none => rw [hl] at hk; simp [exec, rpop, hl, ← hk, h]
    | some e =>
      rw [hl] at hk
      cases ht : e.typ with
      | list l => cases hg : l.getLast? <;> simp [exec, rpop, hl, ← hk, ht, hg, setTyp, h, h.insert]
      | _ => simp [exec, rpop, hl, ← hk, ht, h]
  case lpop key =>
    have hk := h.same key (ho key rfl)
    cases hl : w.store.lookup key with
    | none => rw [hl] at hk; simp [exec, lpop, hl, ← hk, h]
    | some e =>
      rw [hl] at hk
      cases ht : e.typ with
      | list l => cases l <;> simp [exec, lpop, hl, ← hk, ht, setTyp, h, h.insert]
      | _ => simp [exec, lpop, hl, ← hk, ht, h]

/-! ## Lost writes -/

omit [Score F] in
/-- The key whose entry an operation replaces, removes or gives a new expiry. -/
def renewKey : Op F → Option String
  | .setStr key _ | .del key | .expire key _ => some key
  | _ => none

/-- Every other operation leaves a dead entry dead: what it writes there is lost. -/
theorem exec_keeps_dead {o : Op F} {w w' : World F} {r : o.Ret} {key : String} {v : Value F} {t : Nat}
    (h : exec now o w = some (r, w')) (ho : renewKey o ≠ some key)
    (hl : w.store.lookup key = some ⟨v, some t⟩) : ∃ v', w'.store.lookup key = some ⟨v', some t⟩ := by
  by_cases hw : writeKey o = some key
  · cases o <;> simp only [writeKey, Option.some.injEq, reduceCtorEq] at hw <;> subst hw <;>
      simp only [exec, Option.some.injEq, Prod.mk.injEq] at h
    case setStr | del | expire => exact absurd rfl ho
    all_goals
      obtain ⟨-, rfl⟩ := h
      simp only [zAdd, zRem, lpush, rpop, lpop, lrem, setBit, hl]
      repeat' split
      all_goals first | exact ⟨_, hl⟩ | exact ⟨_, AList.lookup_insert _⟩
  · exact ⟨v, by rw [exec_frame h hw, hl]⟩

end RedisOps.Store
