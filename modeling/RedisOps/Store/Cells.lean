import Mathlib
import RedisOps.Store.Expiry

/-!
# What an operation looks at

Every operation of the store but `keys` is about one entry: what it answers hangs on that entry and on nothing else, and it
changes no other. So two states that agree on some entries still do after an operation on one of these, with the same
answer (`exec_agree`), and after an operation on any other entry in one of the two (`exec_apart`).

`keys` lists the map in the order it has, so it is in step where the whole map is.
-/

namespace RedisOps.Store

open Lib Zset

/-- A part of the shared state. -/
inductive Cell where
  | entry (key : String)
  | auth
  deriving DecidableEq

variable {F : Type}

/-- The entry an operation is about. -/
def Op.entry? : Op F → Option String
  | .getStr key | .setStr key _ | .del key | .expire key _ | .ttlMs key | .zAdd key _ _ | .zRem key _ | .zScore key _
  | .zQuery key _ _ _ _ | .lpush key _ | .rpop key | .lpop key | .lrange key _ _ | .lindex key _ | .llen key
  | .lrem key _ _ | .setBit key _ _ | .getBit key _ | .bitcount key | .bitfieldGet key _ _ => some key
  | _ => none

/-- The cells an operation reads or writes. -/
def Op.cells (o : Op F) : Set Cell :=
  match o with
  | .keys => {c | ∃ key, c = .entry key}
  | .readAuth | .setTlsCert _ | .setTlsKey _ => {.auth}
  | o => {c | ∃ key, o.entry? = some key ∧ c = .entry key}

/-- The two states are the same in the cells `K`. -/
structure Agree (K : Set Cell) (w v : World F) : Prop where
  entry : ∀ key, .entry key ∈ K → w.store.lookup key = v.store.lookup key
  store : (∀ key, Cell.entry key ∈ K) → w.store = v.store
  auth : .auth ∈ K → w.auth = v.auth

theorem Agree.refl (K : Set Cell) (w : World F) : Agree K w w := ⟨fun _ _ => rfl, fun _ => rfl, fun _ => rfl⟩

theorem Agree.sweep {K : Set Cell} {w v : World F} (h : Agree K w v) (now : Nat) :
    Agree K (w.swept now) (v.swept now) := by
  refine ⟨?_, ?_, h.auth⟩
  · intro key hkey
    change (Store.sweep now w.store).lookup key = (Store.sweep now v.store).lookup key
    rw [lookup_sweep, lookup_sweep, h.entry key hkey]
  · intro hall
    change Store.sweep now w.store = Store.sweep now v.store
    rw [h.store hall]

variable [Score F]

/-- An operation on one entry: the answer, and what becomes of the entry, hang on the entry. -/
def Local (now : Nat) (o : Op F) (key : String) : Prop :=
  ∀ w v : World F, w.store.lookup key = v.store.lookup key →
    (exec now o w = none ∧ exec now o v = none) ∨
      ∃ r w' v', exec now o w = some (r, w') ∧ exec now o v = some (r, v') ∧
        w'.store.lookup key = v'.store.lookup key ∧ w'.auth = w.auth ∧ v'.auth = v.auth

/-- Enough for an operation that always has an answer. -/
theorem local_of_eq {now : Nat} {o : Op F} {key : String} (f : Data F → o.Ret × Data F)
    (hexec : ∀ w, exec now o w = some ((f w.store).1, { w with store := (f w.store).2 }))
    (hf : ∀ s t : Data F, s.lookup key = t.lookup key →
      (f s).1 = (f t).1 ∧ (f s).2.lookup key = (f t).2.lookup key) : Local now o key := by
  intro w v h
  obtain ⟨hanswer, hentry⟩ := hf _ _ h
  exact .inr ⟨(f v.store).1, { w with store := (f w.store).2 }, { v with store := (f v.store).2 }, by rw [hexec w, hanswer],
    hexec v, hentry, rfl, rfl⟩

/-- An operation that only reads. -/
theorem local_of_read {now : Nat} {o : Op F} {key : String} (f : Data F → o.Ret)
    (hexec : ∀ w, exec now o w = some (f w.store, w))
    (hf : ∀ s t : Data F, s.lookup key = t.lookup key → f s = f t) : Local now o key :=
  local_of_eq (fun s => (f s, s)) hexec fun s t h => ⟨hf s t h, h⟩

theorem local_of_entry {now : Nat} {o : Op F} {key : String} (ho : o.entry? = some key) : Local now o key := by
  cases o <;> cases ho
  case getStr => exact local_of_read (getStr now · key) (fun _ => rfl) fun s t h => by simp only [getStr, h]
  case ttlMs => exact local_of_read (ttlMs now · key) (fun _ => rfl) fun s t h => by simp only [ttlMs, h]
  case zScore name => exact local_of_read (zScore · key name) (fun _ => rfl) fun s t h => by simp only [zScore, h]
  case zQuery minScore minName offset limit =>
    exact local_of_read (zQuery · key minScore minName offset limit) (fun _ => rfl) fun s t h => by simp only [zQuery, h]
  case lindex idx => exact local_of_read (lindex · key idx) (fun _ => rfl) fun s t h => by simp only [lindex, h]
  case llen => exact local_of_read (llen · key) (fun _ => rfl) fun s t h => by simp only [llen, h]
  case getBit bit =>
    exact local_of_read (getBit now · key bit) (fun _ => rfl) fun s t h => by simp only [getBit, bitsOf, h]
  case bitcount => exact local_of_read (bitcount now · key) (fun _ => rfl) fun s t h => by simp only [bitcount, bitsOf, h]
  case bitfieldGet offset width =>
    exact local_of_read (bitfieldGet now · key offset width) (fun _ => rfl) fun s t h => by
      simp only [bitfieldGet, bitsOf, h]
  case lrange start stop =>
    intro w v h
    have heq : lrange w.store key start stop = lrange v.store key start stop := by simp only [lrange, h]
    cases hr : lrange v.store key start stop with
    | none => exact .inl ⟨by simp [exec, heq, hr], by simp [exec, hr]⟩
    | some vals => exact .inr ⟨vals, w, v, by simp [exec, heq, hr], by simp [exec, hr], h, rfl, rfl⟩
  -- these write: the entry is absent, or of one of the four types
  case setStr val =>
    exact local_of_eq (fun s => ((), setStr s key val)) (fun _ => rfl) fun s t h => by simp [setStr, insertNew]
  case del => exact local_of_eq (del · key) (fun _ => rfl) fun s t h => by simp [del, h]
  case expire ms =>
    refine local_of_eq (expire now · key ms) (fun _ => rfl) fun s t h => ?_
    simp only [expire, h]
    cases hl : t.lookup key <;> simp [h, hl]
  case zAdd name score =>
    refine local_of_eq (zAdd · key name score) (fun _ => rfl) fun s t h => ?_
    simp only [zAdd, h]
    rcases hl : t.lookup key with _ | ⟨_ | _ | _ | _, exp⟩ <;> simp [setTyp, insertNew, h, hl]
  case zRem name =>
    refine local_of_eq (zRem · key name) (fun _ => rfl) fun s t h => ?_
    simp only [zRem, h]
    rcases hl : t.lookup key with _ | ⟨_ | _ | _ | _, exp⟩ <;> simp [setTyp, h, hl]
  case lpush val =>
    refine local_of_eq (fun s => ((), lpush s key val)) (fun _ => rfl) fun s t h => ?_
    simp only [lpush, h]
    rcases hl : t.lookup key with _ | ⟨_ | _ | _ | _, exp⟩ <;> simp [setTyp, insertNew, h, hl]
  case rpop =>
    refine local_of_eq (rpop · key) (fun _ => rfl) fun s t h => ?_
    simp only [rpop, h]
    rcases hl : t.lookup key with _ | ⟨_ | _ | _ | l, exp⟩
    case some.list => cases hlast : l.getLast? <;> simp [setTyp, hlast, h, hl]
    all_goals simp [h, hl]
  case lpop =>
    refine local_of_eq (lpop · key) (fun _ => rfl) fun s t h => ?_
    simp only [lpop, h]
    rcases hl : t.lookup key with _ | ⟨_ | _ | _ | _ | ⟨head, tail⟩, exp⟩ <;> simp [setTyp, h, hl]
  case lrem count val =>
    refine local_of_eq (lrem · key count val) (fun _ => rfl) fun s t h => ?_
    simp only [lrem, h]
    rcases hl : t.lookup key with _ | ⟨_ | _ | _ | _, exp⟩ <;> simp [setTyp, h, hl]
  case setBit bit on =>
    refine local_of_eq (fun s => ((), setBit s key bit on)) (fun _ => rfl) fun s t h => ?_
    simp only [setBit, h]
    rcases hl : t.lookup key with _ | ⟨_ | _ | _ | _, exp⟩ <;> simp [setTyp, insertNew, h, hl]

/-! ## Agreeing states -/

omit [Score F] in
theorem mem_cells_of_entry {o : Op F} {key : String} (ho : o.entry? = some key) : Cell.entry key ∈ o.cells := by
  cases o <;> cases ho <;> exact ⟨_, rfl, rfl⟩

omit [Score F] in
/-- The entry an operation writes is the one it is about. -/
theorem entry?_of_writeKey {o : Op F} {key : String} (h : writeKey o = some key) : o.entry? = some key := by
  cases o <;> cases h <;> rfl

/-- The rest of the world is of no matter to an operation on an entry. -/
theorem exec_of_entry {now : Nat} {o : Op F} {key : String} (ho : o.entry? = some key) {w v w' v' : World F}
    {r r' : o.Ret} (hw : exec now o w = some (r, w')) (hv : exec now o v = some (r', v')) (h : w.store = v.store) :
    w'.store = v'.store := by
  obtain ⟨s, auth⟩ := w
  obtain ⟨t, auth'⟩ := v
  simp only at h
  subst h
  cases o <;> cases ho
  case lrange =>
    obtain ⟨vals, hvals, hpair⟩ := Option.map_eq_some_iff.1 hw
    obtain ⟨vals', hvals', hpair'⟩ := Option.map_eq_some_iff.1 hv
    cases hpair
    cases hpair'
    rfl
  all_goals
    cases hw
    cases hv
    rfl

variable {K : Set Cell} {now : Nat} {o : Op F} {w v w' : World F}

/-- **Inside.** An operation on cells of `K`, in two states that agree there. -/
theorem exec_agree (ho : o.cells ⊆ K) (h : Agree K w v) :
    (exec now o w = none ∧ exec now o v = none) ∨
      ∃ r w' v', exec now o w = some (r, w') ∧ exec now o v = some (r, v') ∧ Agree K w' v' := by
  cases he : o.entry? with
  | none =>
    cases o with
    | keys =>
      have hall : ∀ key, Cell.entry key ∈ K := fun key => ho ⟨key, rfl⟩
      exact .inr ⟨_, w, v, rfl, by simp only [exec, h.store hall], h⟩
    | readAuth => exact .inr ⟨_, w, v, rfl, by simp only [exec, h.auth (ho rfl)], h⟩
    | setTlsCert | setTlsKey =>
      exact .inr ⟨_, _, _, rfl, rfl, h.entry, h.store, fun hauth => by simp only [h.auth hauth]⟩
    | _ => cases he
  | some key =>
    have hkey := ho (mem_cells_of_entry he)
    obtain hnone | ⟨r, w', v', hw, hv, hentry, hauth, hauth'⟩ := local_of_entry he w v (h.entry key hkey)
    · exact .inl hnone
    · refine .inr ⟨r, w', v', hw, hv, ?_, fun hall => exec_of_entry he hw hv (h.store hall), ?_⟩
      · intro key' hkey'
        by_cases hne : key' = key
        · rw [hne, hentry]
        · have hwrite : writeKey o ≠ some key' := fun hk => hne (Option.some.inj ((entry?_of_writeKey hk).symm.trans he))
          rw [exec_frame hw hwrite, exec_frame hv hwrite, h.entry key' hkey']
      · intro hK
        rw [hauth, hauth', h.auth hK]

/-- **Outside.** An operation on other cells, in one of them. -/
theorem exec_apart (ho : Disjoint o.cells K) (h : Agree K w v) {r : o.Ret} (hex : exec now o w = some (r, w')) :
    Agree K w' v := by
  have hout : ∀ cell ∈ o.cells, cell ∉ K := fun cell hcell hK => Set.disjoint_left.1 ho hcell hK
  cases he : o.entry? with
  | none =>
    cases o with
    | keys | readAuth =>
      cases hex
      exact h
    | setTlsCert | setTlsKey =>
      cases hex
      exact ⟨h.entry, h.store, fun hauth => absurd hauth (hout .auth rfl)⟩
    | _ => cases he
  | some key =>
    have hkey := hout _ (mem_cells_of_entry he)
    refine ⟨?_, fun hall => absurd (hall key) hkey, ?_⟩
    · intro key' hkey'
      have hwrite : writeKey o ≠ some key' := by
        intro hk
        rw [entry?_of_writeKey hk, Option.some.injEq] at he
        exact hkey (he ▸ hkey')
      rw [exec_frame hex hwrite, h.entry key' hkey']
    · intro hK
      obtain ⟨hnone, -⟩ | ⟨r', w'', -, hw, -, -, hauth, -⟩ := local_of_entry he w w rfl
      · rw [hnone] at hex
        cases hex
      · rw [hw, Option.some.injEq, Prod.mk.injEq] at hex
        obtain ⟨-, rfl⟩ := hex
        rw [hauth, h.auth hK]

end RedisOps.Store
