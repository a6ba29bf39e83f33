import RedisOps.Handler.Dispatch
import RedisOps.Store.Expiry

/-!
# One command before and after a sweep

`Alike now w p` says that the command `p` cannot tell the state `w` from `w` after a sweep: it answers
the same bytes and leaves the same unexpired entries. Three rules decide it:

* `alike_of_all` — no operation looks blindly at a key with a dead entry;
* `alike_blind` — one blind operation: look at what it makes of the dead value;
* `alike_creates` — a command that makes a new entry where it finds none tells whenever there is a dead
  one, since that swallows what is written.
-/

namespace RedisOps.Handler

open Lib Store Proto

variable {F : Type} {now : Nat}

/-- The entry a key has once expired entries are left out. -/
def live (now : Nat) (s : Data F) (key : String) : Option (Store.Entry F) :=
  (s.lookup key).filter fun e => !e.expired now

/-- The same answer, and the same unexpired entries afterwards. -/
def SameOutcome (now : Nat) (x y : Option Bytes × World F) : Prop :=
  x.1 = y.1 ∧ ∀ key, live now x.2.store key = live now y.2.store key

/-! ## Dead entries -/

/-- `key` holds no dead entry. -/
def NoDead (now : Nat) (s : Data F) (key : String) : Prop := deadVal now s key = none

/-- If `key` holds a dead entry, its value satisfies `p`. -/
def DeadOnly (now : Nat) (s : Data F) (key : String) (p : Value F → Prop) : Prop :=
  ∀ v, deadVal now s key = some v → p v

/-- A list satisfies `p`; other values are as good as absent to a list reader. -/
def ListLike (p : List String → Prop) : Value F → Prop
  | .list l => p l
  | _ => True

/-- A sorted set that satisfies `p`. -/
def ZSetLike (p : Zset.ZSet F → Prop) : Value F → Prop
  | .zset z => p z
  | _ => False

/-- A list of length zero, as `llen` counts. -/
def EmptyList : Value F → Prop
  | .list l => Int64.ofNat l.length = 0
  | _ => False

variable [F64 F]

/-! ## Programs side by side -/

/-- The command cannot tell `w` from `w` after a sweep. -/
def Alike (now : Nat) (w : World F) (p : Cmd F Response) : Prop :=
  SameOutcome now ((Response.encode <$> p).run (exec now) w)
    ((Response.encode <$> p).run (exec now) (w.swept now))

variable {w : World F}

theorem alike_iff {p : Cmd F Response} : Alike now w p ↔
    ((p.run (exec now) w).1.map Response.encode =
        (p.run (exec now) (w.swept now)).1.map Response.encode ∧
      ∀ key, live now (p.run (exec now) w).2.store key =
        live now (p.run (exec now) (w.swept now)).2.store key) := by
  simp only [Alike, SameOutcome, Prog.run_map]

omit [F64 F] in
theorem live_of_sweep_eq {s t : Data F} (h : sweep now s = sweep now t) (key : String) :
    live now s key = live now t key := by
  rw [live, live, ← lookup_sweep, ← lookup_sweep, h]

/-- A command without a dead blind key cannot tell. -/
theorem alike_of_all {p : Cmd F Response}
    (hp : p.All (fun o => ∀ k, blindKey o = some k → NoDead now w.store k) fun _ => True) :
    Alike now w p := by
  obtain ⟨hr, ht⟩ := Prog.run_rel (fun o s t ho hst => twins_step o ho hst) hp (twins_swept now w)
  exact alike_iff.2 ⟨by rw [hr], live_of_sweep_eq ht.live⟩

theorem alike_ret (r : Response) : Alike now w (.ret r) := alike_of_all trivial

theorem alike_parsed {α : Type} {arg : Option α} {msg : String} {k : α → Cmd F Response} :
    Alike now w (parsed arg msg k) ↔ ∀ v, arg = some v → Alike now w (k v) := by
  cases arg with
  | none => simpa [parsed] using alike_ret _
  | some v => simp [parsed]

theorem alike_parsed_const {α : Type} {arg : Option α} {msg : String} {k : α → Cmd F Response}
    {Q : Prop} (h : ∀ v, Alike now w (k v) ↔ Q) : Alike now w (parsed arg msg k) ↔ (arg.isSome → Q) := by
  rw [alike_parsed]
  cases arg with
  | none => simp
  | some v => simp [h v]

/-! ## One blind operation -/

omit [F64 F] in
theorem live_sweep (s : Data F) (key : String) : live now (sweep now s) key = live now s key :=
  live_of_sweep_eq (sweep_sweep s) key

omit [F64 F] in
theorem noDead_iff (s : Data F) (key : String) : NoDead now s key ↔ DeadOnly now s key fun _ => False := by
  simp only [NoDead, DeadOnly, Option.eq_none_iff_forall_ne_some, ne_eq]

omit [F64 F] in
/-- What is written into a dead entry does not show. -/
theorem live_insert_dead {s : Data F} {key : String} {v v' : Value F} {t : Nat}
    (hl : s.lookup key = some ⟨v, some t⟩) (ht : t ≤ now) (k : String) :
    live now (s.insert key ⟨v', some t⟩) k = live now s k := by
  by_cases hk : k = key
  · subst hk; simp [live, hl, Option.filter_some, Entry.expired, ht]
  · simp [live, AList.lookup_insert_ne hk]

/-- A command of one blind operation can only tell by a dead entry at its key. -/
theorem alike_blind {o : Op F} {k : o.Ret → Cmd F Response} {key : String} {p : Value F → Prop}
    (hkey : blindKey o = some key) (hk : ∀ r, ∃ a, k r = .ret a)
    (h : ∀ v t, w.store.lookup key = some ⟨v, some t⟩ → t ≤ now → (sweep now w.store).lookup key = none →
      (Alike now w (.op o k) ↔ p v)) :
    Alike now w (.op o k) ↔ DeadOnly now w.store key p := by
  obtain ⟨hd, -⟩ | ⟨v, t, hl, ht, hd, hs⟩ := dead_cases now w.store key
  · simp only [DeadOnly, hd, reduceCtorEq, false_implies, implies_true, iff_true]
    refine alike_of_all ⟨fun k' hk' => ?_, fun r => ?_⟩
    · rw [hkey] at hk'
      cases hk'
      exact hd
    · obtain ⟨a, ha⟩ := hk r
      rw [ha]
      trivial
  · simpa [DeadOnly, hd] using h v t hl ht hs

/-! ## Programs of any length -/

theorem alike_aware {p : Cmd F Response} (hp : p.All (fun o => blindKey o = none) fun _ => True) :
    Alike now w p :=
  alike_of_all (hp.mono (fun o ho k hk => by simp [ho] at hk) fun _ _ => trivial)

/-! ## Lost writes -/

/-- A dead entry that no operation renews is still dead at the end. -/
theorem live_run_dead {p : Cmd F Response} {key : String}
    (hp : p.All (fun o => renewKey o ≠ some key) fun _ => True) {v : Value F} {t : Nat}
    (hl : w.store.lookup key = some ⟨v, some t⟩) (ht : t ≤ now) :
    live now (p.run (exec now) w).2.store key = none := by
  have hstep : ∀ (o : Op F) (w : World F) (r : o.Ret) (w' : World F), renewKey o ≠ some key →
      (∃ v, w.store.lookup key = some ⟨v, some t⟩) → exec now o w = some (r, w') →
      ∃ v, w'.store.lookup key = some ⟨v, some t⟩ :=
    fun o w r w' ho ⟨v, hv⟩ hx => exec_keeps_dead hx ho hv
  obtain ⟨⟨v', hv'⟩, -⟩ := Prog.run_inv hstep hp ⟨v, hl⟩
  simp [live, hv', Option.filter_some, Entry.expired, ht]

/-- A command that makes a new entry where it finds none can tell a dead one: it swallows what is
    written. -/
theorem noDead_of_creates {p : Cmd F Response} {key : String} (h : Alike now w p)
    (hr : p.All (fun o => renewKey o ≠ some key) fun _ => True)
    (hc : ∀ w : World F, w.store.lookup key = none →
      live now (p.run (exec now) w).2.store key ≠ none) : NoDead now w.store key := by
  obtain ⟨hd, -⟩ | ⟨v, t, hl, ht, -, hs⟩ := dead_cases now w.store key
  · exact hd
  · apply absurd ((alike_iff.1 h).2 key)
    rw [live_run_dead hr hl ht]
    exact (hc (w.swept now) hs).symm

theorem alike_creates {p : Cmd F Response} {key : String}
    (hb : p.All (fun o => ∀ k, blindKey o = some k → k = key) fun _ => True)
    (hr : p.All (fun o => renewKey o ≠ some key) fun _ => True)
    (hc : ∀ w : World F, w.store.lookup key = none →
      live now (p.run (exec now) w).2.store key ≠ none) :
    Alike now w p ↔ NoDead now w.store key :=
  ⟨fun h => noDead_of_creates h hr hc,
    fun h => alike_of_all (hb.mono (fun _ ho k hk => ho k hk ▸ h) fun _ _ => trivial)⟩

omit [F64 F] in
@[simp] theorem live_insertNew (s : Data F) (key : String) (v : Value F) :
    live now (insertNew s key v) key = some ⟨v, none⟩ := by
  simp [live, insertNew, Option.filter_some, Entry.expired]

omit [F64 F] in
theorem live_insertNew_ne {s : Data F} {key key' : String} (h : key' ≠ key) (v : Value F) :
    live now (insertNew s key v) key' = live now s key' := by
  simp [live, lookup_insertNew_ne h]

omit [F64 F] in
theorem live_setTyp_ne {s : Data F} {key key' : String} (h : key' ≠ key) (e : Store.Entry F)
    (v : Value F) : live now (setTyp s key e v) key' = live now s key' := by
  simp [live, setTyp, AList.lookup_insert_ne h]

end RedisOps.Handler
