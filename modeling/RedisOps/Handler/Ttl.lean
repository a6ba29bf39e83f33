import RedisOps.Handler.Dispatch
import RedisOps.Store.Expiry
import RedisOps.Lib.Int64

/-!
# `PEXPIRE` and `PTTL`

`Store::expire` takes the duration as an `i64` and casts it to `u64` milliseconds (`store/mod.rs:117`). A negative one
becomes a deadline some `2^64` milliseconds away, where the key should have expired at once.

`Untouched` is what may happen to a key that nobody writes: time goes on, the other keys are written, and the sweeper
ticks. `pexpire_exact_iff` — after it `GET` and `PTTL` agree with the duration exactly when the cast is harmless.
-/

namespace RedisOps.Handler

open Lib Store Proto Zset

variable {F : Type} {key : String}

/-! ## A deadline -/

/-- The key's entry with its deadline, unless the sweeper has removed it after that. -/
def Due (key : String) (typ : Value F) (deadline now : Nat) (w : World F) : Prop :=
  w.store.lookup key = some ⟨typ, some deadline⟩ ∨ (w.store.lookup key = none ∧ deadline ≤ now)

section Due
variable {typ : Value F} {deadline now : Nat} {w : World F}

theorem Due.later (h : Due key typ deadline now w) {now' : Nat} (hnow : now ≤ now') : Due key typ deadline now' w := by
  rcases h with h | ⟨h, hle⟩
  · exact .inl h
  · exact .inr ⟨h, le_trans hle hnow⟩

theorem Due.swept (h : Due key typ deadline now w) : Due key typ deadline now (w.swept now) := by
  rw [Due, World.swept, lookup_sweep]
  rcases h with h | ⟨h, hle⟩
  · rw [h, Option.filter_some]
    by_cases hle : deadline ≤ now
    · exact .inr ⟨by simp [Entry.expired, hle], hle⟩
    · exact .inl (by simp [Entry.expired, hle])
  · rw [h]
    exact .inr ⟨rfl, hle⟩

/-- Before the deadline the entry is there. -/
theorem Due.lookup (h : Due key typ deadline now w) (hlt : now < deadline) :
    w.store.lookup key = some ⟨typ, some deadline⟩ := by
  rcases h with h | ⟨-, hle⟩
  · exact h
  · omega

theorem Due.getStr_before (h : Due key typ deadline now w) (hlt : now < deadline) {val : String} {t : Nat} {s : Data F}
    {exp : Option Nat} (hl : s.lookup key = some ⟨typ, exp⟩) (hstr : getStr t s key = (some val, false)) :
    getStr now w.store key = (some val, false) := by
  have hnow : ¬deadline ≤ now := by omega
  simp only [getStr, hl] at hstr
  split at hstr
  · cases hstr
  · simp only [getStr, h.lookup hlt, Entry.expired, hnow, decide_false, Bool.false_eq_true, if_false]
    exact hstr

theorem Due.getStr_after (h : Due key typ deadline now w) (hle : deadline ≤ now) :
    getStr now w.store key = (none, false) := by
  rcases h with h | ⟨h, -⟩
  · simp [getStr, h, Entry.expired, hle]
  · simp [getStr, h]

theorem Due.ttlMs_before (h : Due key typ deadline now w) (hlt : now < deadline) :
    ttlMs now w.store key = Int64.ofNat (deadline - now) := by
  simp only [ttlMs, h.lookup hlt]

end Due

theorem expire_due {s : Data F} {e : Store.Entry F} (h : s.lookup key = some e) (now : Nat) (ms : Int64) (auth : AuthConfig) :
    (expire now s key ms).1 = true ∧
      Due key e.typ (now + ms.toUInt64.toNat) now ⟨(expire now s key ms).2, auth⟩ := by
  simp only [expire, h, true_and]
  exact .inl (AList.lookup_insert _)

/-- A string that `GET` shows is in an entry. -/
theorem lookup_of_getStr {s : Data F} {now : Nat} {val : String} (h : getStr now s key = (some val, false)) :
    ∃ e, s.lookup key = some e := by
  cases he : s.lookup key with
  | none => simp [getStr, he] at h
  | some e => exact ⟨e, rfl⟩

/-! ## While nobody writes the key -/

variable [Score F]

/-- From the first time and state to the second, without a write to the key. -/
inductive Untouched (key : String) (t : Nat) (w : World F) : Nat → World F → Prop
  | start : Untouched key t w t w
  | wait {t₁ t₂ : Nat} {w₁ : World F} : Untouched key t w t₁ w₁ → t₁ ≤ t₂ → Untouched key t w t₂ w₁
  | op {t₁ : Nat} {w₁ w₂ : World F} {o : Op F} {r : o.Ret} :
      Untouched key t w t₁ w₁ → writeKey o ≠ some key → exec t₁ o w₁ = some (r, w₂) → Untouched key t w t₁ w₂
  | tick {t₁ : Nat} {w₁ : World F} : Untouched key t w t₁ w₁ → Untouched key t w t₁ (w₁.swept t₁)

/-- **Run.** The deadline stays. -/
theorem Untouched.due {t t' deadline : Nat} {typ : Value F} {w w' : World F} (h : Untouched key t w t' w')
    (hdue : Due key typ deadline t w) : Due key typ deadline t' w' := by
  induction h with
  | start => exact hdue
  | wait _ hle ih => exact ih.later hle
  | op _ ho hx ih => rwa [Due, exec_frame hx ho]
  | tick _ ih => exact ih.swept

/-! ## The commands -/

theorem run_get (now : Nat) (w : World F) {val : Option String} (h : getStr now w.store key = (val, false)) :
    (get [key]).run (exec now) w = (some (strOrNil val), w) := by
  simp [get, await_def, Prog.run, exec, h]

theorem run_pttl (now : Nat) (w : World F) : (pttl [key]).run (exec now) w = (some (.int (ttlMs now w.store key)), w) := rfl

/-- `GET` and `PTTL` after `d` milliseconds are those of a duration of `ms`. -/
def Elapsed (key val : String) (ms : Int) (t d : Nat) (w : World F) : Prop :=
  (ms ≤ d → (get [key]).run (exec (t + d)) w = (some .nil, w)) ∧
  (d < ms → (get [key]).run (exec (t + d)) w = (some (.str val), w) ∧
    ∃ ttl : Int64, (pttl [key]).run (exec (t + d)) w = (some (.int ttl), w) ∧ ttl.toInt = ms - d)

/-- What the commands answer before and after the deadline. -/
theorem elapsed_iff {val : String} {typ : Value F} {ms : Int64} {t d : Nat} {w : World F}
    (hdue : Due key typ (t + ms.toUInt64.toNat) (t + d) w)
    (hbefore : t + d < t + ms.toUInt64.toNat → getStr (t + d) w.store key = (some val, false)) :
    Elapsed key val ms.toInt t d w ↔ 0 ≤ ms.toInt ∨ 2 ^ 64 + ms.toInt ≤ d := by
  have hcast := toNat_toUInt64 ms
  have hrange : ms.toInt < 2 ^ 63 := ms.toInt_lt
  constructor
  · intro h
    by_contra hnot
    push Not at hnot
    rw [if_neg (by omega)] at hcast
    -- negative, and not yet at the deadline
    have hget := h.1 (by omega)
    rw [run_get _ _ (hbefore (by omega))] at hget
    cases hget
  · intro hcases
    refine ⟨?_, ?_⟩
    · intro hle
      have hpast : t + ms.toUInt64.toNat ≤ t + d := by
        split at hcast <;> omega
      rw [run_get _ _ (hdue.getStr_after hpast)]
      rfl
    · intro hlt
      rw [if_pos (by omega)] at hcast
      have hfuture : t + d < t + ms.toUInt64.toNat := by omega
      refine ⟨?_, _, run_pttl _ _, ?_⟩
      · rw [run_get _ _ (hbefore hfuture)]
        rfl
      · rw [hdue.ttlMs_before hfuture, Int64.toInt_ofNat_of_lt (by omega)]
        omega

/-- **When `PEXPIRE` is exact.** -/
theorem pexpire_exact_iff {text val : String} {ms : Int64} {t : Nat} {w : World F}
    (hstr : getStr t w.store key = (some val, false)) (hms : parseI64 text = some ms) (d : Nat) :
    (∃ w₁, (pexpire [key, text]).run (exec t) w = (some (.int 1), w₁) ∧
      ∀ w', Untouched key t w₁ (t + d) w' → Elapsed key val ms.toInt t d w') ↔
      0 ≤ ms.toInt ∨ 2 ^ 64 + ms.toInt ≤ d := by
  obtain ⟨e, he⟩ := lookup_of_getStr hstr
  obtain ⟨hok, hdue⟩ := expire_due he t ms w.auth
  have hrun : (pexpire [key, text]).run (exec t) w = (some (.int 1), ⟨(expire t w.store key ms).2, w.auth⟩) := by
    simp [pexpire, parsed, hms, await_def, Prog.run, exec, hok, flag]
  have helapsed : ∀ {w'}, Untouched key t ⟨(expire t w.store key ms).2, w.auth⟩ (t + d) w' →
      (Elapsed key val ms.toInt t d w' ↔ 0 ≤ ms.toInt ∨ 2 ^ 64 + ms.toInt ≤ d) := by
    intro w' hw'
    have hdue' := hw'.due hdue
    exact elapsed_iff hdue' fun hlt => hdue'.getStr_before hlt he hstr
  constructor
  · rintro ⟨w₁, hrun', hall⟩
    rw [hrun] at hrun'
    cases hrun'
    -- nothing else happens
    have hwait : ∀ w₁ : World F, Untouched key t w₁ (t + d) w₁ := fun w₁ => .wait .start (Nat.le_add_right t d)
    exact (helapsed (hwait _)).1 (hall _ (hwait _))
  · intro hcases
    exact ⟨_, hrun, fun w' hw' => (helapsed hw').2 hcases⟩

theorem pexpire_exact_iff_second : getStr 0 (setStr (∅ : Data ℚ) "k" "v") "k" = (some "v", false) ∧
    parseI64 "1000" = some 1000 ∧
    ∃ w₁, (pexpire ["k", "1000"]).run (exec 0) (⟨setStr ∅ "k" "v", {}⟩ : World ℚ) = (some (.int 1), w₁) ∧
      ∀ w', Untouched "k" 0 w₁ 400 w' → Elapsed "k" "v" 1000 0 400 w' := by
  have hstr : getStr 0 (setStr (∅ : Data ℚ) "k" "v") "k" = (some "v", false) := rfl
  have hms : parseI64 "1000" = some 1000 := by decide
  refine ⟨hstr, hms, ?_⟩
  exact (pexpire_exact_iff (w := ⟨setStr ∅ "k" "v", {}⟩) hstr hms 400).2 (.inl (by decide))

/-- `PEXPIRE k -1` leaves the key there. -/
theorem pexpire_negative : ∃ w₁ : World ℚ,
    (pexpire ["k", "-1"]).run (exec 0) ⟨setStr ∅ "k" "v", {}⟩ = (some (.int 1), w₁) ∧ Untouched "k" 0 w₁ 0 w₁ ∧
      (get ["k"]).run (exec 0) w₁ = (some (.str "v"), w₁) ∧ ¬Elapsed "k" "v" (-1) 0 0 w₁ := by
  have hms : parseI64 "-1" = some (-1) := by decide
  have hget : (get ["k"]).run (exec 0) (⟨(expire 0 (setStr ∅ "k" "v") "k" (-1)).2, {}⟩ : World ℚ) =
      (some (.str "v"), ⟨(expire 0 (setStr ∅ "k" "v") "k" (-1)).2, {}⟩) := rfl
  refine ⟨⟨(expire 0 (setStr ∅ "k" "v") "k" (-1)).2, {}⟩, ?_, .start, hget, ?_⟩
  · simp only [pexpire, parsed, hms]
    rfl
  · intro h
    have hnil := h.1 (by decide)
    rw [hget] at hnil
    cases hnil

end RedisOps.Handler
