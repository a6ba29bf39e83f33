import Mathlib.Data.Set.Function
import Mathlib.Tactic

/-!
# Objects under names

A component keeps objects under names and serves every call on one of them. `Objects.Lawful` says that a call does to the
object of its name what the object's own operation does, and nothing to any other; how the component stores them, and
whether an object is there before its first call, is left open.

`Lawful.answerAll` is the rule for runs: an object sees the calls under its name and no others.
-/

namespace RedisOps.Lib

/-- `look`: the object of a name, be it stored or not. -/
structure Objects (R K σ Op Ret : Type) where
  look : R → K → σ
  perform : R → K → Op → Ret × R
  step : σ → Op → Ret × σ

/-- The answers of an object to operations, and where they leave it. -/
def answerAll {σ Op Ret : Type} (step : σ → Op → Ret × σ) : σ → List Op → List Ret × σ
  | s, [] => ([], s)
  | s, o :: os =>
    let r := answerAll step (step s o).2 os
    ((step s o).1 :: r.1, r.2)

namespace Objects
variable {R K σ Op Ret : Type} (C : Objects R K σ Op Ret)

structure Lawful : Prop where
  answer : ∀ r k o, (C.perform r k o).1 = (C.step (C.look r k) o).1
  own : ∀ r k o, C.look (C.perform r k o).2 k = (C.step (C.look r k) o).2
  other : ∀ r k o k', k' ≠ k → C.look (C.perform r k o).2 k' = C.look r k'

/-- Calls one after another, each with its answer. -/
def run : R → List (K × Op) → List (K × Ret) × R
  | r, [] => ([], r)
  | r, (k, o) :: calls =>
    let t := run (C.perform r k o).2 calls
    ((k, (C.perform r k o).1) :: t.1, t.2)

variable {C}

/-- What belongs to one name. -/
def under [DecidableEq K] {β : Type} (k : K) (xs : List (K × β)) : List β := (xs.filter fun x => x.1 = k).map Prod.snd

variable [DecidableEq K]

@[simp] theorem under_nil {β : Type} (k : K) : under k ([] : List (K × β)) = [] := rfl

theorem under_cons {β : Type} (k k' : K) (b : β) (xs : List (K × β)) :
    under k ((k', b) :: xs) = if k' = k then b :: under k xs else under k xs := by
  by_cases h : k' = k <;> simp [under, h]

/-- **One object.** -/
theorem Lawful.answerAll (h : C.Lawful) (calls : List (K × Op)) (r : R) (k : K) :
    (under k (C.run r calls).1, C.look (C.run r calls).2 k) = Lib.answerAll C.step (C.look r k) (under k calls) := by
  induction calls generalizing r with
  | nil => rfl
  | cons call calls ih =>
    obtain ⟨k', o⟩ := call
    have hrest := ih (C.perform r k' o).2
    rw [Objects.run, under_cons, under_cons]
    by_cases hk : k' = k
    · subst hk
      rw [h.own] at hrest
      rw [if_pos rfl, if_pos rfl, Lib.answerAll, ← hrest, h.answer]
    · rw [h.other _ _ _ _ (Ne.symm hk)] at hrest
      rw [if_neg hk, if_neg hk, ← hrest]

end Objects

end RedisOps.Lib
