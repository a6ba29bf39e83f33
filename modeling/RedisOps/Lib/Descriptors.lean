import Mathlib.Tactic
import RedisOps.Lib.Bytes

/-!
# Descriptors and pipes

A process has one table of descriptors, and every part of it opens and closes what it likes. `Has` says which entries of
one kind there are in the table. The rules say how an open or a close, of that kind or of another, changes the list.

A `Pipe` knows what has been taken from it, what is in it, and how many write ends other processes hold.
-/

namespace RedisOps.Lib

section Table
variable {Obj : Type}

/-- `close(fd)`, or nothing for `-1`. -/
def closeFd (table : Nat → Option Obj) : Option Nat → Nat → Option Obj
  | some fd => Function.update table fd none
  | none => table

@[simp] theorem closeFd_none (table : Nat → Option Obj) : closeFd table none = table := rfl
@[simp] theorem closeFd_some (table : Nat → Option Obj) (fd : Nat) :
    closeFd table (some fd) = Function.update table fd none := rfl

/-- The entries that satisfy `mine` are those of `held`. -/
def Has (mine : Obj → Prop) (table : Nat → Option Obj) (held : List (Nat × Obj)) : Prop :=
  ∀ fd o, mine o → (table fd = some o ↔ (fd, o) ∈ held)

variable {mine : Obj → Prop} {table : Nat → Option Obj} {held : List (Nat × Obj)} {fd : Nat} {o : Obj}

theorem Has.opens (h : Has mine table held) (hfd : table fd = none) :
    Has mine (Function.update table fd (some o)) ((fd, o) :: held) := by
  intro fd' o' ho'
  by_cases hne : fd' = fd
  · subst hne
    have hnot : (fd', o') ∉ held := fun hmem => by
      rw [(h fd' o' ho').2 hmem] at hfd
      cases hfd
    simp [hnot, eq_comm]
  · simp [hne, h fd' o' ho']

/-- Another kind of object. -/
theorem Has.opens_other (h : Has mine table held) (ho : ¬ mine o) (hfd : table fd = none) :
    Has mine (Function.update table fd (some o)) held := by
  intro fd' o' ho'
  rw [h.opens hfd fd' o' ho', List.mem_cons, Prod.mk.injEq, or_iff_right]
  rintro ⟨-, rfl⟩
  exact ho ho'

theorem Has.closes (h : Has mine table held) (fd : Nat) :
    Has mine (Function.update table fd none) (held.filter fun e => e.1 ≠ fd) := by
  intro fd' o' ho'
  by_cases hne : fd' = fd
  · simp [hne]
  · simp [hne, h fd' o' ho']

theorem Has.closes_other (h : Has mine table held) (ho : ¬ mine o) (hfd : table fd = some o) :
    Has mine (Function.update table fd none) held := by
  have hnot : ∀ e ∈ held, mine e.2 → e.1 ≠ fd := by
    rintro ⟨fd', o'⟩ he ho' rfl
    rw [(h fd' o' ho').2 he, Option.some.injEq] at hfd
    exact ho (hfd ▸ ho')
  intro fd' o' ho'
  rw [h.closes fd fd' o' ho', List.mem_filter, and_iff_left_iff_imp]
  intro he
  exact decide_eq_true (hnot _ he ho')

/-- What else is in the table stays when an entry of this kind is closed. -/
theorem Has.other (h : Has mine table held) {fd' : Nat} (hmem : (fd, o) ∈ held) (ho : mine o) {o' : Obj}
    (ho' : ¬ mine o') (hfd' : table fd' = some o') : Function.update table fd none fd' = some o' := by
  have hne : fd' ≠ fd := by
    rintro rfl
    rw [(h fd' o ho).2 hmem, Option.some.injEq] at hfd'
    exact ho' (hfd' ▸ ho)
  rw [Function.update_of_ne hne, hfd']

end Table

/-- `outside`: the write ends in other processes. -/
structure Pipe where
  taken : Bytes
  data : Bytes
  outside : Nat

namespace Pipe

def empty : Pipe := ⟨[], [], 0⟩

def written (p : Pipe) : Bytes := p.taken ++ p.data

/-- Nothing is left in the pipe and nobody else can write to it. -/
def Over (p : Pipe) : Prop := p.data = [] ∧ p.outside = 0

/-- What other processes do with a pipe of which they have the write end. -/
inductive Outside : Pipe → Pipe → Prop
  | writes {p} (chunk) (h : 0 < p.outside) : Outside p { p with data := p.data ++ chunk }
  | dups {p} (h : 0 < p.outside) : Outside p { p with outside := p.outside + 1 }
  | drops {p} (h : 0 < p.outside) : Outside p { p with outside := p.outside - 1 }

theorem Outside.taken {p p' : Pipe} (h : p.Outside p') : p'.taken = p.taken := by
  cases h <;> rfl

theorem Outside.not_over {p p' : Pipe} (h : p.Outside p') : ¬ p.Over := by
  rintro ⟨-, hzero⟩
  cases h <;> omega

end Pipe

end RedisOps.Lib
