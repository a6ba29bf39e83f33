import RedisOps.Lib.Steps

/-!
# Cells

A state with cells that are read by `get` and written by `put`. A cell keeps what is put there as `fit` makes it.
`Lawful` says that a cell reads back what was written last, and that no cell is touched by a write to another;
`Lawful.get_runAll` is the rule for any number of writes: the state is the family of its cells.
-/

namespace RedisOps.Lib

/-- `none`: the cell is not there. -/
structure Cells (σ ι α : Type) where
  get : σ → ι → Option α
  put : σ → ι × α → Option σ
  fit : ι → α → α

namespace Cells

variable {σ ι α : Type} {C : Cells σ ι α} {s s' : σ} {i j : ι} {a : α}

structure Lawful (C : Cells σ ι α) : Prop where
  get_put : ∀ {s i a s'}, C.put s (i, a) = some s' → C.get s' i = some (C.fit i a)
  get_put_ne : ∀ {s i a s' j}, C.put s (i, a) = some s' → j ≠ i → C.get s' j = C.get s j

/-- What a write means for the cells as a family. -/
def update [DecidableEq ι] (C : Cells σ ι α) (cells : ι → Option α) (w : ι × α) : ι → Option α :=
  Function.update cells w.1 (some (C.fit w.1 w.2))

variable [DecidableEq ι]

theorem Lawful.get_of_put (h : C.Lawful) (hput : C.put s (i, a) = some s') :
    C.get s' = C.update (C.get s) (i, a) := by
  funext j
  by_cases hj : j = i
  · rw [hj, h.get_put hput, update, Function.update_self]
  · rw [h.get_put_ne hput hj, update, Function.update_of_ne hj]

/-- **Run rule.** -/
theorem Lawful.get_runAll (h : C.Lawful) {ws : List (ι × α)} (hrun : runAll C.put s ws = some s') :
    C.get s' = ws.foldl C.update (C.get s) := by
  induction ws generalizing s with
  | nil =>
    cases hrun
    rfl
  | cons w ws ih =>
    obtain ⟨mid, hput, hrest⟩ := Option.bind_eq_some_iff.1 hrun
    rw [ih hrest, h.get_of_put hput, List.foldl_cons]

end Cells

end RedisOps.Lib
