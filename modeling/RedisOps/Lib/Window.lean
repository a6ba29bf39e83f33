import Mathlib.Data.List.DropRight
import Mathlib.Tactic

/-!
# Logs of bounded length

A log keeps what was pushed last. `Window.run_items` says what it holds after any operations, the bound changing among
them: an item is there exactly if no push has found it too far back, its own included, and nothing has cleared the log since.

`newest` is how such logs are read, from the back up to a number of hits.
-/

namespace RedisOps.Lib

section Rtake
variable {α : Type}

theorem rtake_of_le {l : List α} {n : Nat} (h : l.length ≤ n) : l.rtake n = l := by
  rw [List.rtake, Nat.sub_eq_zero_of_le h, List.drop_zero]

theorem rtake_append_rtake (l m : List α) (n : Nat) : (l.rtake n ++ m).rtake n = (l ++ m).rtake n := by
  simp only [List.rtake, List.drop_append, List.length_append, List.length_drop, List.drop_drop]
  congr 2 <;> omega

theorem rtake_rtake (l : List α) (n m : Nat) : (l.rtake n).rtake m = l.rtake (min m n) := by
  simp only [List.rtake, List.drop_drop, List.length_drop]
  congr 1
  omega

theorem rtake_cons_of_lt {a : α} {l : List α} {n : Nat} (h : n ≤ l.length) : (a :: l).rtake n = l.rtake n := by
  rw [List.rtake, List.rtake, List.length_cons, Nat.succ_sub h, List.drop_succ_cons]

/-- Taking off the front while there is too much. -/
def dropTo (n : Nat) : List α → List α
  | [] => []
  | a :: l => if (a :: l).length > n then dropTo n l else a :: l

theorem dropTo_eq (n : Nat) : ∀ l : List α, dropTo n l = l.rtake n
  | [] => by simp [dropTo, List.rtake]
  | a :: l => by
    rw [dropTo]
    split
    · rename_i h
      rw [dropTo_eq n l, rtake_cons_of_lt (by simpa using h)]
    · rename_i h
      rw [rtake_of_le (by omega)]

end Rtake

/-! ## Reading from the back -/

section Newest
variable {α : Type} (p : α → Option Bool) (limit : Nat)

/-- The loop from the newest item on, while there are not enough hits. A test that throws (`none`) ends it. -/
def collect : List α → List α → List α
  | [], results => results
  | a :: l, results =>
    if results.length < limit then
      match p a with
      | some hit => collect l (if hit then results ++ [a] else results)
      | none => results
    else results

def newest (l : List α) : List α := (collect p limit l.reverse []).reverse

theorem collect_eq : ∀ l results : List α, collect p limit l results =
    results ++ ((l.takeWhile fun a => (p a).isSome).filter fun a => p a = some true).take (limit - results.length)
  | [], results => by simp [collect]
  | a :: l, results => by
    rw [collect]
    split
    · rename_i hroom
      cases hp : p a with
      | none => simp [hp]
      | some hit =>
        rw [List.takeWhile_cons_of_pos (by simp [hp]), List.filter_cons]
        dsimp only
        rw [collect_eq l, hp]
        cases hit with
        | true =>
          obtain ⟨k, hk⟩ : ∃ k, limit - results.length = k + 1 := ⟨limit - results.length - 1, by omega⟩
          have hlen : limit - (results ++ [a]).length = k := by
            rw [List.length_append, List.length_singleton]
            omega
          rw [if_pos rfl, if_pos (by simp), hk, hlen, List.take_succ_cons, List.append_assoc, List.singleton_append]
        | false => simp
    · rename_i hfull
      rw [Nat.sub_eq_zero_of_le (Nat.not_lt.1 hfull), List.take_zero, List.append_nil]

/-- The last `limit` hits, oldest first, among the items behind the last one whose test throws. -/
theorem newest_eq (l : List α) : newest p limit l =
    ((l.rtakeWhile fun a => (p a).isSome).filter fun a => p a = some true).rtake limit := by
  rw [newest, collect_eq, List.nil_append, List.length_nil, Nat.sub_zero, List.rtake_eq_reverse_take_reverse,
    List.rtakeWhile, List.filter_reverse, List.reverse_reverse]

theorem newest_total (q : α → Bool) (l : List α) : newest (fun a => some (q a)) limit l = (l.filter q).rtake limit := by
  rw [newest_eq]
  congr 1
  have hall : (l.rtakeWhile fun a => (some (q a)).isSome) = l := by
    rw [List.rtakeWhile_eq_self_iff]
    intro a _
    rfl
  rw [hall]
  congr 1
  funext a
  simp

end Newest

/-! ## Any operations -/

inductive WindowOp (α : Type) where
  | push (a : α)
  | resize (limit : Nat)
  | clear

structure Window (α : Type) where
  items : List α
  limit : Nat

namespace Window
variable {α : Type}

/-- A new limit is not applied before the next push. -/
def step (w : Window α) : WindowOp α → Window α
  | .push a => { w with items := (w.items ++ [a]).rtake w.limit }
  | .resize limit => { w with limit := limit }
  | .clear => { w with items := [] }

def run (w : Window α) (ops : List (WindowOp α)) : Window α := ops.foldl step w

theorem run_cons (w : Window α) (op : WindowOp α) (ops : List (WindowOp α)) : w.run (op :: ops) = (w.step op).run ops := rfl

/-- Whether the item with `k` items from it on, itself included, outlives the operations. -/
def survives : List (WindowOp α) → Nat → Nat → Bool
  | [], _, _ => true
  | .push _ :: ops, limit, k => k + 1 ≤ limit && survives ops limit (k + 1)
  | .resize limit :: ops, _, k => survives ops limit k
  | .clear :: _, _, _ => false

/-- What is pushed by the operations and outlives those behind it. -/
def retained : List (WindowOp α) → Nat → List α
  | [], _ => []
  | .push a :: ops, limit => (if 1 ≤ limit && survives ops limit 1 then [a] else []) ++ retained ops limit
  | .resize limit :: ops, _ => retained ops limit
  | .clear :: ops, limit => retained ops limit

/-- The items whose distance from the end is fine. -/
def those (ok : Nat → Bool) : List α → List α
  | [] => []
  | a :: l => if ok (l.length + 1) then a :: those ok l else those ok l

theorem those_true (l : List α) : those (fun _ => true) l = l := by
  induction l with
  | nil => rfl
  | cons a l ih => rw [those, if_pos rfl, ih]

theorem those_false (l : List α) : those (fun _ => false) l = [] := by
  induction l with
  | nil => rfl
  | cons a l ih => rw [those, if_neg Bool.false_ne_true, ih]

theorem those_concat (ok : Nat → Bool) (l : List α) (a : α) :
    those ok (l ++ [a]) = those (fun k => ok (k + 1)) l ++ if ok 1 then [a] else [] := by
  induction l with
  | nil => simp [those]
  | cons b l ih =>
    simp only [List.cons_append, those, List.length_append, List.length_singleton, ih]
    split <;> rfl

theorem those_rtake (ok : Nat → Bool) (n : Nat) (l : List α) :
    those ok (l.rtake n) = those (fun k => k ≤ n && ok k) l := by
  induction l with
  | nil => simp [List.rtake, those]
  | cons a l ih =>
    by_cases h : l.length + 1 ≤ n
    · rw [rtake_of_le (Nat.le_of_succ_le h)] at ih
      rw [rtake_of_le (l := a :: l) h, those, those, ih]
      simp [h]
    · rw [rtake_cons_of_lt (by omega), ih]
      simp [those, h]

/-- **What the log holds** after any operations. -/
theorem run_items (ops : List (WindowOp α)) : ∀ w : Window α,
    (w.run ops).items = those (survives ops w.limit) w.items ++ retained ops w.limit := by
  induction ops with
  | nil =>
    intro w
    rw [retained, List.append_nil]
    exact (those_true w.items).symm
  | cons op ops ih =>
    intro w
    change ((w.step op).run ops).items = _
    rw [ih]
    cases op with
    | push a =>
      simp only [step, those_rtake, those_concat, retained, List.append_assoc]
      rfl
    | resize limit => rfl
    | clear =>
      change those _ [] ++ retained ops w.limit = those (fun _ => false) w.items ++ retained ops w.limit
      rw [those_false]
      rfl

/-- A log whose limit stays is what was pushed last. -/
theorem run_push (w : Window α) (h : w.items.length ≤ w.limit) (as : List α) :
    (w.run (as.map .push)).items = (w.items ++ as).rtake w.limit := by
  induction as using List.reverseRecOn with
  | nil =>
    rw [List.append_nil, rtake_of_le h]
    rfl
  | append_singleton as a ih =>
    have hlimit : ∀ as : List α, (w.run (as.map .push)).limit = w.limit := by
      intro as
      induction as using List.reverseRecOn with
      | nil => rfl
      | append_singleton as a ih => rw [List.map_append, run, List.foldl_append]; exact ih
    rw [List.map_append, run, List.foldl_append]
    change ((w.run (as.map .push)).items ++ [a]).rtake (w.run (as.map .push)).limit = _
    rw [hlimit, ih, rtake_append_rtake, List.append_assoc]

end Window

end RedisOps.Lib
