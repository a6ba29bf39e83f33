import RedisOps.Handler.Session
import RedisOps.Store.Lists

/-!
# The list commands as a deque (`handler.rs:212-280`)

`DequeCmd.step` is what a double-ended list does, head first; `Asks` says which request asks for it. The commands
answer as the deque does (`serve_deque`), but for `rpush`: it calls `store.lpush`. That makes no difference exactly
when the list holds nothing but the value pushed (`cons_eq_snoc_iff`).
-/

namespace RedisOps.Handler

open Lib Store Proto

variable {F : Type}

/-! ## The deque -/

inductive DequeCmd where
  | lpush (v : String)
  | rpush (v : String)
  | lpop
  | rpop
  | llen
  | lindex (idx : Int64)

/-- The answer and the list after it. A push is acknowledged with `1`. -/
def DequeCmd.step : DequeCmd → List String → Response × List String
  | .lpush v, l => (.int 1, v :: l)
  | .rpush v, l => (.int 1, l ++ [v])
  | .lpop, l => (strOrNil l.head?, l.tail)
  | .rpop, l => (strOrNil l.getLast?, l.dropLast)
  | .llen, l => (.int (Int64.ofNat l.length), l)
  | .lindex idx, l => (strOrNil (indexFrom l idx.toInt), l)

def dequeAll : List DequeCmd → List String → List Response
  | [], _ => []
  | c :: cs, l => (c.step l).1 :: dequeAll cs (c.step l).2

/-- The request that asks for it, on one key. -/
def Asks (key : String) (q : Request) : DequeCmd → Prop
  | .lpush v => q.word = some .lpush ∧ q.args.tail = [key, v]
  | .rpush v => q.word = some .rpush ∧ q.args.tail = [key, v]
  | .lpop => q.word = some .lpop ∧ q.args.tail = [key]
  | .rpop => q.word = some .rpop ∧ q.args.tail = [key]
  | .llen => q.word = some .llen ∧ q.args.tail = [key]
  | .lindex idx => q.word = some .lindex ∧ ∃ text, q.args.tail = [key, text] ∧ parseI64 text = some idx

/-- Every `rpush` finds nothing but its own value in the deque. -/
def RpushAlone : List DequeCmd → List String → Prop
  | [], _ => True
  | c :: cs, l => (∀ v, c = .rpush v → ∀ x ∈ l, x = v) ∧ RpushAlone cs (c.step l).2

/-- Both ends are alike exactly when the list holds nothing but the value. -/
theorem cons_eq_snoc_iff {v : String} {l : List String} : v :: l = l ++ [v] ↔ ∀ x ∈ l, x = v := by
  induction l with
  | nil => simp
  | cons x l ih =>
    rw [List.cons_append, List.cons.injEq, List.forall_mem_cons]
    constructor
    · rintro ⟨rfl, h⟩
      exact ⟨rfl, ih.1 h⟩
    · rintro ⟨rfl, h⟩
      exact ⟨rfl, ih.2 h⟩

/-! ## The commands -/

section
variable [F64 F]

/-- **Step.** -/
theorem serve_deque {key : String} {q : Request} {c : DequeCmd} (hq : Asks key q c) {w : World F}
    (hs : ListOrNone w.store key) (hlen : (listAt w.store key).length < 2 ^ 63)
    (hrpush : ∀ v, c = .rpush v → ∀ x ∈ listAt w.store key, x = v) (now : Nat) :
    (serve now q w).1 = some (c.step (listAt w.store key)).1 ∧
      listAt (serve now q w).2.store key = (c.step (listAt w.store key)).2 ∧
      ListOrNone (serve now q w).2.store key := by
  cases c with
  | lpush v =>
    rw [serve_of_word hq.1, hq.2]
    exact ⟨rfl, listAt_lpush hs v⟩
  | rpush v =>
    rw [serve_of_word hq.1, hq.2, DequeCmd.step, ← cons_eq_snoc_iff.2 (hrpush v rfl)]
    exact ⟨rfl, listAt_lpush hs v⟩
  | lpop =>
    obtain ⟨hans, hrest⟩ := listAt_lpop hs
    rw [serve_of_word hq.1, hq.2, DequeCmd.step, ← hans]
    exact ⟨rfl, hrest⟩
  | rpop =>
    obtain ⟨hans, hrest⟩ := listAt_rpop hs
    rw [serve_of_word hq.1, hq.2, DequeCmd.step, ← hans]
    exact ⟨rfl, hrest⟩
  | llen =>
    rw [serve_of_word hq.1, hq.2, DequeCmd.step, ← llen_listAt hs]
    exact ⟨rfl, rfl, hs⟩
  | lindex idx =>
    obtain ⟨hword, text, hargs, hparse⟩ := hq
    rw [serve_of_word hword, hargs, DequeCmd.step, ← listIndex_eq hlen, ← lindex_listAt hs]
    have hrun : (handle q.ts [key, text] .lindex).run (exec now) w =
        (some (strOrNil (lindex w.store key idx)), w) := by
      simp [handle, lindexCmd, hparse, parsed, Prog.run, exec]
    rw [hrun]
    exact ⟨rfl, rfl, hs⟩

omit [F64 F] in
/-- A command adds one element at most. -/
theorem length_step (c : DequeCmd) (l : List String) : (c.step l).2.length ≤ l.length + 1 := by
  cases c <;> simp [DequeCmd.step] <;> omega

/-- **The commands are a deque as long as every `rpush` finds nothing but its own value.** -/
theorem deque_refines {key : String} {w : World F} (hs : ListOrNone w.store key) {cmds : List (Nat × Request)}
    {ops : List DequeCmd} (hasks : List.Forall₂ (fun c op => Asks key c.2 op) cmds ops)
    (hlen : (listAt w.store key).length + cmds.length < 2 ^ 63) (hrpush : RpushAlone ops (listAt w.store key)) :
    (serveAll cmds w).1.map Prod.snd = (dequeAll ops (listAt w.store key)).map some := by
  induction hasks generalizing w with
  | nil => rfl
  | @cons c op cmds ops hask _ ih =>
    obtain ⟨now, q⟩ := c
    rw [List.length_cons] at hlen
    obtain ⟨hans, hlist, hs'⟩ := serve_deque hask hs (by omega) hrpush.1 now
    have hstep := length_step op (listAt w.store key)
    have hrest := ih hs' (by rw [hlist]; omega) (by rw [hlist]; exact hrpush.2)
    simp only [serveAll, List.map_cons, dequeAll, hans, hrest, hlist]

end

/-- All six: the first `RPUSH` finds the deque empty, the second one its own value in it. -/
theorem deque_refines_lpush :
    let cmds : List (Nat × Request) := [(0, ⟨0, ["RPUSH", "q", "a"]⟩), (0, ⟨0, ["RPUSH", "q", "a"]⟩),
      (0, ⟨0, ["LPUSH", "q", "b"]⟩), (0, ⟨0, ["LINDEX", "q", "0"]⟩), (0, ⟨0, ["RPOP", "q"]⟩),
      (0, ⟨0, ["LLEN", "q"]⟩), (0, ⟨0, ["LPOP", "q"]⟩)]
    (serveAll (F := Float) cmds ⟨∅, {}⟩).1.map Prod.snd = [some (.int 1), some (.int 1), some (.int 1), some (.str "b"),
      some (.str "a"), some (.int 2), some (.str "b")] := by
  intro cmds
  obtain ⟨hnil, hs⟩ : listAt (⟨∅, {}⟩ : World Float).store "q" = [] ∧ ListOrNone (⟨∅, {}⟩ : World Float).store "q" :=
    listAt_of_none rfl
  have hasks : List.Forall₂ (fun c op => Asks "q" c.2 op) cmds
      [.rpush "a", .rpush "a", .lpush "b", .lindex 0, .rpop, .llen, .lpop] :=
    .cons ⟨by decide, rfl⟩ (.cons ⟨by decide, rfl⟩ (.cons ⟨by decide, rfl⟩ (.cons ⟨by decide, "0", rfl, by decide⟩
      (.cons ⟨by decide, rfl⟩ (.cons ⟨by decide, rfl⟩ (.cons ⟨by decide, rfl⟩ .nil))))))
  have hrefines := deque_refines hs hasks
  rw [hnil] at hrefines
  exact hrefines (by decide) (by simp [RpushAlone, DequeCmd.step])

/-- **`RPUSH` adds at the head**: the first value in is not the first one out. -/
theorem rpush_adds_at_head :
    let one : Request := ⟨0, ["RPUSH", "q", "a"]⟩
    let two : Request := ⟨0, ["RPUSH", "q", "b"]⟩
    let pop : Request := ⟨0, ["LPOP", "q"]⟩
    (serveAll (F := Float) [(0, one), (0, two), (0, pop)] ⟨∅, {}⟩).1.map Prod.snd =
        [some (.int 1), some (.int 1), some (.str "b")] ∧
      dequeAll [.rpush "a", .rpush "b", .lpop] [] = [.int 1, .int 1, .str "a"] := by
  intro one two pop
  have h₁ : one.word = some .rpush := by decide
  have h₂ : two.word = some .rpush := by decide
  have h₃ : pop.word = some .lpop := by decide
  refine ⟨?_, rfl⟩
  simp only [serveAll, serve_of_word h₁, serve_of_word h₂, serve_of_word h₃]
  rfl

end RedisOps.Handler
