import RedisOps.Handler.JobQueue
import RedisOps.Store.Lists

/-!
# Commands one after another

`serve` runs one command to its end, `serveAll` a sequence of them, each at its own time, and keeps what every one
of them answered. `serveAll_inv` is the rule for what holds after any sequence, `listAt_serveAll` the one for a list that they
all push on.
-/

namespace RedisOps.Handler

open Lib Store Proto

variable {F : Type} [F64 F]

/-- The answer (`none`: the handler panics) and the state it leaves. -/
def serve (now : Nat) (q : Request) (w : World F) : Option Response × World F :=
  (respond q.ts q.args).run (exec now) w

/-- What each command was and answered, and the state they leave. -/
def serveAll : List (Nat × Request) → World F → List (Request × Option Response) × World F
  | [], w => ([], w)
  | (now, q) :: cmds, w =>
    let rest := serveAll cmds (serve now q w).2
    ((q, (serve now q w).1) :: rest.1, rest.2)

theorem serveAll_append (cmds cmds' : List (Nat × Request)) (w : World F) :
    serveAll (cmds ++ cmds') w =
      ((serveAll cmds w).1 ++ (serveAll cmds' (serveAll cmds w).2).1, (serveAll cmds' (serveAll cmds w).2).2) := by
  induction cmds generalizing w with
  | nil => rfl
  | cons c cmds ih =>
    obtain ⟨now, q⟩ := c
    simp [serveAll, ih]

theorem serveAll_requests (cmds : List (Nat × Request)) (w : World F) :
    (serveAll cmds w).1.map Prod.fst = cmds.map Prod.snd := by
  induction cmds generalizing w with
  | nil => rfl
  | cons c cmds ih =>
    obtain ⟨now, q⟩ := c
    simp [serveAll, ih]

/-- **Invariant rule.** -/
theorem serveAll_inv {A : Request → Prop} {I : List (Request × Option Response) → World F → Prop} {w : World F}
    (h₀ : I [] w)
    (hstep : ∀ log w now q, A q → I log w → I (log ++ [(q, (serve now q w).1)]) (serve now q w).2)
    (cmds : List (Nat × Request)) (hA : ∀ c ∈ cmds, A c.2) : I (serveAll cmds w).1 (serveAll cmds w).2 := by
  induction cmds using List.reverseRecOn with
  | nil => exact h₀
  | append_singleton cmds c ih =>
    obtain ⟨now, q⟩ := c
    have hcmds := ih fun c hc => hA c (List.mem_append_left _ hc)
    rw [serveAll_append]
    exact hstep _ _ now q (hA (now, q) (by simp)) hcmds

/-- **Push rule.** What each command puts at the head of a list is found there, newest first. -/
theorem listAt_serveAll {key : String} {A : Request → Prop} {pushed : Request → Option String}
    (hstep : ∀ now q (w : World F), A q → ListOrNone w.store key →
      listAt (serve now q w).2.store key = (pushed q).toList ++ listAt w.store key ∧
        ListOrNone (serve now q w).2.store key)
    {cmds : List (Nat × Request)} (hcmds : ∀ c ∈ cmds, A c.2) {w : World F} (hs : ListOrNone w.store key) :
    listAt (serveAll cmds w).2.store key = (cmds.filterMap fun c => pushed c.2).reverse ++ listAt w.store key ∧
      ListOrNone (serveAll cmds w).2.store key := by
  induction cmds generalizing w with
  | nil => exact ⟨rfl, hs⟩
  | cons c cmds ih =>
    obtain ⟨now, q⟩ := c
    obtain ⟨hq, hcmds⟩ := List.forall_mem_cons.1 hcmds
    obtain ⟨hlist, hs'⟩ := hstep now q w hq hs
    obtain ⟨hrest, hrest'⟩ := ih hcmds hs'
    refine ⟨?_, hrest'⟩
    rw [serveAll]
    dsimp only
    rw [hrest, hlist, ← List.append_assoc]
    congr 1
    cases hpushed : pushed q with
    | none => simp [hpushed]
    | some text => simp [hpushed]

theorem serve_of_word {q : Request} {word : Word} (h : q.word = some word) (now : Nat) (w : World F) :
    serve now q w = (handle q.ts q.args.tail word).run (exec now) w := by
  rw [serve, respond_of_word h]

end RedisOps.Handler
