import RedisOps.Handler.Session
import RedisOps.Lib.Linear
import RedisOps.Store.Expiry

/-!
# Commands under one lock

Most branches of `dispatch` await the store once. Whatever connections they come from and however they overlap, and
with the sweeper in between, they are answered as if one client had sent them one after another, in the order in which
they are answered (`atOnce_serial`). The order of the answers keeps to real time: a command that is answered before
another one begins comes before it.

The commands left out of `Word.atOnce` await the store several times, and others see what is between.
-/

namespace RedisOps.Handler

open Lib Store Proto

/-- The branch awaits the store at most once. -/
def Word.atOnce : Word → Bool
  | .bfset | .jobSubmit | .jobNext | .jobResult | .jobLog | .jobList | .metricRecord | .metricSummary
  | .sandboxRegister | .sandboxClaim | .sandboxRelease | .tsAdd | .tsInfo => false
  | _ => true

variable {F : Type}

theorem atOnce_parsed {α : Type} {arg : Option α} {msg : String} {k : α → Cmd F Response}
    (h : ∀ v, (k v).AtOnce) : (parsed arg msg k).AtOnce := by
  cases arg with
  | none => trivial
  | some v => exact h v

theorem atOnce_await {o : Op F} {f : o.Ret → Cmd F Response} (h : ∀ r, ∃ a, f r = .ret a) : (await o >>= f).AtOnce :=
  h

theorem atOnce_auth (args : List String) : (auth args : Cmd F Response).AtOnce := by
  unfold auth
  split
  · refine atOnce_await fun cfg => ?_
    split
    · split <;> exact ⟨_, rfl⟩
    · exact ⟨_, rfl⟩
  · trivial

theorem atOnce_config (args : List String) : (config args : Cmd F Response).AtOnce := by
  unfold config
  split
  · split
    · split
      · split
        · exact atOnce_await fun _ => ⟨_, rfl⟩
        · split
          · exact atOnce_await fun _ => ⟨_, rfl⟩
          · trivial
      · trivial
    · split
      · refine atOnce_await fun cfg => ?_
        split
        · exact ⟨_, rfl⟩
        · split <;> exact ⟨_, rfl⟩
      · trivial
  · trivial

variable [F64 F]

theorem atOnce_handle (ts : Nat) (args : List String) {word : Word} (hword : word.atOnce = true) :
    (handle ts args word : Cmd F Response).AtOnce := by
  cases word
  case auth => exact atOnce_auth args
  case config => exact atOnce_config args
  case sandboxStatus | tsList => exact atOnce_await fun _ => ⟨_, rfl⟩
  -- the answer depends on more than one part of what the store answers
  case get | zadd | zrem | zscore | zquery =>
    simp only [handle, get, zadd, zrem, zscore, zquery]
    split
    · repeat refine atOnce_parsed fun _ => ?_
      refine atOnce_await fun r => ?_
      repeat' split
      all_goals exact ⟨_, rfl⟩
    · trivial
  case bfset | jobSubmit | jobNext | jobResult | jobLog | jobList | metricRecord | metricSummary | sandboxRegister
      | sandboxClaim | sandboxRelease | tsAdd | tsInfo => cases hword
  all_goals
    simp only [handle, keysCmd, set, delCmd, pexpire, pttl, lpushCmd, rpush, lpopCmd, rpopCmd, lrangeCmd, lindexCmd,
      llenCmd, lremCmd, setbit, clearbit, getbit, bitcountCmd, bfget, jobStatus, metricQuery, tsRange]
    split
    · repeat refine atOnce_parsed fun _ => ?_
      exact atOnce_await fun _ => ⟨_, rfl⟩
    · trivial

/-! ## Runs -/

/-- Any number of connections, on each of them commands of one lock only. -/
def atOnceRules : Rules (World F) Request (Op F) Op.Ret Response Nat where
  exec := exec
  progOf q := respond q.ts q.args
  admitted q := ∀ word, q.word = some word → word.atOnce = true
  env w w' := ∃ now, w' = w.swept now

theorem atOnce_respond {q : Request} (h : ∀ word, q.word = some word → word.atOnce = true) :
    (respond q.ts q.args : Cmd F Response).AtOnce := by
  cases hw : q.word with
  | some word =>
    rw [respond_of_word hw]
    exact atOnce_handle q.ts q.args.tail (h word hw)
  | none =>
    obtain ⟨ts, args⟩ := q
    cases args with
    | nil => trivial
    | cons w args =>
      have hword : Word.ofString (toLowercase w) = none := hw
      simp only [respond, hword]
      trivial

/-- What happens in a run of one client. -/
inductive SerialMove where
  | serve (now : Nat) (q : Request)
  | sweep (now : Nat)

/-- The commands served so far with their answers, and the state. -/
def SerialMove.perform (x : List (Request × Option Response) × World F) :
    SerialMove → List (Request × Option Response) × World F
  | .serve now q => (x.1 ++ [(q, (Handler.serve now q x.2).1)], (Handler.serve now q x.2).2)
  | .sweep now => (x.1, x.2.swept now)

def performAll (moves : List SerialMove) (w : World F) : List (Request × Option Response) × World F :=
  moves.foldl SerialMove.perform ([], w)

theorem exists_moves {w₀ w : World F} {log : List (Request × Option Response)} (h : Serial atOnceRules w₀ log w) :
    ∃ moves, performAll moves w₀ = (log, w) := by
  induction h with
  | start => exact ⟨[], rfl⟩
  | serve now q _ _ ih =>
    obtain ⟨moves, hmoves⟩ := ih
    refine ⟨moves ++ [.serve now q], ?_⟩
    rw [performAll, List.foldl_append, ← performAll, hmoves]
    rfl
  | env _ hsweep ih =>
    obtain ⟨moves, hmoves⟩ := ih
    obtain ⟨now, rfl⟩ := hsweep
    refine ⟨moves ++ [.sweep now], ?_⟩
    rw [performAll, List.foldl_append, ← performAll, hmoves]
    rfl

/-- **One lock, one step.** In every run of such commands, from any number of connections, the commands that are
    completed have the answers they have one after another in the order of their completion, and the store is what that
    leaves. -/
theorem atOnce_serial {w₀ : World F} {evs : List (JobEvent F)} {s : Sys (World F) Request (Op F) Op.Ret Response}
    (h : Trace atOnceRules w₀ evs s) :
    ∃ moves, performAll moves w₀ = (evs.filterMap Event.completed, s.shared) :=
  exists_moves (h.serial fun _ hadm => atOnce_respond hadm)

/-- Two pushes on one list. -/
def pushA : Request := ⟨0, ["lpush", "k", "a"]⟩
def pushB : Request := ⟨0, ["lpush", "k", "b"]⟩

/-- Two clients begin a push each, and the one that began last pushes first. -/
theorem atOnce_serial_crossed :
    ∃ (evs : List (JobEvent Float)) (s : Sys (World Float) Request (Op Float) Op.Ret Response),
      Trace atOnceRules ⟨∅, {}⟩ evs s ∧
      evs.filterMap Event.completed = [(pushB, some (.int 1)), (pushA, some (.int 1))] ∧
      ∃ moves, performAll moves ⟨∅, {}⟩ = (evs.filterMap Event.completed, s.shared) := by
  have hadm : ∀ v, (atOnceRules (F := Float)).admitted ⟨0, ["lpush", "k", v]⟩ := by
    intro v word hword
    cases hword
    rfl
  have t₀ : Trace (atOnceRules (F := Float)) ⟨∅, {}⟩ [] ⟨⟨∅, {}⟩, fun _ => none⟩ := .start
  have t₁ := t₀.next (.begin _ 0 pushA rfl (hadm "a"))
  have t₂ := t₁.next (.begin _ 1 pushB rfl (hadm "b"))
  have t₃ := t₂.next (.op _ 1 pushB (.lpush "k" "b") (fun _ => .ret (.int 1)) 0 () _ rfl rfl)
  have t₄ := t₃.next (.op _ 0 pushA (.lpush "k" "a") (fun _ => .ret (.int 1)) 0 () _ rfl rfl)
  exact ⟨_, _, t₄, rfl, atOnce_serial t₄⟩

end RedisOps.Handler
