import RedisOps.Handler.Session
import RedisOps.Lib.Steps
import RedisOps.Lib.Window
import RedisOps.Proto.Request

/-!
# Connections (`redisdb/src/server.rs`, `stats.rs`)

The accept loop takes a permit, accepts a connection, counts it and spawns a task for it. The task answers commands
until the stream, the timeout or an answer that cannot be written ends it, counts the connection off and drops the
permit.

| here | there |
| --- | --- |
| `AcceptLoop`, `step` | `Server::serve`, by the statement it has come to |
| `Conn`, `Conn.step` | a spawned task with its `handle_conn`, likewise |
| `Semaphore` | `tokio::sync::Semaphore`: any that is `Lawful` |

A panic of `dispatch` ends the task where it is: the locals are dropped, the permit among them, but `dec_conn` is a
statement that is not reached any more. So the permits come out right in every run, and `active_connections` is too
high by one for each panic (`connections_accounted_iff`). `lastCmds_run` is about the queue of the last commands:
another task may come between the reading of a command and each of the two halves of its `inc_cmd`.
-/

namespace RedisOps.Server

open Lib Store Proto Handler

/-! ## Permits -/

/-- `new` may panic and `acquire` wait (`none`); a permit that is dropped is released. -/
structure Semaphore where
  State : Type
  new : Nat → Option State
  available : State → Nat
  acquire : State → Option State
  release : State → State

namespace Semaphore

/-- `usize::MAX >> 3` -/
def MAX_PERMITS : Nat := 2 ^ 61 - 1

structure Lawful (S : Semaphore) : Prop where
  new : ∀ {n sem}, S.new n = some sem → n ≤ MAX_PERMITS ∧ S.available sem = n
  acquire : ∀ {sem sem'}, S.acquire sem = some sem' → S.available sem = S.available sem' + 1
  release : ∀ sem, S.available (S.release sem) = S.available sem + 1

/-- The number of permits itself. -/
def counting : Semaphore where
  State := Nat
  new n := if n ≤ MAX_PERMITS then some n else none
  available n := n
  acquire
    | 0 => none
    | n + 1 => some n
  release n := n + 1

theorem counting_lawful : counting.Lawful where
  new {n sem} h := by
    by_cases hle : n ≤ MAX_PERMITS
    · have hsem : some n = some sem := (if_pos hle).symm.trans h
      cases hsem
      exact ⟨hle, rfl⟩
    · have hsem : none = some sem := (if_neg hle).symm.trans h
      cases hsem
  acquire {sem sem'} h := by
    cases sem with
    | zero => cases h
    | succ n =>
      cases h
      rfl
  release _ := rfl

end Semaphore

/-! ## The counters -/

/-- `started_at` and `addr` are not modelled. -/
structure Stats where
  totalConnections : UInt64 := 0
  activeConnections : Int64 := 0
  totalCommands : UInt64 := 0
  lastCmds : List String := []

namespace Stats

def incConn (stats : Stats) : Stats :=
  { stats with
    totalConnections := stats.totalConnections + 1
    activeConnections := stats.activeConnections + 1 }

def decConn (stats : Stats) : Stats := { stats with activeConnections := stats.activeConnections - 1 }

/-! `inc_cmd`: the `fetch_add`, and what it does under the lock of `last_cmds`. -/

def countCmd (stats : Stats) : Stats := { stats with totalCommands := stats.totalCommands + 1 }

def pushCmd (stats : Stats) (cmd : String) : Stats :=
  let q := if stats.lastCmds.length ≥ 64 then stats.lastCmds.tail else stats.lastCmds
  { stats with lastCmds := q ++ [cmd] }

end Stats

/-! ## A connection -/

/-- What a task does next; a command in progress is what is left of its program. `inc_cmd` is `countCmd` and
    `pushCmd`. -/
inductive Conn (F : Type)
  | readRequest
  | countCmd (ts : Nat) (args : List String)
  | pushCmd (ts : Nat) (args : List String)
  | dispatch (p : Cmd F Response)
  | writeResponse (resp : Response)
  | decConn
  | dropPermit

/-- What `read_request` gives under its timeout, and the clock of the command. -/
inductive ReadOutcome
  | args (ts : Nat) (args : List String)
  | err (e : ProtoError)
  | elapsed

/-- `args.first().cloned().unwrap_or_default()` -/
def cmdName (args : List String) : String := args.head?.getD ""

/-- `push`: the name goes into `last_cmds`. `op`: the next operation of the command, at some time. `go`: on to the next
    statement. -/
inductive ConnEvent
  | read (outcome : ReadOutcome)
  | push (cmd : String)
  | op (now : Nat)
  | panic
  | write (ok : Bool)
  | go

def ConnEvent.isPanic : ConnEvent → Bool
  | .panic => true
  | _ => false

/-- The name of the command that is read. -/
def ConnEvent.received : ConnEvent → Option String
  | .read (.args _ args) => some (cmdName args)
  | _ => none

def ConnEvent.pushed : ConnEvent → Option String
  | .push cmd => some cmd
  | _ => none

section
variable {F : Type} [F64 F]

/-- A step of a task: what it does next, `none` if it has ended, and what it leaves. An operation without an answer is
    a panic; any other place in `dispatch` may panic too. -/
def Conn.step (stats : Stats) (w : World F) : Conn F → ConnEvent → Option (Option (Conn F) × Stats × World F)
  | .readRequest, .read (.args ts args) => some (some (.countCmd ts args), stats, w)
  | .readRequest, .read (.err _) => some (some .decConn, stats, w)
  | .readRequest, .read .elapsed => some (some .decConn, stats, w)
  | .countCmd ts args, .go => some (some (.pushCmd ts args), stats.countCmd, w)
  | .pushCmd ts args, .push cmd =>
    if cmd = cmdName args then some (some (.dispatch (respond ts args)), stats.pushCmd cmd, w) else none
  | .dispatch (.op o k), .op now => (exec now o w).map fun (r, w) => (some (.dispatch (k r)), stats, w)
  | .dispatch (.ret resp), .go => some (some (.writeResponse resp), stats, w)
  | .dispatch _, .panic => some (none, stats, w)
  | .writeResponse _, .write true => some (some .readRequest, stats, w)
  | .writeResponse _, .write false => some (some .decConn, stats, w)
  | .decConn, .go => some (some .dropPermit, stats.decConn, w)
  | .dropPermit, .go => some (none, stats, w)
  | _, _ => none

end

/-! ## The server -/

/-- `addr` and `read_timeout` are not modelled: a timeout may come at any time. -/
structure Config where
  maxConnections : Nat := 1000

def maxSem (cfg : Config) : Nat := if cfg.maxConnections = 0 then 1000 else cfg.maxConnections

inductive AcceptLoop
  | acquire
  | accept
  | incConn
  | spawn
  deriving DecidableEq

/-- How many permits the loop holds. -/
def AcceptLoop.permits : AcceptLoop → Nat
  | .acquire => 0
  | _ => 1

/-- How many connections it has counted that have no task yet. -/
def AcceptLoop.announced : AcceptLoop → Nat
  | .spawn => 1
  | _ => 0

structure State (S : Semaphore) (F : Type) where
  sem : S.State
  stats : Stats
  world : World F
  loop : AcceptLoop
  tasks : List (Conn F)

/-- Events of the loop (`closed`: `acquire_owned` answers an error), of a task, and of anything else that uses the
    store. -/
inductive ServerEvent (F : Type)
  | acquired
  | closed
  | accepted
  | acceptErr
  | go
  | conn (i : Nat) (e : ConnEvent)
  | others (world : World F)

def ServerEvent.isPanic {F : Type} : ServerEvent F → Bool
  | .conn _ e => e.isPanic
  | _ => false

def ServerEvent.received {F : Type} : ServerEvent F → Option String
  | .conn _ e => e.received
  | _ => none

def ServerEvent.pushed {F : Type} : ServerEvent F → Option String
  | .conn _ e => e.pushed
  | _ => none

section
variable {F : Type} (S : Semaphore)

/-- `Server::new` -/
def new (cfg : Config) : Option (State S F) :=
  (S.new (maxSem cfg)).map fun sem => ⟨sem, {}, ⟨∅, {}⟩, .acquire, []⟩

/-- What a step of task `i` leaves. A task that ends, in whatever way, drops its permit. -/
def State.leave {S : Semaphore} (s : State S F) (i : Nat) : Option (Conn F) × Stats × World F → State S F
  | (some c, stats, world) => { s with stats, world, tasks := s.tasks.set i c }
  | (none, stats, world) => { s with stats, world, tasks := s.tasks.eraseIdx i, sem := S.release s.sem }

def step [F64 F] (s : State S F) : ServerEvent F → Option (State S F)
  | .acquired =>
    if s.loop = .acquire then (S.acquire s.sem).map fun sem => { s with sem, loop := .accept } else none
  | .closed => if s.loop = .acquire then some s else none
  | .accepted => if s.loop = .accept then some { s with loop := .incConn } else none
  | .acceptErr => if s.loop = .accept then some { s with sem := S.release s.sem, loop := .acquire } else none
  | .go =>
    match s.loop with
    | .incConn => some { s with stats := s.stats.incConn, loop := .spawn }
    | .spawn => some { s with tasks := s.tasks ++ [.readRequest], loop := .acquire }
    | _ => none
  | .conn i e => do
    let c ← s.tasks[i]?
    let out ← c.step s.stats s.world e
    pure (s.leave i out)
  | .others world => some { s with world }

end

/-! ## What a step does to the balance -/

/-- The task has `dec_conn` still ahead of it. -/
def Conn.counted {F : Type} : Conn F → Bool
  | .dropPermit => false
  | _ => true

/-- The command of the task that is read and not yet in `last_cmds`. -/
def Conn.unpushed {F : Type} : Conn F → Option String
  | .countCmd _ args => some (cmdName args)
  | .pushCmd _ args => some (cmdName args)
  | _ => none

namespace State
variable {S : Semaphore} {F : Type} {s : State S F}

/-- The connections between their `inc_conn` and their `dec_conn`. -/
def opened (s : State S F) : Nat := s.tasks.countP Conn.counted + s.loop.announced

def unpushed (s : State S F) : List String := s.tasks.filterMap Conn.unpushed

/-- No accept and no ending is half done. -/
def Settled (s : State S F) : Prop := s.loop ≠ .spawn ∧ ∀ c ∈ s.tasks, c.counted = true

theorem Settled.opened (h : s.Settled) : s.opened = s.tasks.length := by
  obtain ⟨hloop, htasks⟩ := h
  have hnone : s.loop.announced = 0 := by
    cases hl : s.loop with
    | spawn => exact absurd hl hloop
    | _ => rfl
  rw [State.opened, hnone, Nat.add_zero, List.countP_eq_length.2 htasks]

theorem opened_le (s : State S F) : s.opened ≤ s.tasks.length + s.loop.permits := by
  have hloop : s.loop.announced ≤ s.loop.permits := by cases s.loop <;> decide
  exact Nat.add_le_add List.countP_le_length hloop

end State

theorem toInt_add_one (a : Int64) : (a + 1).toInt % 2 ^ 64 = (a.toInt + 1) % 2 ^ 64 := by
  rw [Int64.toInt_add]
  exact Int.bmod_emod

theorem toInt_sub_one (a : Int64) : (a - 1).toInt % 2 ^ 64 = (a.toInt - 1) % 2 ^ 64 := by
  rw [Int64.toInt_sub]
  exact Int.bmod_emod

theorem split_at {α : Type} {l : List α} {i : Nat} {a : α} (h : l[i]? = some a) :
    ∃ pre post, l = pre ++ a :: post ∧ (∀ b, l.set i b = pre ++ b :: post) ∧ l.eraseIdx i = pre ++ post := by
  obtain ⟨hi, rfl⟩ := List.getElem?_eq_some_iff.1 h
  refine ⟨l.take i, l.drop (i + 1), ?_, ?_, List.eraseIdx_eq_take_drop_succ l i⟩
  · rw [List.getElem_cons_drop, List.take_append_drop]
  · intro b
    rw [List.set_eq_take_append_cons_drop, if_pos hi]

theorem filterMap_cons_toList {α β : Type} (f : α → Option β) (a : α) (l : List α) :
    (a :: l).filterMap f = (f a).toList ++ l.filterMap f := by
  rw [List.filterMap_cons]
  cases f a <;> rfl

section Balance
variable {F : Type} {S : Semaphore} {s s' : State S F}

/-- What a task can do: read a command, count it in two steps, go on, count its connection off, end behind that, or
    panic before it. -/
inductive Conn.Moves (stats : Stats) : Conn F → ConnEvent → Option (Conn F) → Stats → Prop
  | reads (ts : Nat) (args : List String) :
      Moves stats .readRequest (.read (.args ts args)) (some (.countCmd ts args)) stats
  | counts (ts : Nat) (args : List String) :
      Moves stats (.countCmd ts args) .go (some (.pushCmd ts args)) stats.countCmd
  | pushes (ts : Nat) (args : List String) (p : Cmd F Response) :
      Moves stats (.pushCmd ts args) (.push (cmdName args)) (some (.dispatch p)) (stats.pushCmd (cmdName args))
  | on {c c' : Conn F} {e : ConnEvent} : c.counted = true → c'.counted = true → e.isPanic = false →
      c.unpushed = none → c'.unpushed = none → e.received = none → e.pushed = none → Moves stats c e (some c') stats
  | off : Moves stats .decConn .go (some .dropPermit) stats.decConn
  | done : Moves stats .dropPermit .go none stats
  | panics (p : Cmd F Response) : Moves stats (.dispatch p) .panic none stats

/-- `active_connections` follows the task, but for a panic. -/
theorem Conn.Moves.balance {c : Conn F} {e : ConnEvent} {stats stats' : Stats} {next : Option (Conn F)}
    (h : c.Moves stats e next stats') :
    (stats'.activeConnections.toInt + c.counted.toNat) % 2 ^ 64 =
      (stats.activeConnections.toInt + (next.any Conn.counted).toNat + e.isPanic.toNat) % 2 ^ 64 := by
  cases h with
  | on hc hc' he => simp [hc, hc', he]
  | off =>
    have hsub := toInt_sub_one stats.activeConnections
    simp only [Stats.decConn, counted, ConnEvent.isPanic, Option.any_some, Bool.toNat_true, Bool.toNat_false]
    omega
  | reads => simp [counted, ConnEvent.isPanic]
  | counts => simp [counted, ConnEvent.isPanic, Stats.countCmd]
  | pushes => simp [counted, ConnEvent.isPanic, Stats.pushCmd]
  | done => simp [counted, ConnEvent.isPanic]
  | panics => simp [counted, ConnEvent.isPanic]

theorem Conn.Moves.lastCmds {c : Conn F} {e : ConnEvent} {stats stats' : Stats} {next : Option (Conn F)}
    (h : c.Moves stats e next stats') : stats'.lastCmds = (e.pushed.elim stats stats.pushCmd).lastCmds := by
  cases h with
  | on _ _ _ _ _ _ hpushed => rw [hpushed]; rfl
  | _ => rfl

/-- A command is put into `last_cmds` by the task that has read it, once. -/
theorem Conn.Moves.unpushed {c : Conn F} {e : ConnEvent} {stats stats' : Stats} {next : Option (Conn F)}
    (h : c.Moves stats e next stats') :
    e.received.toList ++ c.unpushed.toList = e.pushed.toList ++ (next.bind Conn.unpushed).toList := by
  cases h with
  | on _ _ _ hc hc' hreceived hpushed => rw [hc, hreceived, hpushed, Option.bind_some, hc']
  | _ => rfl

@[simp] theorem loop_leave (s : State S F) (i : Nat) (out : Option (Conn F) × Stats × World F) :
    (s.leave i out).loop = s.loop := by
  obtain ⟨_ | c, stats, w⟩ := out <;> rfl

@[simp] theorem stats_leave (s : State S F) (i : Nat) (out : Option (Conn F) × Stats × World F) :
    (s.leave i out).stats = out.2.1 := by
  obtain ⟨_ | c, stats, w⟩ := out <;> rfl

theorem countP_counted_cons (c : Conn F) (tasks : List (Conn F)) :
    (c :: tasks).countP Conn.counted = tasks.countP Conn.counted + c.counted.toNat := by
  rw [List.countP_cons]
  cases c.counted <;> rfl

theorem opened_leave {i : Nat} {c : Conn F} (hc : s.tasks[i]? = some c) (out : Option (Conn F) × Stats × World F) :
    (s.leave i out).opened + c.counted.toNat = s.opened + (out.1.any Conn.counted).toNat := by
  obtain ⟨pre, post, htasks, hset, herase⟩ := split_at hc
  obtain ⟨_ | c', stats, w⟩ := out
  · have hleave : (s.leave i (none, stats, w)).tasks = pre ++ post := herase
    rw [State.opened, State.opened, hleave, htasks, loop_leave, List.countP_append, List.countP_append,
      countP_counted_cons, Option.any_none, Bool.toNat_false]
    omega
  · have hleave : (s.leave i (some c', stats, w)).tasks = pre ++ c' :: post := hset c'
    rw [State.opened, State.opened, hleave, htasks, loop_leave, List.countP_append, List.countP_append,
      countP_counted_cons, countP_counted_cons, Option.any_some]
    omega

/-- A permit for each task. -/
theorem permits_leave (hS : S.Lawful) {i : Nat} {c : Conn F} (hc : s.tasks[i]? = some c)
    (out : Option (Conn F) × Stats × World F) :
    S.available (s.leave i out).sem + (s.leave i out).tasks.length = S.available s.sem + s.tasks.length := by
  obtain ⟨pre, post, htasks, hset, herase⟩ := split_at hc
  obtain ⟨_ | c', stats, w⟩ := out
  · have hleave : (s.leave i (none, stats, w)).tasks = pre ++ post := herase
    have hsem := hS.release s.sem
    rw [hleave, htasks]
    change S.available (S.release s.sem) + _ = _
    simp only [List.length_append, List.length_cons]
    omega
  · have hleave : (s.leave i (some c', stats, w)).tasks = s.tasks.set i c' := rfl
    rw [hleave, List.length_set]
    rfl

theorem unpushed_leave {i : Nat} {c : Conn F} (hc : s.tasks[i]? = some c)
    (out : Option (Conn F) × Stats × World F) :
    ∃ rest : List String, s.unpushed.Perm (c.unpushed.toList ++ rest) ∧
      (s.leave i out).unpushed.Perm ((out.1.bind Conn.unpushed).toList ++ rest) := by
  obtain ⟨pre, post, htasks, hset, herase⟩ := split_at hc
  refine ⟨pre.filterMap Conn.unpushed ++ post.filterMap Conn.unpushed, ?_, ?_⟩
  · rw [State.unpushed, htasks, List.filterMap_append, filterMap_cons_toList]
    exact List.perm_append_comm_assoc ..
  · obtain ⟨_ | c', stats, w⟩ := out
    · have hleave : (s.leave i (none, stats, w)).tasks = pre ++ post := herase
      rw [State.unpushed, hleave, List.filterMap_append]
      exact .rfl
    · have hleave : (s.leave i (some c', stats, w)).tasks = pre ++ c' :: post := hset c'
      rw [State.unpushed, hleave, List.filterMap_append, filterMap_cons_toList]
      exact List.perm_append_comm_assoc ..

variable [F64 F]

theorem Conn.moves_of_step {c : Conn F} {e : ConnEvent} {stats stats' : Stats} {w w' : World F}
    {next : Option (Conn F)} (h : c.step stats w e = some (next, stats', w')) : c.Moves stats e next stats' := by
  cases c with
  | readRequest =>
    cases e with
    | read outcome =>
      cases outcome with
      | args ts args =>
        cases h
        exact .reads ts args
      | _ =>
        cases h
        exact .on rfl rfl rfl rfl rfl rfl rfl
    | _ => cases h
  | countCmd ts args =>
    cases e with
    | go =>
      cases h
      exact .counts ts args
    | _ => cases h
  | pushCmd ts args =>
    cases e with
    | push cmd =>
      obtain ⟨rfl, h⟩ := Option.ite_none_right_eq_some.1 h
      cases h
      exact .pushes ts args (respond ts args)
    | _ => cases h
  | dispatch p =>
    cases e with
    | op now =>
      cases p with
      | op o k =>
        obtain ⟨⟨r, w₁⟩, -, hout⟩ := Option.map_eq_some_iff.1 h
        cases hout
        exact .on rfl rfl rfl rfl rfl rfl rfl
      | _ => cases h
    | go =>
      cases p with
      | ret resp =>
        cases h
        exact .on rfl rfl rfl rfl rfl rfl rfl
      | _ => cases h
    | panic => cases p <;> cases h <;> exact .panics _
    | _ => cases p <;> cases h
  | writeResponse resp =>
    cases e with
    | write ok => cases ok <;> cases h <;> exact .on rfl rfl rfl rfl rfl rfl rfl
    | _ => cases h
  | decConn =>
    cases e with
    | go =>
      cases h
      exact .off
    | _ => cases h
  | dropPermit =>
    cases e with
    | go =>
      cases h
      exact .done
    | _ => cases h

/-- **Step.** No permit is made or lost, and `active_connections` follows the open connections, but for a panic. -/
theorem step_balance (hS : S.Lawful) {e : ServerEvent F} (h : step S s e = some s') :
    S.available s'.sem + s'.tasks.length + s'.loop.permits =
      S.available s.sem + s.tasks.length + s.loop.permits ∧
    (s'.stats.activeConnections.toInt + s.opened) % 2 ^ 64 =
      (s.stats.activeConnections.toInt + s'.opened + e.isPanic.toNat) % 2 ^ 64 := by
  obtain ⟨sem, stats, world, loop, tasks⟩ := s
  cases e with
  | acquired =>
    cases loop with
    | acquire =>
      obtain ⟨sem', hsem, rfl⟩ := Option.map_eq_some_iff.1 h
      have hone : S.available sem = S.available sem' + 1 := hS.acquire hsem
      refine ⟨?_, by simp [State.opened, ServerEvent.isPanic, AcceptLoop.announced]⟩
      simp only [AcceptLoop.permits]
      omega
    | _ => cases h
  | closed =>
    cases loop with
    | acquire =>
      cases h
      exact ⟨rfl, by simp [ServerEvent.isPanic]⟩
    | _ => cases h
  | accepted =>
    cases loop with
    | accept =>
      cases h
      exact ⟨rfl, by simp [State.opened, ServerEvent.isPanic, AcceptLoop.announced]⟩
    | _ => cases h
  | acceptErr =>
    cases loop with
    | accept =>
      cases h
      have hone : S.available (S.release sem) = S.available sem + 1 := hS.release sem
      refine ⟨?_, by simp [State.opened, ServerEvent.isPanic, AcceptLoop.announced]⟩
      simp only [AcceptLoop.permits]
      omega
    | _ => cases h
  | go =>
    cases loop with
    | incConn =>
      cases h
      have hadd := toInt_add_one stats.activeConnections
      refine ⟨rfl, ?_⟩
      simp only [State.opened, Stats.incConn, ServerEvent.isPanic, AcceptLoop.announced, Bool.toNat_false]
      omega
    | spawn =>
      cases h
      refine ⟨?_, ?_⟩
      · simp only [List.length_append, List.length_singleton, AcceptLoop.permits]
        omega
      · simp [State.opened, ServerEvent.isPanic, AcceptLoop.announced, Conn.counted, List.countP_append]
    | _ => cases h
  | conn i e =>
    obtain ⟨c, hc, h⟩ := Option.bind_eq_some_iff.1 h
    obtain ⟨⟨next, stats', w'⟩, hout, h⟩ := Option.bind_eq_some_iff.1 h
    cases h
    have hbalance := (Conn.moves_of_step hout).balance
    have hopened := opened_leave hc (next, stats', w')
    have hpermits := permits_leave hS hc (next, stats', w')
    rw [loop_leave, stats_leave, hpermits]
    refine ⟨rfl, ?_⟩
    simp only [ServerEvent.isPanic] at hbalance hopened ⊢
    omega
  | others world =>
    cases h
    exact ⟨rfl, by simp [State.opened, ServerEvent.isPanic]⟩

def panics (es : List (ServerEvent F)) : Nat := es.countP ServerEvent.isPanic

/-- **Run.** -/
theorem run_balance (hS : S.Lawful) {es : List (ServerEvent F)} (hrun : runAll (step S) s es = some s') :
    S.available s'.sem + s'.tasks.length + s'.loop.permits =
      S.available s.sem + s.tasks.length + s.loop.permits ∧
    (s'.stats.activeConnections.toInt + s.opened) % 2 ^ 64 =
      (s.stats.activeConnections.toInt + s'.opened + panics es) % 2 ^ 64 := by
  induction es generalizing s with
  | nil =>
    cases hrun
    exact ⟨rfl, by simp [panics]⟩
  | cons e es ih =>
    obtain ⟨mid, hstep, hrest⟩ := Option.bind_eq_some_iff.1 hrun
    obtain ⟨hpermits, hactive⟩ := step_balance hS hstep
    obtain ⟨hpermits', hactive'⟩ := ih hrest
    refine ⟨hpermits'.trans hpermits, ?_⟩
    have hpanics : panics (e :: es) = panics es + e.isPanic.toNat := by
      rw [panics, List.countP_cons, panics]
      cases e.isPanic <;> rfl
    rw [hpanics]
    push_cast
    omega

end Balance

section Start
variable {F : Type} [F64 F] {S : Semaphore} {cfg : Config} {s₀ s : State S F} {es : List (ServerEvent F)}

/-- **Accounting of connections.** In every run, from the start, of accepts and of endings of any kind, each permit is
    free, with a task or with the accept loop. `active_connections` is the number of open connections, which between
    the accepts and endings is the number of tasks, exactly if no task has panicked, or so many that the counter has
    come round. -/
theorem connections_accounted_iff (hS : S.Lawful) (hnew : new S cfg = some s₀)
    (hrun : runAll (step S) s₀ es = some s) :
    S.available s.sem + s.tasks.length + s.loop.permits = maxSem cfg ∧
    (s.stats.activeConnections.toInt = s.opened ↔ 2 ^ 64 ∣ panics es) ∧
    (s.Settled → (s.stats.activeConnections.toInt = s.tasks.length ↔ 2 ^ 64 ∣ panics es)) := by
  obtain ⟨sem, hsem, rfl⟩ := Option.map_eq_some_iff.1 hnew
  obtain ⟨hmax, havail⟩ := hS.new hsem
  obtain ⟨hpermits, hactive⟩ := run_balance hS hrun
  have htotal : S.available s.sem + s.tasks.length + s.loop.permits = maxSem cfg := hpermits.trans havail
  have hactive : (s.stats.activeConnections.toInt + (0 : Nat)) % 2 ^ 64 = (0 + s.opened + panics es : Int) % 2 ^ 64 :=
    hactive
  have hopened : s.stats.activeConnections.toInt = s.opened ↔ 2 ^ 64 ∣ panics es := by
    -- as many permits are held as connections are open
    have hle := s.opened_le
    have hlt := s.stats.activeConnections.toInt_lt
    have hge := s.stats.activeConnections.le_toInt
    unfold Semaphore.MAX_PERMITS at hmax
    omega
  refine ⟨htotal, hopened, ?_⟩
  intro hsettled
  rw [← hsettled.opened]
  exact hopened

end Start

/-- `Server::new` with the default configuration. -/
def fresh : State .counting Float := ⟨(1000 : Nat), {}, ⟨∅, {}⟩, .acquire, []⟩

/-- One client connects and goes away. -/
theorem connections_accounted_iff_closed : ∃ s : State .counting Float,
    runAll (step .counting) fresh
      [.acquired, .accepted, .go, .go, .conn 0 (.read (.err .io)), .conn 0 .go, .conn 0 .go] = some s ∧
    Semaphore.counting.available s.sem = 1000 ∧ s.stats.activeConnections.toInt = s.tasks.length := by
  let s : State .counting Float := { fresh with stats := ⟨1, 0, 0, []⟩ }
  have hnew : new .counting {} = some fresh := rfl
  have hrun : runAll (step .counting) fresh
      [.acquired, .accepted, .go, .go, .conn 0 (.read (.err .io)), .conn 0 .go, .conn 0 .go] = some s := rfl
  have hsettled : s.Settled := ⟨by decide, fun c hc => by cases hc⟩
  obtain ⟨hpermits, -, hactive⟩ := connections_accounted_iff Semaphore.counting_lawful hnew hrun
  exact ⟨s, hrun, hpermits, (hactive hsettled).2 (by decide)⟩

/-- One client pushes an element and asks for the list up to `i64::MAX`. -/
def asking : List (ServerEvent Float) :=
  [.acquired, .accepted, .go, .go, .conn 0 (.read (.args 0 ["rpush", "k", "a"])), .conn 0 .go, .conn 0 (.push "rpush"),
    .conn 0 (.op 0), .conn 0 .go, .conn 0 (.write true),
    .conn 0 (.read (.args 0 ["lrange", "k", "0", "9223372036854775807"])), .conn 0 .go, .conn 0 (.push "lrange")]

/-- **A connection that panics is never counted off**: `lrange` has no answer, and what is left has no task and one
    active connection. -/
theorem panic_not_accounted : ∃ asked s : State .counting Float,
    runAll (step .counting) fresh asking = some asked ∧ (∀ now, step .counting asked (.conn 0 (.op now)) = none) ∧
    runAll (step .counting) fresh (asking ++ [.conn 0 .panic]) = some s ∧
    s.Settled ∧ s.tasks.length = 0 ∧ s.stats.activeConnections.toInt = 1 := by
  let s : State .counting Float :=
    { fresh with stats := ⟨1, 1, 2, ["rpush", "lrange"]⟩, world := ⟨lpush ∅ "k" "a", {}⟩ }
  let task : Conn Float := .dispatch (.op (.lrange "k" 0 Int64.maxValue) fun vals => .ret (strs vals))
  let asked : State .counting Float := { s with sem := (999 : Nat), tasks := [task] }
  refine ⟨asked, s, rfl, ?_, rfl, ⟨by decide, ?_⟩, rfl, rfl⟩
  · intro now
    rfl
  · intro c hc
    cases hc

/-! ## The last commands -/

theorem Stats.lastCmds_pushCmd {stats : Stats} (h : stats.lastCmds.length ≤ 64) (cmd : String) :
    (stats.pushCmd cmd).lastCmds = (stats.lastCmds ++ [cmd]).rtake 64 := by
  rw [pushCmd]
  by_cases hfull : stats.lastCmds.length ≥ 64
  · have hone : (stats.lastCmds ++ [cmd]).length - 64 = 1 := by
      rw [List.length_append, List.length_singleton]
      omega
    rw [if_pos hfull, List.rtake, hone, List.drop_append_of_le_length (by omega), List.drop_one]
  · rw [if_neg hfull, rtake_of_le (by simpa using hfull)]

section Commands
variable {F : Type} [F64 F] {S : Semaphore} {s s' : State S F}

/-- **Step.** A step outside the tasks touches neither the queue nor what they have read. -/
theorem commands_step {e : ServerEvent F} (h : step S s e = some s') (hlen : s.stats.lastCmds.length ≤ 64) :
    s'.stats.lastCmds = (s.stats.lastCmds ++ e.pushed.toList).rtake 64 ∧
    (e.received.toList ++ s.unpushed).Perm (e.pushed.toList ++ s'.unpushed) := by
  have hsame : s.stats.lastCmds = (s.stats.lastCmds ++ []).rtake 64 := by
    rw [List.append_nil, rtake_of_le hlen]
  obtain ⟨sem, stats, world, loop, tasks⟩ := s
  cases e with
  | conn i e =>
    obtain ⟨c, hc, h⟩ := Option.bind_eq_some_iff.1 h
    obtain ⟨⟨next, stats', w'⟩, hout, h⟩ := Option.bind_eq_some_iff.1 h
    cases h
    have hmoves := Conn.moves_of_step hout
    constructor
    · rw [stats_leave, hmoves.lastCmds]
      change _ = (stats.lastCmds ++ e.pushed.toList).rtake 64
      cases e.pushed with
      | none => exact hsame
      | some cmd => exact Stats.lastCmds_pushCmd hlen cmd
    · obtain ⟨rest, hbefore, hafter⟩ := unpushed_leave hc (next, stats', w')
      calc e.received.toList ++ _
        _ |>.Perm (e.received.toList ++ (c.unpushed.toList ++ rest)) := hbefore.append_left _
        _ |>.Perm (e.pushed.toList ++ ((next.bind Conn.unpushed).toList ++ rest)) := by
          rw [← List.append_assoc, hmoves.unpushed, List.append_assoc]
        _ |>.Perm (e.pushed.toList ++ _) := hafter.symm.append_left _
  | acquired =>
    cases loop with
    | acquire =>
      obtain ⟨sem', -, rfl⟩ := Option.map_eq_some_iff.1 h
      exact ⟨hsame, .rfl⟩
    | _ => cases h
  | others world =>
    cases h
    exact ⟨hsame, .rfl⟩
  | go =>
    cases loop with
    | incConn =>
      cases h
      exact ⟨hsame, .rfl⟩
    | spawn =>
      cases h
      refine ⟨hsame, .of_eq ?_⟩
      simp [State.unpushed, Conn.unpushed, ServerEvent.received, ServerEvent.pushed]
    | _ => cases h
  | _ =>
    cases loop <;> cases h
    exact ⟨hsame, .rfl⟩

/-- **`last_cmds`** are the last 64 commands in the order in which the connections came to the lock; these and the
    ones that still have to are the commands that have been read. -/
theorem lastCmds_run {es : List (ServerEvent F)} (hrun : runAll (step S) s es = some s')
    (hlen : s.stats.lastCmds.length ≤ 64) :
    s'.stats.lastCmds = (s.stats.lastCmds ++ es.filterMap ServerEvent.pushed).rtake 64 ∧
    (es.filterMap ServerEvent.received ++ s.unpushed).Perm (es.filterMap ServerEvent.pushed ++ s'.unpushed) := by
  induction es generalizing s with
  | nil =>
    cases hrun
    refine ⟨?_, .rfl⟩
    rw [List.filterMap_nil, List.append_nil, rtake_of_le hlen]
  | cons e es ih =>
    obtain ⟨mid, hstep, hrest⟩ := Option.bind_eq_some_iff.1 hrun
    obtain ⟨hmid, hone⟩ := commands_step hstep hlen
    have hlen' : mid.stats.lastCmds.length ≤ 64 := by
      rw [hmid, List.rtake, List.length_drop]
      omega
    obtain ⟨hlast, hrest⟩ := ih hrest hlen'
    rw [filterMap_cons_toList, filterMap_cons_toList]
    constructor
    · rw [hlast, hmid, rtake_append_rtake, List.append_assoc]
    · calc e.received.toList ++ es.filterMap ServerEvent.received ++ s.unpushed
        _ |>.Perm (es.filterMap ServerEvent.received ++ (e.received.toList ++ s.unpushed)) := by
          rw [List.append_assoc]
          exact List.perm_append_comm_assoc ..
        _ |>.Perm (es.filterMap ServerEvent.received ++ (e.pushed.toList ++ mid.unpushed)) := hone.append_left _
        _ |>.Perm (e.pushed.toList ++ (es.filterMap ServerEvent.received ++ mid.unpushed)) :=
          List.perm_append_comm_assoc ..
        _ |>.Perm (e.pushed.toList ++ (es.filterMap ServerEvent.pushed ++ s'.unpushed)) := hrest.append_left _
        _ |>.Perm (e.pushed.toList ++ es.filterMap ServerEvent.pushed ++ s'.unpushed) := by
          rw [List.append_assoc]

end Commands

/-- The second of two clients is served first, though its command is read later; the first has yet to push. -/
def overtaking : List (ServerEvent Float) :=
  [.acquired, .accepted, .go, .go, .acquired, .accepted, .go, .go, .conn 0 (.read (.args 0 ["get", "k"])),
    .conn 0 .go, .conn 1 (.read (.args 0 ["keys"])), .conn 1 .go, .conn 1 (.push "keys"), .conn 0 (.push "get"),
    .conn 1 (.op 0), .conn 1 .go, .conn 1 (.write true), .conn 1 (.read (.args 0 ["del", "k"])), .conn 1 .go]

theorem lastCmds_run_overtaking : ∃ s : State .counting Float,
    runAll (step .counting) fresh overtaking = some s ∧ fresh.stats.lastCmds.length ≤ 64 ∧
    s.stats.lastCmds = (fresh.stats.lastCmds ++ overtaking.filterMap ServerEvent.pushed).rtake 64 ∧
    (overtaking.filterMap ServerEvent.received ++ fresh.unpushed).Perm
      (overtaking.filterMap ServerEvent.pushed ++ s.unpushed) ∧
    overtaking.filterMap ServerEvent.received = ["get", "keys", "del"] ∧
    s.stats.lastCmds = ["keys", "get"] ∧ s.unpushed = ["del"] := by
  have hlen : fresh.stats.lastCmds.length ≤ 64 := Nat.zero_le _
  obtain ⟨hlast, hread⟩ := lastCmds_run (rfl : runAll (step .counting) fresh overtaking = some _) hlen
  exact ⟨_, rfl, hlen, hlast, hread, rfl, rfl, rfl⟩

end RedisOps.Server
