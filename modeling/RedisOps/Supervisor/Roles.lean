import RedisOps.Supervisor.Process

/-!
# Who restarts a process

Two protocols that `add_process`, `start` and the monitor threads keep to:

* `sections` — an entry is only put into `processes_` under the lock, by somebody who has not found it there;
* `roles w` — what a thread has to do with the process `w`. A `start` looks at it under the lock, makes one monitor thread
  unless it runs, and then has no part in it any more. A monitor thread reports one exit of it at most, and restarts it
  once at most: the restart leads to `join`.

`Own` are the acts with which neither of them is concerned, but for the name.
-/

namespace RedisOps.Supervisor

open Lib

/-! ## Acts about one process -/

/-- About the process `name` or about none, and neither the lock nor the table is touched. -/
def Own (name : String) : Act Op Kind Tag → Prop
  | .mem (.get other) => other = name
  | .mem (.set other _) => other = name
  | .mem (.emit event) => event.processName = name
  | .mem (.find _) => False
  | .mem (.insert _) => False
  | .mem (.erase _) => False
  | .mem _ => True
  | .fork (.monitorProcess other _) => other = name
  | .fork _ => False
  | .join _ _ => True
  | .lock => False
  | .unlock => False

abbrev Owned {α : Type} (name : String) (p : Code α) : Prop := p.All (Own name) fun _ => True

section Own
variable (name : String)

variable {name} in
theorem own_mem_bind {α : Type} {o : Op} {k : o.Ret → Code α} (ho : Own name (.mem o)) (hk : ∀ r, Owned name (k r)) :
    Owned name (mem o >>= k) := ⟨ho, hk⟩

theorem own_joinMonitor : Owned name (joinMonitor name) := by
  refine own_mem_bind (by trivial) fun thread => ?_
  cases thread with
  | none => trivial
  | some n => exact ⟨trivial, fun _ => ⟨rfl, fun _ => trivial⟩⟩

theorem own_spawnProcess (rounds : Nat) : Owned name (spawnProcess name rounds) := by
  iterate 2
    refine own_mem_bind (by rfl) fun _ => ?_
  refine own_mem_bind (by trivial) fun forked => ?_
  cases forked with
  | error err =>
    iterate 2
      refine own_mem_bind (by rfl) fun _ => ?_
    trivial
  | ok pid =>
    iterate 2
      refine own_mem_bind (by rfl) fun _ => ?_
    refine own_mem_bind (by trivial) fun clock => ?_
    iterate 2
      refine own_mem_bind (by rfl) fun _ => ?_
    refine (Prog.all_bind _ _).2 ((own_joinMonitor name).mono (fun _ h => h) ?_)
    intro _ _
    refine ⟨rfl, fun n => ?_⟩
    refine own_mem_bind (by trivial) fun _ => ?_
    refine own_mem_bind (by rfl) fun _ => ?_
    trivial

theorem own_attemptRestart (rounds : Nat) : Owned name (attemptRestart name rounds) := by
  iterate 2
    refine own_mem_bind (by rfl) fun _ => ?_
  refine own_mem_bind (by rfl) fun entry => ?_
  refine own_mem_bind (by rfl) fun _ => ?_
  refine (Prog.all_bind _ _).2 ((own_spawnProcess name rounds).mono (fun _ h => h) ?_)
  intro _ _
  trivial

theorem own_giveUp : Owned name (giveUp name) := by
  refine own_mem_bind (by rfl) fun _ => ?_
  refine own_mem_bind (by rfl) fun entry => ?_
  exact ⟨rfl, fun _ => trivial⟩

theorem own_handleExit (status rounds : Nat) : Owned name (handleExit name status rounds) := by
  iterate 3
    refine own_mem_bind (by rfl) fun _ => ?_
  refine own_mem_bind (by rfl) fun entry => ?_
  refine own_mem_bind (by rfl) fun exited => ?_
  refine own_mem_bind (by rfl) fun _ => ?_
  split
  · trivial
  · split
    · trivial
    · refine own_mem_bind (by trivial) fun due => ?_
      split
      · exact own_attemptRestart name rounds
      · exact own_giveUp name

theorem own_monitorProcess (rounds : Nat) : Owned name (monitorProcess name rounds) := by
  induction rounds with
  | zero => trivial
  | succ rounds ih =>
    refine own_mem_bind (by rfl) fun entry => ?_
    split
    · trivial
    · refine own_mem_bind (by rfl) fun entry => ?_
      refine own_mem_bind (by trivial) fun waited => ?_
      cases waited with
      | some status => exact own_handleExit name status rounds
      | none =>
        refine own_mem_bind (by trivial) fun clock => ?_
        refine own_mem_bind (by rfl) fun entry => ?_
        split
        · exact ⟨trivial, fun _ => trivial⟩
        · exact ih

end Own

/-! ## The table under the lock -/

/-- Outside of the lock, inside, or inside and `name` was not found. -/
inductive Section
  | outside
  | inside
  | missing (name : String)
  deriving DecidableEq

def sections : Protocol (Act Op Kind Tag) (Act.Ret Op.Ret) Section where
  ok
    | .outside, .lock => True
    | _, .lock => False
    | .outside, .unlock => False
    | _, .fork (.monitorProcess _ _) => True
    | _, .fork _ => False
    | .missing name, .mem (.insert config) => config.name = name
    | _, .mem (.insert _) => False
    | _, .mem (.erase _) => False
    | _, _ => True
  next
    | _, .lock, _ => .inside
    | _, .unlock, _ => .outside
    | .inside, .mem (.find name), (found : Bool) => if found then .inside else .missing name
    | .missing _, .mem (.insert _), _ => .inside
    | x, _, _ => x

/-- The lock is given back in the end. -/
def Left (x : Section) (_ : Unit) : Prop := x = .outside

theorem sections_own {name : String} {a : Act Op Kind Tag} (ha : Own name a) (x : Section) :
    sections.ok x a ∧ ∀ r, sections.next x a r = x := by
  cases a with
  | mem o => cases o <;> cases x <;> first | exact absurd ha id | exact ⟨trivial, fun _ => rfl⟩
  | fork tag =>
    cases tag with
    | monitorProcess other rounds => cases x <;> exact ⟨trivial, fun _ => rfl⟩
    | _ => exact absurd ha id
  | join kind n => cases x <;> exact ⟨trivial, fun _ => rfl⟩
  | lock => exact absurd ha id
  | unlock => exact absurd ha id

theorem sections_locked {α : Type} {p : Code α}
    (hp : Prog.Obeys sections (fun x _ => x ≠ .outside) .inside p) :
    Prog.Obeys sections Left .outside ((fun _ => ()) <$> locked p) := by
  have hbody : Prog.Obeys sections Left .inside
      ((p >>= fun a => Prog.call .unlock >>= fun _ => pure a) >>= fun _ => .ret ()) := by
    rw [Prog.obeys_bind, Prog.obeys_bind]
    refine hp.mono fun x a hx => ?_
    cases x with
    | outside => exact absurd rfl hx
    | _ => exact ⟨trivial, fun _ => rfl⟩
  exact ⟨trivial, fun _ => hbody⟩

theorem sections_addProcess (config : ProcessConfig) :
    Prog.Obeys sections Left .outside ((fun _ => ()) <$> addProcess config) := by
  apply sections_locked
  refine ⟨trivial, fun found => ?_⟩
  change Bool at found
  cases found with
  | true => simp [sections]
  | false => exact ⟨rfl, fun _ => by simp [sections]⟩

theorem sections_start (name : String) (rounds : Nat) :
    Prog.Obeys sections Left .outside ((fun _ => ()) <$> start name rounds) := by
  apply sections_locked
  refine ⟨trivial, fun found => ?_⟩
  change Bool at found
  cases found with
  | false => simp [sections]
  | true =>
    refine ⟨trivial, fun entry => ?_⟩
    change Prog.Obeys sections _ _ (if entry.state.status = .running then _ else _)
    split
    · simp [sections]
    · exact (own_spawnProcess name rounds).obeys (fun _ ha => sections_own ha .inside) fun _ _ =>
        show Section.inside ≠ .outside by decide

theorem sections_monitorProcess (name : String) (rounds : Nat) :
    Prog.Obeys sections Left .outside (monitorProcess name rounds) :=
  (own_monitorProcess name rounds).obeys (fun _ ha => sections_own ha .outside) fun _ _ => rfl

/-! ## Parts in one process -/

/-- What a thread has to do with a process: nothing (any more); start it, from the call to the lock (`called`), from there to
    the look at its status (`asking`), and on to the monitor thread (`starting`); or monitor it. A monitor has read the
    restart policy (`watching`), reported a failed exit (`crashed`), and found that there is a restart to make (`due`) or
    none (`exceeded`, and `gaveUp` behind the status). Behind the restart (`restarted`) it joins the thread that it
    finds. -/
inductive Role
  | apart
  | called
  | asking
  | starting
  | watching (seen : Option RestartPolicy)
  | crashed (policy : RestartPolicy)
  | due
  | exceeded
  | gaveUp
  | restarted
  | joining (n : Nat)
  | astray

namespace Role

/-- Whether it may look at the entry. -/
def Gets : Role → Prop
  | .apart => False
  | .called => False
  | .starting => False
  | _ => True

/-- What it may write to the entry. -/
def Sets (role : Role) (f : ProcessEntry → ProcessEntry) : Prop :=
  (∀ entry, (f entry).config = entry.config) ∧
    match role with
    | .apart => False
    | .called => False
    | .asking => False
    | .exceeded => ∀ entry, (f entry).state.status = .failed
    | .gaveUp => ∀ entry, (f entry).state.status = entry.state.status
    | _ => True

/-- It writes the state as it likes, and stays what it is. -/
def Free : Role → Prop
  | .starting => True
  | .watching _ => True
  | .crashed _ => True
  | .due => True
  | .restarted => True
  | _ => False

/-- What it may report. -/
def Emits : Role → EventType → Prop
  | .watching (some _), .crashed => True
  | .due, type => type = .restarted
  | _, .crashed => False
  | _, .restarted => False
  | _, _ => True

/-- Where it may end: not before it has done what a failed exit asks for. -/
def Ends (role : Role) (_ : Unit) : Prop :=
  match role with
  | .crashed policy => policy = .never
  | .due => False
  | .exceeded => False
  | _ => True

/-- What an act makes of it. -/
def next : Role → (a : Act Op Kind Tag) → Act.Ret Op.Ret a → Role
  | .called, .lock, _ => .asking
  | .asking, .mem (.get _), (entry : ProcessEntry) => if entry.state.status = .running then .apart else .starting
  | .asking, .unlock, _ => .apart
  | .starting, .unlock, _ => .apart
  | .starting, .fork _, _ => .apart
  | .watching none, .mem (.get _), (entry : ProcessEntry) => .watching (some entry.config.restartPolicy)
  | .watching (some policy), .mem (.get _), (entry : ProcessEntry) =>
    if entry.config.restartPolicy = policy then .watching (some policy) else .astray
  | .watching (some policy), .mem (.emit event), _ => if event.type = .crashed then .crashed policy else .apart
  | .crashed _, .mem (.belowMax _), (below : Bool) => if below then .due else .exceeded
  | .due, .mem (.emit _), _ => .restarted
  | .exceeded, .mem (.set _ _), _ => .gaveUp
  | .restarted, .mem (.monitorThread _), (thread : Option Nat) =>
    match thread with
    | some n => .joining n
    | none => .astray
  | .joining _, .join _ _, _ => .astray
  | role, _, _ => role

end Role

/-- Acts that are about the process `name`, or may be. -/
def about (name : String) : Act Op Kind Tag → Bool
  | .mem (.get other) => other == name
  | .mem (.set other _) => other == name
  | .mem (.belowMax other) => other == name
  | .mem (.monitorThread other) => other == name
  | .mem (.emit event) => event.processName == name
  | .mem _ => false
  | .fork (.monitorProcess other _) => other == name
  | .fork _ => false
  | .join _ _ => true
  | .lock => true
  | .unlock => true

/-- The part in the process `w`. -/
def roles (w : String) : Protocol (Act Op Kind Tag) (Act.Ret Op.Ret) Role where
  ok
    | .astray, _ => True
    | .joining n, a => a = .join .monitor n
    | role, .mem (.get name) => name = w → role.Gets
    | role, .mem (.set name f) => name = w → role.Sets f
    | role, .mem (.emit event) => event.processName = w → role.Emits event.type
    | role, .fork (.monitorProcess name _) => name = w → role = .starting
    | _, _ => True
  next role a r := if about w a then role.next a r else role

section Roles
variable {w : String} {α : Type} {Q : Role → α → Prop}

@[simp] theorem roles_next (role : Role) (a : Act Op Kind Tag) (r : Act.Ret Op.Ret a) :
    (roles w).next role a r = if about w a then role.next a r else role := rfl

theorem roles_next_of {role role' : Role} {a : Act Op Kind Tag} {r : Act.Ret Op.Ret a} (h : about w a = true)
    (hnext : role.next a r = role') : (roles w).next role a r = role' := (if_pos h).trans hnext

theorem roles_next_other {role : Role} {a : Act Op Kind Tag} (h : about w a = false) (r : Act.Ret Op.Ret a) :
    (roles w).next role a r = role := if_neg (by rw [h]; exact Bool.false_ne_true)

theorem roles_next_same {role : Role} {a : Act Op Kind Tag} {r : Act.Ret Op.Ret a} (h : role.next a r = role) :
    (roles w).next role a r = role := by
  rw [roles_next, h, ite_self]

/-- Whoever may end may end behind the act, if that is all it makes of it. -/
theorem roles_ends {role : Role} {a : Act Op Kind Tag} {r : Act.Ret Op.Ret a} (h : role.Ends ())
    (hnext : (role.next a r).Ends ()) : ((roles w).next role a r).Ends () := by
  rw [roles_next]
  split
  · exact hnext
  · exact h

/-- An access that is not about `w` is open to everybody but the one that joins. -/
theorem roles_ok_other {role : Role} (hrole : ∀ n, role ≠ .joining n) {o : Op} (h : about w (.mem o) = false) :
    (roles w).ok role (.mem o) := by
  cases o with
  | get _ | set _ _ | emit _ =>
    cases role <;> first | exact absurd rfl (hrole _) | trivial | exact fun heq => absurd heq (ne_of_beq_false h)
  | _ => cases role <;> first | exact absurd rfl (hrole _) | trivial

theorem roles_gets {role : Role} (h : (roles w).ok role (.mem (.get w))) : role.Gets := by
  cases role with
  | astray => trivial
  | joining n => cases h
  | _ => exact h rfl

theorem roles_sets {role : Role} {f : ProcessEntry → ProcessEntry} (h : (roles w).ok role (.mem (.set w f)))
    (hrole : role ≠ .astray) : role.Sets f := by
  cases role with
  | astray => exact absurd rfl hrole
  | joining n => cases h
  | _ => exact h rfl

theorem roles_emits {role : Role} {event : ProcessEvent} (h : (roles w).ok role (.mem (.emit event)))
    (hname : event.processName = w) (hrole : role ≠ .astray) : role.Emits event.type := by
  cases role with
  | astray => exact absurd rfl hrole
  | joining n => cases h
  | _ => exact h hname

theorem roles_forks {role : Role} {rounds : Nat} (h : (roles w).ok role (.fork (.monitorProcess w rounds)))
    (hrole : role ≠ .astray) : role = .starting := by
  cases role with
  | astray => exact absurd rfl hrole
  | joining n => cases h
  | _ => exact h rfl

theorem obeys_strayed (p : Code α) (hQ : ∀ a, Q .astray a) : Prog.Obeys (roles w) Q .astray p := by
  induction p with
  | ret a => exact hQ a
  | fail => trivial
  | op a k ih =>
    refine ⟨trivial, fun r => ?_⟩
    have hnext : (roles w).next .astray a r = .astray := roles_next_same rfl
    rw [hnext]
    exact ih r

/-- Whoever has no part in `w` is not given one by what it does to another process. -/
theorem roles_own {name : String} (hname : name ≠ w) {a : Act Op Kind Tag} (ha : Own name a) :
    (roles w).ok .apart a ∧ ∀ r, (roles w).next .apart a r = .apart := by
  refine ⟨?_, fun r => ?_⟩
  · cases a with
    | mem o =>
      cases o with
      | get other =>
        cases ha
        exact fun heq => absurd heq hname
      | set other f =>
        cases ha
        exact fun heq => absurd heq hname
      | emit event => exact fun heq => absurd (ha.symm.trans heq) hname
      | _ => trivial
    | fork tag =>
      cases tag with
      | monitorProcess other rounds =>
        cases ha
        exact fun heq => absurd heq hname
      | _ => trivial
    | _ => trivial
  · exact roles_next_same rfl

/-- An act with which the role stays what it is. -/
theorem roles_stay {role : Role} {o : Op} {k : o.Ret → Code α} (hok : (roles w).ok role (.mem o))
    (hstay : ∀ r, (roles w).next role (.mem o) r = role) (hk : ∀ r, Prog.Obeys (roles w) Q role (k r)) :
    Prog.Obeys (roles w) Q role (mem o >>= k) := by
  refine ⟨hok, fun r => ?_⟩
  rw [hstay r]
  exact hk r

theorem roles_set {role : Role} (hfree : role.Free) {f : ProcessEntry → ProcessEntry}
    (hconfig : ∀ entry, (f entry).config = entry.config) {k : Unit → Code α} (hk : Prog.Obeys (roles w) Q role (k ())) :
    Prog.Obeys (roles w) Q role (mem (.set w f) >>= k) := by
  refine roles_stay ?_ ?_ fun _ => hk
  · cases role <;> first | exact absurd hfree id | exact fun _ => ⟨hconfig, trivial⟩
  · intro r
    cases role with
    | watching seen => cases seen <;> exact roles_next_of (beq_self_eq_true w) rfl
    | _ => first | exact absurd hfree id | exact roles_next_of (beq_self_eq_true w) rfl

theorem roles_setState {role : Role} (hfree : role.Free) {f : ProcessState → ProcessState} {k : Unit → Code α}
    (hk : Prog.Obeys (roles w) Q role (k ())) : Prog.Obeys (roles w) Q role (setState w f >>= k) :=
  roles_set hfree (by intro _; rfl) hk

/-- A monitor looks at the entry. It has read the same policy before, or the answer is not to be expected. -/
theorem roles_get {seen : Option RestartPolicy} {k : ProcessEntry → Code α} (hastray : ∀ a, Q .astray a)
    (hk : ∀ entry, (∀ policy ∈ seen, entry.config.restartPolicy = policy) →
      Prog.Obeys (roles w) Q (.watching (some entry.config.restartPolicy)) (k entry)) :
    Prog.Obeys (roles w) Q (.watching seen) (mem (.get w) >>= k) := by
  refine ⟨fun _ => trivial, fun entry => ?_⟩
  change ProcessEntry at entry
  cases seen with
  | none =>
    have hnext : (roles w).next (.watching none) (.mem (.get w)) entry = .watching (some entry.config.restartPolicy) :=
      roles_next_of (beq_self_eq_true w) rfl
    rw [hnext]
    exact hk entry (by simp)
  | some policy =>
    by_cases hsame : entry.config.restartPolicy = policy
    · have hnext : (roles w).next (.watching (some policy)) (.mem (.get w)) entry =
          .watching (some entry.config.restartPolicy) :=
        roles_next_of (beq_self_eq_true w) ((if_pos hsame).trans (by rw [hsame]))
      rw [hnext]
      exact hk entry (by simpa using hsame)
    · have hnext : (roles w).next (.watching (some policy)) (.mem (.get w)) entry = .astray :=
        roles_next_of (beq_self_eq_true w) (if_neg hsame)
      rw [hnext]
      exact obeys_strayed _ hastray

/-- `spawn_process` up to the join, when the `fork` succeeds. -/
theorem roles_spawnProcess {Q : Role → Bool → Prop} {role : Role} (hfree : role.Free) (hQ : Q role false) {rounds : Nat}
    (hjoin : ∀ pid : Nat, Prog.Obeys (roles w) Q role (joinMonitor w >>= fun _ =>
      startThread (.monitorProcess w rounds) >>= fun n => mem (.assignMonitor w n) >>= fun _ =>
        emitEvent .started w pid 0 "" >>= fun _ => pure true)) :
    Prog.Obeys (roles w) Q role (spawnProcess w rounds) := by
  have hok : ∀ o : Op, about w (.mem o) = false → (roles w).ok role (.mem o) := fun o => roles_ok_other fun n heq => by
    rw [heq] at hfree
    exact hfree
  iterate 2
    refine roles_setState hfree ?_
  refine roles_stay (hok _ rfl) (roles_next_other rfl) fun forked => ?_
  change Except String Nat at forked
  cases forked with
  | error err =>
    iterate 2
      refine roles_setState hfree ?_
    exact hQ
  | ok pid =>
    iterate 2
      refine roles_setState hfree ?_
    refine roles_stay (hok _ rfl) (roles_next_other rfl) fun clock => ?_
    refine roles_setState hfree ?_
    exact roles_set hfree (by intro _; rfl) (hjoin pid)

/-- `spawn_process` for a start: one monitor thread. -/
theorem roles_spawn_starting (rounds : Nat) :
    Prog.Obeys (roles w) (fun role _ => role = .apart ∨ role = .starting) .starting (spawnProcess w rounds) := by
  refine roles_spawnProcess (by trivial) (.inr rfl) fun pid => ?_
  have hrest : Prog.Obeys (roles w) (fun role _ => role = .apart ∨ role = .starting) .starting
      (startThread (.monitorProcess w rounds) >>= fun n => mem (.assignMonitor w n) >>= fun _ =>
        emitEvent .started w pid 0 "" >>= fun _ => pure true) := by
    refine ⟨fun _ => rfl, fun n => ?_⟩
    have hnext : (roles w).next .starting (.fork (.monitorProcess w rounds)) n = .apart :=
      roles_next_of (beq_self_eq_true w) rfl
    rw [hnext]
    refine ⟨trivial, fun _ => ⟨fun _ => trivial, fun _ => .inl ?_⟩⟩
    exact roles_next_of (beq_self_eq_true w) rfl
  refine ⟨trivial, fun thread => ?_⟩
  change Option Nat at thread
  have hread : (roles w).next .starting (.mem (.monitorThread w)) thread = .starting := roles_next_same rfl
  rw [hread]
  cases thread with
  | none => exact hrest
  | some n =>
    refine ⟨trivial, fun _ => ?_⟩
    have hjoined : (roles w).next .starting (.join .monitor n) () = .starting := rfl
    rw [hjoined]
    exact roles_set (by trivial) (by intro _; rfl) hrest

/-- `spawn_process` for a restart: up to the thread that is to be joined, if there is one. -/
theorem roles_spawn_restarted (rounds : Nat) :
    Prog.Obeys (roles w) (fun role _ => role = .restarted ∨ role = .astray) .restarted (spawnProcess w rounds) := by
  refine roles_spawnProcess (by trivial) (.inl rfl) fun pid => ⟨trivial, fun thread => ?_⟩
  change Option Nat at thread
  cases thread with
  | none =>
    have hnext : (roles w).next .restarted (.mem (.monitorThread w)) none = .astray :=
      roles_next_of (beq_self_eq_true w) rfl
    rw [hnext]
    exact obeys_strayed _ fun _ => .inr rfl
  | some n =>
    have hnext : (roles w).next .restarted (.mem (.monitorThread w)) (some n) = .joining n :=
      roles_next_of (beq_self_eq_true w) rfl
    rw [hnext]
    exact ⟨rfl, fun _ => obeys_strayed _ fun _ => .inr rfl⟩

theorem roles_attemptRestart (rounds : Nat) : Prog.Obeys (roles w) Role.Ends .due (attemptRestart w rounds) := by
  iterate 2
    refine roles_setState (by trivial) ?_
  refine roles_stay (fun _ => trivial) (fun _ => roles_next_same rfl) fun entry => ?_
  refine ⟨fun _ => rfl, fun _ => ?_⟩
  have hnext : ∀ message r, (roles w).next .due (.mem (.emit ⟨.restarted, w, -1, 0, message⟩)) r = .restarted :=
    fun message r => roles_next_of (beq_self_eq_true w) rfl
  rw [hnext]
  refine (Prog.obeys_bind (spawnProcess w rounds) _).2 ((roles_spawn_restarted rounds).mono ?_)
  rintro role _ (rfl | rfl) <;> trivial

theorem roles_giveUp : Prog.Obeys (roles w) Role.Ends .exceeded (giveUp w) := by
  refine ⟨fun _ => ⟨fun _ => rfl, fun _ => rfl⟩, fun _ => ?_⟩
  have hnext : ∀ f r, (roles w).next .exceeded (.mem (.set w f)) r = .gaveUp :=
    fun f r => roles_next_of (beq_self_eq_true w) rfl
  rw [hnext]
  refine roles_stay (fun _ => trivial) (fun _ => roles_next_same rfl) fun entry => ?_
  exact ⟨fun _ => ⟨fun _ => rfl, fun _ => rfl⟩, fun _ => roles_ends trivial trivial⟩

/-- Behind the report of a failed exit. -/
theorem roles_crashed {policy : RestartPolicy} (rounds : Nat) :
    Prog.Obeys (roles w) Role.Ends (.crashed policy) (if policy = .never then pure () else do
      let due : Bool ← mem (.belowMax w)
      if due then attemptRestart w rounds else giveUp w) := by
  split
  · rename_i hnever
    exact hnever
  · refine ⟨trivial, fun due => ?_⟩
    change Bool at due
    cases due with
    | true =>
      have hnext : (roles w).next (.crashed policy) (.mem (.belowMax w)) true = .due :=
        roles_next_of (beq_self_eq_true w) rfl
      rw [hnext]
      exact roles_attemptRestart rounds
    | false =>
      have hnext : (roles w).next (.crashed policy) (.mem (.belowMax w)) false = .exceeded :=
        roles_next_of (beq_self_eq_true w) rfl
      rw [hnext]
      exact roles_giveUp

theorem roles_handleExit {seen : Option RestartPolicy} (status rounds : Nat) :
    Prog.Obeys (roles w) Role.Ends (.watching seen) (handleExit w status rounds) := by
  have hastray : ∀ a, Role.Ends .astray a := fun _ => trivial
  refine roles_set (by trivial) (by intro _; rfl) ?_
  iterate 2
    refine roles_setState (by trivial) ?_
  refine roles_get hastray fun entry _ => ?_
  refine roles_get hastray fun exited hsame => ?_
  obtain hsame := hsame _ rfl
  rw [hsame]
  generalize hsuccess : (entry.state.exitCode == 0) = success
  cases success with
  | true => exact ⟨fun _ => trivial, fun _ => roles_ends trivial trivial⟩
  | false =>
    refine ⟨fun _ => trivial, fun _ => ?_⟩
    have hnext : ∀ pid code r, (roles w).next (.watching (some entry.config.restartPolicy))
        (.mem (.emit ⟨.crashed, w, pid, code, ""⟩)) r = .crashed entry.config.restartPolicy :=
      fun pid code r => roles_next_of (beq_self_eq_true w) rfl
    exact (hnext _ _ _).symm ▸ roles_crashed rounds

theorem roles_monitorProcess (rounds : Nat) (seen : Option RestartPolicy) :
    Prog.Obeys (roles w) Role.Ends (.watching seen) (monitorProcess w rounds) := by
  have hastray : ∀ a, Role.Ends .astray a := fun _ => trivial
  induction rounds generalizing seen with
  | zero => trivial
  | succ rounds ih =>
    refine roles_get hastray fun entry _ => ?_
    split
    · trivial
    · refine roles_get hastray fun entry _ => ?_
      refine roles_stay trivial (roles_next_other rfl) fun waited => ?_
      change Option Nat at waited
      cases waited with
      | some status => exact roles_handleExit status rounds
      | none =>
        refine roles_stay trivial (roles_next_other rfl) fun clock => ?_
        refine roles_get hastray fun entry _ => ?_
        split
        · exact ⟨trivial, fun r => roles_ends trivial trivial⟩
        · exact ih _

/-- A body under the lock: with the lock what part there is in a start is given up. -/
theorem roles_locked (role role' : Role) {p : Code α} (hok : (roles w).ok role .lock)
    (hnext : (roles w).next role .lock () = role')
    (hp : Prog.Obeys (roles w) (fun x _ => x = .apart ∨ x = .asking ∨ x = .starting) role' p) :
    Prog.Obeys (roles w) Role.Ends role ((fun _ => ()) <$> locked p) := by
  have hbody : Prog.Obeys (roles w) Role.Ends role'
      ((p >>= fun a => Prog.call .unlock >>= fun _ => pure a) >>= fun _ => .ret ()) := by
    rw [Prog.obeys_bind, Prog.obeys_bind]
    have hunlock : ∀ x : Role, x = .apart ∨ x = .asking ∨ x = .starting →
        (roles w).ok x .unlock ∧ ∀ r, ((roles w).next x .unlock r).Ends () := by
      rintro x (rfl | rfl | rfl) <;> exact ⟨trivial, fun r => roles_ends trivial trivial⟩
    exact hp.mono fun x _ hx => hunlock x hx
  exact ⟨hok, fun _ => hnext.symm ▸ hbody⟩

/-- A `start`, from the call on. -/
theorem roles_start (rounds : Nat) : Prog.Obeys (roles w) Role.Ends .called ((fun _ => ()) <$> start w rounds) := by
  refine roles_locked .called .asking trivial rfl ?_
  refine roles_stay trivial (roles_next_other rfl) fun found => ?_
  change Bool at found
  cases found with
  | false => exact .inr (.inl rfl)
  | true =>
    refine ⟨fun _ => trivial, fun entry => ?_⟩
    change ProcessEntry at entry
    change Prog.Obeys (roles w) _ _ (if entry.state.status = .running then pure false else spawnProcess w rounds)
    by_cases hrunning : entry.state.status = .running
    · have hnext : (roles w).next .asking (.mem (.get w)) entry = .apart :=
        roles_next_of (beq_self_eq_true w) (if_pos hrunning)
      rw [hnext, if_pos hrunning]
      exact .inl rfl
    · have hnext : (roles w).next .asking (.mem (.get w)) entry = .starting :=
        roles_next_of (beq_self_eq_true w) (if_neg hrunning)
      rw [hnext, if_neg hrunning]
      exact (roles_spawn_starting rounds).mono fun _ _ h => h.imp_right .inr

/-- `add_process` has no part in any process. -/
theorem roles_addProcess (config : ProcessConfig) :
    Prog.Obeys (roles w) Role.Ends .apart ((fun _ => ()) <$> addProcess config) := by
  refine roles_locked .apart .apart trivial rfl ?_
  refine roles_stay trivial (roles_next_other rfl) fun found => ?_
  change Bool at found
  cases found with
  | true => exact .inl rfl
  | false => exact roles_stay trivial (roles_next_other rfl) fun _ => .inl rfl

/-- A `start` of another process. -/
theorem roles_start_other {name : String} (hname : name ≠ w) (rounds : Nat) :
    Prog.Obeys (roles w) Role.Ends .apart ((fun _ => ()) <$> start name rounds) := by
  refine roles_locked .apart .apart trivial rfl ?_
  refine roles_stay trivial (roles_next_other rfl) fun found => ?_
  change Bool at found
  cases found with
  | false => exact .inl rfl
  | true =>
    refine roles_stay (fun heq => absurd heq hname) (fun _ => roles_next_same rfl) fun entry => ?_
    split
    · exact .inl rfl
    · exact (own_spawnProcess name rounds).obeys (fun _ ha => roles_own hname ha) fun _ _ => .inl rfl

theorem roles_monitorProcess_other {name : String} (hname : name ≠ w) (rounds : Nat) :
    Prog.Obeys (roles w) Role.Ends .apart (monitorProcess name rounds) :=
  (own_monitorProcess name rounds).obeys (fun _ ha => roles_own hname ha) fun _ _ => trivial

end Roles

end RedisOps.Supervisor
