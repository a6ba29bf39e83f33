import RedisOps.Lib.Steps
import RedisOps.Supervisor.Account

/-!
# Automatic restarts

Runs in which callers use `add_process` and `start`, and processes exit as they like, one act of a thread at a time.
`handle_exit` compares `restart_count` with `max_restarts` and counts one up before a restart, but the restart goes
through `spawn_process`, which sets the count to zero (`process_supervisor.cpp:68`). The count bounds nothing.

What bounds the restarts is that a monitor thread which restarts its process finds itself in `monitor_thread` and joins
itself, which ends the program. It does not when the process fails before `start` has stored the thread
(`restarts_unbounded`). In runs where it always does, and no start takes effect beside a monitor thread, a process is
restarted once at most, and not at all if `max_restarts` is zero (`restarts_bounded`).
-/

namespace RedisOps.Supervisor

open Lib

abbrev Move := Threads.Move Tag Kind Env

/-- `t` is in a start and about to look at the status of `name`, under the lock. -/
def looks (name : String) (s : System) (t : Tid Kind) : Bool :=
  match s.running t with
  | some ⟨.start _ _, .op (.mem (.get other)) _⟩ => other == name
  | _ => false

/-- `t` is a monitor thread and about to look whether there is a thread of `name` to join. -/
def rejoins (name : String) (s : System) (t : Tid Kind) : Bool :=
  match s.running t with
  | some ⟨.monitorProcess _ _, .op (.mem (.monitorThread other)) _⟩ => other == name
  | _ => false

def System.status (s : System) (name : String) : Option Status := (s.mem.entry name).map (·.state.status)

/-- The thread that is stored in `monitor_thread`. -/
def System.stored (s : System) (name : String) : Option (Tid Kind) :=
  ((s.mem.entry name).bind (·.monitorThread)).map (.forked .monitor)

/-- A monitor thread of `name` is under way. -/
def System.monitored (s : System) (name : String) : Bool :=
  (List.range s.forks).any fun n =>
    match s.running (.forked .monitor n) with
    | some ⟨.monitorProcess other _, _⟩ => other == name
    | _ => false

/-- With this act a start of `name` takes effect: it finds it not running. -/
def begins (name : String) (s : System) : Move → Bool
  | .call _ _ => false
  | .act t _ => looks name s t && s.status name ≠ some .running

/-- A move, with the number of events up to the last start of `name` that took effect. -/
def watch (name : String) (x : System × Nat) (move : Move) : Option (System × Nat) :=
  let n := if begins name x.1 move then x.1.mem.events.length else x.2
  match move with
  | .call _ tag => if tag.listed then (Threads.play rules anything x.1 move).map (·, n) else none
  | .act _ _ => (Threads.play rules anything x.1 move).map (·, n)

def fresh : System × Nat := (⟨.empty, none, 0, fun _ => none⟩, 0)

/-- `RESTARTED` events of `name` since its last start, and reports of a failed exit. -/
def restartsSince (name : String) (x : System × Nat) : Nat := eventsOf .restarted name (x.1.mem.events.drop x.2)

def crashesSince (name : String) (x : System × Nat) : Nat := eventsOf .crashed name (x.1.mem.events.drop x.2)

/-- The restarts of `name` since its last start are at most `max_restarts`, and once it has failed more often than that
    (and is to be restarted at all) its status is `FAILED`, as soon as that exit is handled. -/
def Bounded (name : String) (x : System × Nat) : Prop :=
  ∀ entry, x.1.mem.entry name = some entry → restartsSince name x ≤ entry.config.maxRestarts.toNat ∧
    (x.1.monitored name = false → entry.config.restartPolicy ≠ .never →
      entry.config.maxRestarts.toNat < crashesSince name x → entry.state.status = .failed)

/-- A start takes effect when no monitor thread of `name` is under way, and a monitor thread that restarts `name` is the
    one that is stored. -/
def Orderly (name : String) (x : System × Nat) : Move → Prop
  | .call _ _ => True
  | .act t _ => (looks name x.1 t → x.1.status name = some .running ∨ x.1.monitored name = false) ∧
      (rejoins name x.1 t → x.1.stored name = some t)

instance (name : String) (x : System × Nat) : (move : Move) → Decidable (Orderly name x move)
  | .call _ _ => inferInstanceAs (Decidable True)
  | .act t _ => inferInstanceAs (Decidable ((looks name x.1 t → x.1.status name = some .running ∨
      x.1.monitored name = false) ∧ (rejoins name x.1 t → x.1.stored name = some t)))

/-! ## Who has a part -/

/-- No part in `w`, or a start of it that has not looked yet. -/
def Idle (w : String) (owner : Option (Tid Kind)) (t : Tid Kind) (task : Task Tag (Act Op Kind Tag) (Act.Ret Op.Ret) Unit) :
    Prop :=
  ∃ part : Role, Prog.Obeys (roles w) Role.Ends part task.prog ∧
    (part = .apart ∨ (part = .called ∨ part = .asking ∧ owner = some t) ∧ ∃ name rounds, task.tag = .start name rounds)

/-- A start has its part under the lock, the others are those of a monitor thread. The thread that it joins is itself. -/
def Plays (w : String) (owner : Option (Tid Kind)) (t : Tid Kind) (tag : Tag) (role : Role) : Prop :=
  role = .starting ∧ owner = some t ∨
    role ≠ .starting ∧ (∃ n rounds, t = .forked .monitor n ∧ tag = .monitorProcess w rounds) ∧
      ∀ n, role = .joining n → t = .forked .monitor n

/-- The part of the one thread that has one. -/
def lead (busy : Option (Tid Kind × Role)) : Role := (busy.map Prod.snd).getD .apart

/-- At most one thread has a part in `w`, and the account is as that part wants it. -/
structure Parts (w : String) (x : System × Nat) (busy : Option (Tid Kind × Role)) : Prop where
  idle : ∀ t task, x.1.running t = some task → (∀ role, busy ≠ some (t, role)) → Idle w x.1.owner t task
  plays : ∀ t role, busy = some (t, role) → role ≠ .apart ∧ ∃ task, x.1.running t = some task ∧
    Prog.Obeys (roles w) Role.Ends role task.prog ∧ Plays w x.1.owner t task.tag role
  books : Books w x.1.mem (x.1.mem.events.drop x.2) (lead busy)
  since : x.2 ≤ x.1.mem.events.length

section Parts
variable {w : String} {env : Env} {s s' : System} {n : Nat} {sec : Section} {t : Tid Kind} {tag : Tag} {p : Code Unit}
  {role : Role} {busy : Option (Tid Kind × Role)}

/-- A thread without a part goes on. -/
theorem parts_idle
    (hothers : ∀ u task, u ≠ t → s.running u = some task → (∀ role, busy ≠ some (u, role)) → Idle w s.owner u task)
    (hplays : ∀ u role, busy = some (u, role) → u ≠ t ∧ role ≠ .apart ∧ ∃ task, s.running u = some task ∧
      Prog.Obeys (roles w) Role.Ends role task.prog ∧ Plays w s.owner u task.tag role)
    (ht : Idle w s.owner t ⟨tag, p⟩) (hbooks : Books w s.mem (s.mem.events.drop n) (lead busy))
    (hsince : n ≤ s.mem.events.length) : Parts w (s.goOn t tag p, n) busy where
  idle := goOn_forall hothers fun _ => ht
  plays u role hbusy := by
    obtain ⟨hut, hrole, task, hu, hobeys⟩ := hplays u role hbusy
    exact ⟨hrole, task, by simpa [Threads.goOn, hut] using hu, hobeys⟩
  books := hbooks
  since := hsince

/-- The thread with the part goes on. -/
theorem parts_busy (hothers : ∀ u task, u ≠ t → s.running u = some task → Idle w s.owner u task)
    (ht : Prog.Obeys (roles w) Role.Ends role p) (hrole : role ≠ .apart) (hplays : Plays w s.owner t tag role)
    (hbooks : Books w s.mem (s.mem.events.drop n) role) (hsince : n ≤ s.mem.events.length) :
    ∃ busy, Parts w (s.goOn t tag p, n) busy := by
  by_cases hend : ∃ a, p = .ret a
  · obtain ⟨a, rfl⟩ := hend
    refine ⟨none, ⟨?_, by simp, hbooks.ends ht, hsince⟩⟩
    intro u task hu _
    have hut : u ≠ t := by
      rintro rfl
      simp [Threads.goOn, settle] at hu
    exact hothers u task hut (by simpa [Threads.goOn, hut] using hu)
  · have hsettle : settle tag p = some ⟨tag, p⟩ := by
      cases p with
      | ret a => exact absurd ⟨a, rfl⟩ hend
      | _ => rfl
    refine ⟨some (t, role), ⟨?_, ?_, hbooks, hsince⟩⟩
    · intro u task hu hnot
      have hut : u ≠ t := by
        rintro rfl
        exact hnot role rfl
      exact hothers u task hut (by simpa [Threads.goOn, hut] using hu)
    · intro u role' heq
      cases heq
      exact ⟨hrole, ⟨tag, p⟩, by simpa [Threads.goOn] using hsettle, ht, hplays⟩

/-- The thread with the part goes on, or gives it up. -/
theorem parts_own (hothers : ∀ u task, u ≠ t → s.running u = some task → Idle w s.owner u task)
    (ht : Prog.Obeys (roles w) Role.Ends role p) (hplays : role ≠ .apart → Plays w s.owner t tag role)
    (hbooks : Books w s.mem (s.mem.events.drop n) role) (hsince : n ≤ s.mem.events.length) :
    ∃ busy, Parts w (s.goOn t tag p, n) busy := by
  by_cases hrole : role = .apart
  · subst hrole
    exact ⟨none, parts_idle (fun u task hut hu _ => hothers u task hut hu) (by simp) ⟨.apart, ht, .inl rfl⟩ hbooks hsince⟩
  · exact parts_busy hothers ht hrole (hplays hrole) hbooks hsince

theorem Parts.others (h : Parts w (s, n) busy) (hbusy : busy = some (t, role)) :
    ∀ u task, u ≠ t → s.running u = some task → Idle w s.owner u task := by
  intro u task hut hu
  refine h.idle u task hu fun role' heq => hut ?_
  rw [hbusy] at heq
  cases heq
  rfl

/-- A monitor thread with a part is under way. -/
theorem Guarded.monitored (h : Guarded s sec) {m rounds : Nat} {p : Code Unit}
    (ht : s.running (.forked .monitor m) = some ⟨.monitorProcess w rounds, p⟩) : s.monitored w = true := by
  refine List.any_eq_true.2 ⟨m, List.mem_range.2 (h.old ht _ _ rfl), ?_⟩
  simp [ht]

theorem looks_some (h : looks w s t = true) :
    ∃ name rounds k, s.running t = some ⟨.start name rounds, .op (.mem (.get w)) k⟩ := by
  unfold looks at h
  split at h
  · rename_i name rounds other k ht
    obtain rfl : other = w := by simpa using h
    exact ⟨name, rounds, k, ht⟩
  · cases h

/-- Only a start that has not looked yet looks. -/
theorem Parts.looking (h : Parts w (s, n) busy) {k : ProcessEntry → Code Unit}
    {name : String} {rounds : Nat} (ht : s.running t = some ⟨.start name rounds, .op (.mem (.get w)) k⟩) :
    (∀ role, busy ≠ some (t, role)) ∧ s.owner = some t ∧
      ∀ entry, Prog.Obeys (roles w) Role.Ends ((roles w).next .asking (.mem (.get w)) entry) (k entry) := by
  have hidle : ∀ role, busy ≠ some (t, role) := by
    intro role hbusy
    obtain ⟨-, task, hrun, hobeys, hplays⟩ := h.plays t role hbusy
    cases hrun.symm.trans ht
    have hgets := roles_gets hobeys.1
    obtain ⟨rfl, -⟩ | ⟨-, ⟨m, rounds, -, htag⟩, -⟩ := hplays
    · exact hgets
    · cases htag
  refine ⟨hidle, ?_⟩
  obtain ⟨part, hobeys, rfl | ⟨rfl | ⟨rfl, hmine⟩, -⟩⟩ := h.idle t _ ht hidle
  · exact absurd (hobeys.1 rfl) id
  · exact absurd (hobeys.1 rfl) id
  · exact ⟨hmine, hobeys.2⟩

/-- A start takes effect. -/
theorem Parts.mem_begins (hg : Guarded s sec) (h : Parts w (s, n) busy) (horderly : Orderly w (s, n) (.act t env))
    (hbegins : begins w s (.act t env) = true) {o : Op} {k : o.Ret → Code Unit} {r : o.Ret} {m : Shared}
    (ht : s.running t = some ⟨tag, .op (.mem o) k⟩) (hex : exec env o s.mem = some (r, m)) :
    ∃ busy, Parts w (Threads.goOn { s with mem := m } t tag (k r), s.mem.events.length) busy := by
  obtain ⟨hlooks, hstatus⟩ : looks w s t = true ∧ s.status w ≠ some .running := by
    simpa [begins] using hbegins
  obtain ⟨name, rounds, k', hrun⟩ := looks_some hlooks
  cases ht.symm.trans hrun
  obtain ⟨hidle, hmine, hobeys⟩ := h.looking ht
  obtain ⟨entry, hentry, heq⟩ := Option.map_eq_some_iff.1 hex
  obtain ⟨hr, rfl⟩ := Prod.mk.inj heq
  subst hr
  have hdown : entry.state.status ≠ .running := by simpa [System.status, hentry] using hstatus
  have hnobody : busy = none := by
    cases hbusy : busy with
    | none => rfl
    | some x =>
      obtain ⟨u, role⟩ := x
      obtain ⟨-, task, hu, -, hplays⟩ := h.plays u role hbusy
      rcases hplays with ⟨-, howner⟩ | ⟨-, ⟨m, rounds, rfl, htag⟩, -⟩
      · cases Option.some.inj (hmine.symm.trans howner)
        exact absurd hbusy (hidle _)
      · have hrunning : s.monitored w = true := hg.monitored (hu.trans (by rw [← htag]))
        rcases horderly.1 hlooks with hup | hquiet
        · exact absurd hup hstatus
        · exact absurd (hrunning.symm.trans hquiet) (by simp)
  subst hnobody
  have hnext : (roles w).next .asking (.mem (.get w)) entry = .starting :=
    roles_next_of (beq_self_eq_true w) (if_neg hdown)
  have hobeys' : Prog.Obeys (roles w) Role.Ends .starting (k' entry) := hnext ▸ hobeys entry
  refine parts_busy (fun u task _ hu => h.idle u task hu (by simp)) hobeys' (by simp) (.inl ⟨rfl, hmine⟩) ?_ (Nat.le_refl _)
  exact .kept entry.config entry.state.status (by simp [Shared.record, hentry]) (by simp [eventsOf, Account])

/-- Only a look makes the part of a start, and only a look at `monitor_thread` the join. -/
theorem next_starting {a : Act Op Kind Tag} {r : Act.Ret Op.Ret a} (hrole : role ≠ .asking)
    (h : (roles w).next role a r = .starting) : role = .starting := by
  have hnext : role.next a r = .starting → role = .starting := by
    fun_cases Role.next role a r <;> simp_all
  change (if about w a then role.next a r else role) = .starting at h
  split at h
  · exact hnext h
  · exact h

theorem next_asking {o : Op} {r : o.Ret} (ho : o ≠ .get w) : (roles w).next .asking (.mem o) r = .asking := by
  cases o with
  | get name =>
    have hother : name ≠ w := by
      rintro rfl
      exact ho rfl
    have habout : about w (.mem (.get name)) = false := beq_eq_false_iff_ne.2 hother
    exact roles_next_other habout r
  | _ => exact roles_next_same rfl

theorem next_joining {a : Act Op Kind Tag} {r : Act.Ret Op.Ret a} {m : Nat} (h : (roles w).next role a r = .joining m) :
    role = .joining m ∨ role = .restarted ∧ a = .mem (.monitorThread w) ∧ HEq r (some m) := by
  have hnext : role.next a r = .joining m →
      role = .joining m ∨ role = .restarted ∧ ∃ name, a = .mem (.monitorThread name) ∧ HEq r (some m) := by
    fun_cases Role.next role a r <;> simp_all
  change (if about w a then role.next a r else role) = .joining m at h
  split at h
  · rename_i habout
    refine (hnext h).imp_right ?_
    rintro ⟨hrole, name, rfl, hr⟩
    obtain rfl : name = w := by simpa [about] using habout
    exact ⟨hrole, rfl, hr⟩
  · exact .inl h

/-- An access by the thread with the part. -/
theorem Parts.mem_own (hg : Guarded s sec) (h : Parts w (s, n) busy) (horderly : Orderly w (s, n) (.act t env))
    (hbusy : busy = some (t, role)) {o : Op} {k : o.Ret → Code Unit} {r : o.Ret} {m : Shared}
    (ht : s.running t = some ⟨tag, .op (.mem o) k⟩) (hex : exec env o s.mem = some (r, m)) :
    ∃ busy, Parts w (Threads.goOn { s with mem := m } t tag (k r), n) busy := by
  obtain ⟨hrole, task, hrun, hobeys, hplays⟩ := h.plays t role hbusy
  cases hrun.symm.trans ht
  obtain ⟨hevents, -⟩ := exec_frame hex
  have hbooks : Books w s.mem (s.mem.events.drop n) role := by
    have hlead := h.books
    rwa [hbusy] at hlead
  have hstored : role = .restarted → o = .monitorThread w → s.stored w = some t := by
    rintro rfl rfl
    obtain ⟨hstart, -⟩ | ⟨-, ⟨m, rounds, rfl, rfl⟩, -⟩ := hplays
    · cases hstart
    · exact horderly.2 (by simp [rejoins, ht])
  refine parts_own (h.others hbusy) (hobeys.2 r) ?_ ?_ ?_
  · intro hnext
    rcases hplays with ⟨rfl, howner⟩ | ⟨hnot, hmonitor, hjoin⟩
    · exact .inl ⟨roles_next_same rfl, howner⟩
    · refine .inr ⟨fun heq => hnot (next_starting hbooks.looked.2.1 heq), hmonitor, fun m heq => ?_⟩
      · rcases next_joining heq with hrole | ⟨hrole, ho, hr⟩
        · exact hjoin m hrole
        · cases ho
          have hthread := hstored hrole rfl
          obtain ⟨entry, hentry, heq⟩ := Option.map_eq_some_iff.1 hex
          cases heq
          have hfound : entry.monitorThread = some m := eq_of_heq hr
          simpa [System.stored, hentry, hfound] using hthread.symm
  · change Books w m (m.events.drop n) _
    rw [hevents, List.drop_append_of_le_length h.since]
    refine hbooks.mem hrole hobeys.1 hex ?_ ?_ ?_
    · rintro config rfl
      exact hg.insert_missing ht
    · rintro name rfl
      exact hg.not_erase ht
    · intro hrestarted ho hnone
      have hthread := hstored hrestarted ho
      simp [System.stored, hnone] at hthread
  · change n ≤ m.events.length
    rw [hevents, List.length_append]
    exact Nat.le_add_right_of_le h.since

/-- Those that have a part, when a thread without one acts. -/
theorem Parts.plays_other (h : Parts w (s, n) busy) (hidle : ∀ role, busy ≠ some (t, role)) :
    ∀ u role, busy = some (u, role) → u ≠ t ∧ role ≠ .apart ∧ ∃ task, s.running u = some task ∧
      Prog.Obeys (roles w) Role.Ends role task.prog ∧ Plays w s.owner u task.tag role := by
  intro u role hbusy
  refine ⟨?_, h.plays u role hbusy⟩
  rintro rfl
  exact hidle role hbusy

/-- An access by a thread without a part. -/
theorem Parts.mem_idle (hg : Guarded s sec) (h : Parts w (s, n) busy) (hidle : ∀ role, busy ≠ some (t, role))
    (hbegins : begins w s (.act t env) = false) {o : Op} {k : o.Ret → Code Unit} {r : o.Ret} {m : Shared}
    (ht : s.running t = some ⟨tag, .op (.mem o) k⟩) (hex : exec env o s.mem = some (r, m)) :
    Parts w (Threads.goOn { s with mem := m } t tag (k r), n) busy := by
  obtain ⟨part, hobeys, hpart⟩ := h.idle t _ ht hidle
  obtain ⟨hevents, -⟩ := exec_frame hex
  refine parts_idle (fun u task _ hu => h.idle u task hu) (h.plays_other hidle) ?_ ?_ ?_
  · refine ⟨(roles w).next part (.mem o) r, hobeys.2 r, ?_⟩
    rcases hpart with rfl | ⟨rfl | ⟨rfl, hmine⟩, name, rounds, rfl⟩
    · exact .inl (roles_next_same rfl)
    · exact .inr ⟨.inl (roles_next_same rfl), name, rounds, rfl⟩
    · by_cases hlook : o = .get w
      · subst hlook
        obtain ⟨entry, hentry, heq⟩ := Option.map_eq_some_iff.1 hex
        obtain ⟨hr, rfl⟩ := Prod.mk.inj heq
        subst hr
        have hup : entry.state.status = .running := by
          simpa [begins, looks, ht, System.status, hentry] using hbegins
        exact .inl (roles_next_of (beq_self_eq_true w) (if_pos hup))
      · exact .inr ⟨.inr ⟨next_asking hlook, hmine⟩, name, rounds, rfl⟩
  · change Books w m (m.events.drop n) _
    rw [hevents, List.drop_append_of_le_length h.since]
    refine h.books.mem_idle (by tauto) hobeys.1 hex ?_ ?_
    · rintro config rfl
      exact hg.insert_missing ht
    · rintro name rfl
      exact hg.not_erase ht
  · change n ≤ m.events.length
    rw [hevents, List.length_append]
    exact Nat.le_add_right_of_le h.since

theorem Parts.mem (hg : Guarded s sec) (h : Parts w (s, n) busy) (horderly : Orderly w (s, n) (.act t env))
    {o : Op} {k : o.Ret → Code Unit} {r : o.Ret} {m : Shared} (ht : s.running t = some ⟨tag, .op (.mem o) k⟩)
    (hex : exec env o s.mem = some (r, m)) :
    ∃ busy, Parts w (Threads.goOn { s with mem := m } t tag (k r),
      if begins w s (.act t env) then s.mem.events.length else n) busy := by
  cases hbegins : begins w s (.act t env) with
  | true => exact h.mem_begins hg horderly hbegins ht hex
  | false =>
    by_cases hbusy : ∃ role, busy = some (t, role)
    · obtain ⟨role, hbusy⟩ := hbusy
      exact h.mem_own hg horderly hbusy ht hex
    · exact ⟨busy, h.mem_idle hg (fun role heq => hbusy ⟨role, heq⟩) hbegins ht hex⟩

theorem Idle.mono {owner owner' : Option (Tid Kind)} {task : Task Tag (Act Op Kind Tag) (Act.Ret Op.Ret) Unit}
    (h : Idle w owner t task) (howner : owner = some t → owner' = some t) : Idle w owner' t task := by
  obtain ⟨part, hobeys, hpart⟩ := h
  exact ⟨part, hobeys, hpart.imp_right (.imp_left (.imp_right (.imp_right howner)))⟩

theorem Plays.mono {owner owner' : Option (Tid Kind)} (h : Plays w owner t tag role)
    (howner : owner = some t → owner' = some t) : Plays w owner' t tag role :=
  h.imp_left (.imp_right howner)

theorem Parts.led (h : Parts w (s, n) busy) (hbusy : busy = some (t, role)) :
    Books w s.mem (s.mem.events.drop n) role := by
  have hlead := h.books
  rwa [hbusy] at hlead

theorem Parts.lock (h : Parts w (s, n) busy) {k : Unit → Code Unit} (ht : s.running t = some ⟨tag, .op .lock k⟩)
    (hfree : s.owner = none) : ∃ busy, Parts w (Threads.goOn { s with owner := some t } t tag (k ()), n) busy := by
  have hnobody : ∀ u, s.owner = some u → some t = some u := by simp [hfree]
  by_cases hbusy : ∃ role, busy = some (t, role)
  · obtain ⟨role, hbusy⟩ := hbusy
    obtain ⟨hrole, task, hrun, hobeys, hplays⟩ := h.plays t role hbusy
    cases hrun.symm.trans ht
    have hnext : (roles w).next role .lock () = role := by
      cases role with
      | called => exact absurd rfl (h.led hbusy).looked.1
      | watching seen => cases seen <;> rfl
      | _ => rfl
    exact parts_own (fun u task hut hu => (h.others hbusy u task hut hu).mono (hnobody u)) (hnext ▸ hobeys.2 ())
      (fun _ => hplays.mono (hnobody t)) (h.led hbusy) h.since
  · have hidle : ∀ role, busy ≠ some (t, role) := fun role heq => hbusy ⟨role, heq⟩
    obtain ⟨part, hobeys, hpart⟩ := h.idle t _ ht hidle
    refine ⟨busy, parts_idle (fun u task _ hu hnot => (h.idle u task hu hnot).mono (hnobody u)) ?_ ?_ h.books h.since⟩
    · intro u role heq
      obtain ⟨hut, hrole, task, hu, hobeys, hplays⟩ := h.plays_other hidle u role heq
      exact ⟨hut, hrole, task, hu, hobeys, hplays.mono (hnobody u)⟩
    · refine ⟨_, hobeys.2 (), ?_⟩
      rcases hpart with rfl | ⟨rfl | ⟨rfl, hmine⟩, hstart⟩
      · exact .inl rfl
      · exact .inr ⟨.inr ⟨rfl, rfl⟩, hstart⟩
      · exact absurd (hfree.symm.trans hmine) (by simp)

theorem Parts.unlock (h : Parts w (s, n) busy) {k : Unit → Code Unit} (ht : s.running t = some ⟨tag, .op .unlock k⟩)
    (hmine : s.owner = some t) : ∃ busy, Parts w (Threads.goOn { s with owner := none } t tag (k ()), n) busy := by
  have hother : ∀ u, u ≠ t → s.owner = some u → none = some u := by
    intro u hut hu
    exact absurd (Option.some.inj (hu.symm.trans hmine)) hut
  by_cases hbusy : ∃ role, busy = some (t, role)
  · obtain ⟨role, hbusy⟩ := hbusy
    obtain ⟨hrole, task, hrun, hobeys, hplays⟩ := h.plays t role hbusy
    cases hrun.symm.trans ht
    have hothers := fun u task hut hu => (h.others hbusy u task hut hu).mono (hother u hut)
    rcases hplays with ⟨rfl, -⟩ | ⟨hnot, hmonitor⟩
    · have hnext : (roles w).next .starting .unlock () = .apart := rfl
      exact parts_own hothers (hnext ▸ hobeys.2 ()) (fun hne => absurd rfl hne) ((h.led hbusy).ends trivial) h.since
    · have hnext : (roles w).next role .unlock () = role := by
        cases role with
        | asking => exact absurd rfl (h.led hbusy).looked.2.1
        | starting => exact absurd rfl hnot
        | watching seen => cases seen <;> rfl
        | _ => rfl
      exact parts_own hothers (hnext ▸ hobeys.2 ()) (fun _ => .inr ⟨hnot, hmonitor⟩) (h.led hbusy) h.since
  · have hidle : ∀ role, busy ≠ some (t, role) := fun role heq => hbusy ⟨role, heq⟩
    obtain ⟨part, hobeys, hpart⟩ := h.idle t _ ht hidle
    refine ⟨busy, parts_idle (fun u task hut hu hnot => (h.idle u task hu hnot).mono (hother u hut)) ?_ ?_ h.books h.since⟩
    · intro u role heq
      obtain ⟨hut, hrole, task, hu, hobeys, hplays⟩ := h.plays_other hidle u role heq
      exact ⟨hut, hrole, task, hu, hobeys, hplays.mono (hother u hut)⟩
    · refine ⟨_, hobeys.2 (), ?_⟩
      rcases hpart with rfl | ⟨rfl | ⟨rfl, -⟩, hstart⟩
      · exact .inl rfl
      · exact .inr ⟨.inl rfl, hstart⟩
      · exact .inl rfl

theorem Parts.join (h : Parts w (s, n) busy) {kind : Kind} {m : Nat} {k : Unit → Code Unit}
    (ht : s.running t = some ⟨tag, .op (.join kind m) k⟩) (hdone : s.running (.forked kind m) = none) :
    ∃ busy, Parts w (s.goOn t tag (k ()), n) busy := by
  by_cases hbusy : ∃ role, busy = some (t, role)
  · obtain ⟨role, hbusy⟩ := hbusy
    obtain ⟨hrole, task, hrun, hobeys, hplays⟩ := h.plays t role hbusy
    cases hrun.symm.trans ht
    have hnot : ∀ i, role ≠ .joining i := by
      -- it would wait for itself
      rintro i rfl
      cases hobeys.1
      obtain ⟨heq, -⟩ | ⟨-, -, hself⟩ := hplays
      · cases heq
      · rw [hself m rfl, hdone] at ht
        cases ht
    have hnext : (roles w).next role (.join kind m) () = role := by
      cases role with
      | joining i => exact absurd rfl (hnot i)
      | watching seen => cases seen <;> rfl
      | _ => rfl
    exact parts_own (h.others hbusy) (hnext ▸ hobeys.2 ()) (fun _ => hplays) (h.led hbusy) h.since
  · have hidle : ∀ role, busy ≠ some (t, role) := fun role heq => hbusy ⟨role, heq⟩
    obtain ⟨part, hobeys, hpart⟩ := h.idle t _ ht hidle
    refine ⟨busy, parts_idle (fun u task _ hu => h.idle u task hu) (h.plays_other hidle) ?_ h.books h.since⟩
    have hnext : (roles w).next part (.join kind m) () = part := by
      rcases hpart with rfl | ⟨rfl | ⟨rfl, -⟩, -⟩ <;> rfl
    exact ⟨part, hnext ▸ hobeys.2 (), hpart⟩

/-- A thread that has nothing to do with `w` begins. -/
theorem Parts.begin (h : Parts w (s, n) busy) (hrun : s.running t = none) (ht : Idle w s.owner t ⟨tag, p⟩) :
    Parts w (s.goOn t tag p, n) busy := by
  refine parts_idle (fun u task _ hu => h.idle u task hu) ?_ ht h.books h.since
  intro u role hbusy
  obtain ⟨hrole, task, hu, hobeys⟩ := h.plays u role hbusy
  refine ⟨?_, hrole, task, hu, hobeys⟩
  rintro rfl
  rw [hrun] at hu
  cases hu

/-- A monitor thread of another process is started. -/
theorem Parts.fork_other (h : Parts w (s, n) busy) {name : String} (hname : name ≠ w) {rounds : Nat}
    {k : Nat → Code Unit} (ht : s.running t = some ⟨tag, .op (.fork (.monitorProcess name rounds)) k⟩) :
    ∃ busy, Parts w (Threads.goOn { s with forks := s.forks + 1 } t tag (k s.forks), n) busy := by
  have habout : about w (.fork (.monitorProcess name rounds)) = false := beq_eq_false_iff_ne.2 hname
  have hnext : ∀ part m, (roles w).next part (.fork (.monitorProcess name rounds)) m = part := fun part m =>
    roles_next_other habout m
  by_cases hbusy : ∃ role, busy = some (t, role)
  · obtain ⟨role, hbusy⟩ := hbusy
    obtain ⟨hrole, task, hrun, hobeys, hplays⟩ := h.plays t role hbusy
    cases hrun.symm.trans ht
    exact parts_own (h.others hbusy) (hnext role _ ▸ hobeys.2 s.forks) (fun _ => hplays) (h.led hbusy) h.since
  · have hidle : ∀ role, busy ≠ some (t, role) := fun role heq => hbusy ⟨role, heq⟩
    obtain ⟨part, hobeys, hpart⟩ := h.idle t _ ht hidle
    exact ⟨busy, parts_idle (fun u task _ hu => h.idle u task hu) (h.plays_other hidle)
      ⟨part, hnext part _ ▸ hobeys.2 s.forks, hpart⟩ h.books h.since⟩

/-- A start hands its part on to the monitor thread that it starts. -/
theorem Parts.fork_monitor (h : Parts w (s, n) busy) {rounds : Nat} {k : Nat → Code Unit}
    (ht : s.running t = some ⟨tag, .op (.fork (.monitorProcess w rounds)) k⟩) :
    ∃ busy, Parts w ((Threads.goOn { s with forks := s.forks + 1 } t tag (k s.forks)).goOn (.forked .monitor s.forks)
      (.monitorProcess w rounds) (monitorProcess w rounds), n) busy := by
  have hstarting : ∃ role, busy = some (t, role) ∧ role = .starting := by
    by_cases hbusy : ∃ role, busy = some (t, role)
    · obtain ⟨role, hbusy⟩ := hbusy
      obtain ⟨-, task, hrun, hobeys, -⟩ := h.plays t role hbusy
      cases hrun.symm.trans ht
      exact ⟨role, hbusy, roles_forks hobeys.1 (h.led hbusy).looked.2.2⟩
    · obtain ⟨part, hobeys, hpart⟩ := h.idle t _ ht fun role heq => hbusy ⟨role, heq⟩
      have hok := hobeys.1
      rcases hpart with rfl | ⟨rfl | ⟨rfl, -⟩, -⟩ <;> cases hok rfl
  obtain ⟨role, hbusy, rfl⟩ := hstarting
  obtain ⟨-, task, hrun, hobeys, -⟩ := h.plays t _ hbusy
  cases hrun.symm.trans ht
  have hnext : (roles w).next .starting (.fork (.monitorProcess w rounds)) s.forks = .apart :=
    roles_next_of (beq_self_eq_true w) rfl
  have hothers : ∀ u task, (Threads.goOn { s with forks := s.forks + 1 } t tag (k s.forks)).running u = some task →
      Idle w s.owner u task :=
    goOn_forall (h.others hbusy) ⟨.apart, hnext ▸ hobeys.2 s.forks, .inl rfl⟩
  have hbooks : Books w s.mem (s.mem.events.drop n) (.watching none) := by
    cases h.led hbusy with
    | missing _ heq => cases heq
    | kept config status hrecord haccount => exact .kept config status hrecord ⟨haccount.1, haccount.2, by simp⟩
  exact parts_busy (fun u task _ hu => hothers u task hu) (roles_monitorProcess rounds none) (by simp)
    (.inr ⟨by simp, ⟨_, rounds, rfl, rfl⟩, by simp⟩) hbooks h.since

/-- **Step lemma.** -/
theorem Parts.acted (hg : Guarded s sec) (h : Parts w (s, n) busy) (horderly : Orderly w (s, n) (.act t env))
    (hact : Threads.Acted rules anything s t env s') :
    ∃ busy, Parts w (s', if begins w s (.act t env) then s.mem.events.length else n) busy := by
  have hnot : ∀ {tag : Tag} {p : Code Unit}, s.running t = some ⟨tag, p⟩ → (∀ o k, p ≠ .op (.mem o) k) →
      begins w s (.act t env) = false := by
    intro tag p ht hp
    refine Bool.eq_false_iff.2 fun hbegins => ?_
    obtain ⟨hlooks, -⟩ : looks w s t = true ∧ s.status w ≠ some .running := by simpa [begins] using hbegins
    obtain ⟨name, rounds, k, hrun⟩ := looks_some hlooks
    cases ht.symm.trans hrun
    exact hp _ _ rfl
  cases hact with
  | mem tag o k r m ht hex _ => exact h.mem hg horderly ht hex
  | lock tag k ht hfree =>
    rw [hnot ht (by simp)]
    exact h.lock ht hfree
  | unlock tag k ht hmine =>
    rw [hnot ht (by simp)]
    exact h.unlock ht hmine
  | fork tag tag' kind k ht hkind =>
    rw [hnot ht (by simp)]
    obtain ⟨⟨name, rounds, rfl⟩, -⟩ := sections_fork (hg.phase t _ ht).1
    cases hkind
    by_cases hname : name = w
    · subst hname
      exact h.fork_monitor ht
    · obtain ⟨busy, hparts⟩ := h.fork_other hname ht
      refine ⟨busy, hparts.begin ?_ ⟨.apart, roles_monitorProcess_other hname rounds, .inl rfl⟩⟩
      have hne : Tid.forked Kind.monitor s.forks ≠ t := fun heq => absurd (hg.old ht _ _ heq.symm) (Nat.lt_irrefl _)
      simpa [Threads.goOn, hne] using hg.numbered .monitor s.forks (Nat.le_refl _)
  | join tag kind m k ht hdone =>
    rw [hnot ht (by simp)]
    exact h.join ht hdone

end Parts

/-- What holds in every state. -/
def Inv (w : String) (x : System × Nat) : Prop := ∃ sec busy, Guarded x.1 sec ∧ Parts w x busy

section Run
variable {w : String} {x x' : System × Nat} {move : Move}

theorem inv_fresh (w : String) : Inv w fresh := by
  refine ⟨.outside, none, ⟨by simp [fresh], by simp [fresh], fun _ => rfl, by simp, by simp [fresh]⟩,
    ⟨by simp [fresh], by simp, ?_, by simp [fresh]⟩⟩
  exact .missing rfl rfl rfl rfl

/-- What a caller does begins outside of the lock, and with no part or that of a start. -/
theorem Idle.listed {tag : Tag} (htag : tag.listed = true) (owner : Option (Tid Kind)) (t : Tid Kind) :
    Idle w owner t ⟨tag, code tag⟩ := by
  cases tag with
  | addProcess config => exact ⟨.apart, roles_addProcess config, .inl rfl⟩
  | start name rounds =>
    by_cases hname : name = w
    · subst hname
      exact ⟨.called, roles_start rounds, .inr ⟨.inl rfl, name, rounds, rfl⟩⟩
    · exact ⟨.apart, roles_start_other hname rounds, .inl rfl⟩
  | _ => cases htag

theorem Inv.watch (h : Inv w x) (horderly : Orderly w x move) (hmove : watch w x move = some x') : Inv w x' := by
  obtain ⟨s, n⟩ := x
  obtain ⟨sec, busy, hg, hp⟩ := h
  cases move with
  | call m tag =>
    simp only [Supervisor.watch] at hmove
    split at hmove
    · rename_i htag
      obtain ⟨s', hplay, rfl⟩ := Option.map_eq_some_iff.1 hmove
      simp only [Threads.play] at hplay
      split at hplay
      · rename_i hcall
        cases hplay
        obtain ⟨-, hidle⟩ : rules.kind tag = none ∧ s.running (.caller m) = none := by simpa using hcall
        exact ⟨sec, busy, hg.begin hidle (by simp) (sections_listed (.inl htag)), hp.begin hidle (.listed htag _ _)⟩
      · cases hplay
    · cases hmove
  | act t env =>
    obtain ⟨s', hact, rfl⟩ := Option.map_eq_some_iff.1 hmove
    have hacted := Threads.acted_of_act? hact
    obtain ⟨sec', hg'⟩ := hg.acted hacted
    obtain ⟨busy', hp'⟩ := hp.acted hg horderly hacted
    exact ⟨sec', busy', hg', hp'⟩

theorem Inv.bounded (h : Inv w x) : Bounded w x := by
  obtain ⟨sec, busy, hg, hp⟩ := h
  intro entry hentry
  have hrecord : x.1.mem.record w = some (entry.config, entry.state.status) := by simp [Shared.record, hentry]
  cases hp.books with
  | missing hnone => exact absurd (hnone.symm.trans hrecord) (by simp)
  | kept config status hfound haccount =>
    cases hfound.symm.trans hrecord
    refine ⟨haccount.restarts_le, fun hquiet hpolicy hexceeded => ?_⟩
    have hlead : lead busy = .apart ∨ lead busy = .starting := by
      cases hbusy : busy with
      | none => exact .inl rfl
      | some y =>
        obtain ⟨u, role⟩ := y
        obtain ⟨-, task, hu, -, ⟨rfl, -⟩ | ⟨-, ⟨m, rounds, rfl, htag⟩, -⟩⟩ := hp.plays u role hbusy
        · exact .inr rfl
        · have hrunning : x.1.monitored w = true := hg.monitored (hu.trans (by rw [← htag]))
          exact absurd (hrunning.symm.trans hquiet) (by simp)
    change entry.config.maxRestarts.toNat < eventsOf .crashed w (x.1.mem.events.drop x.2) at hexceeded
    rcases hlead with hlead | hlead <;> rw [hlead] at haccount
    · obtain ⟨hrestarts, hcrashes, hmax, hreason⟩ := haccount
      rcases hreason (by omega) with hagain | hnever | hfailed
      · have := hmax hagain
        omega
      · exact absurd hnever hpolicy
      · exact hfailed
    · obtain ⟨-, hnone⟩ := haccount
      omega

end Run

/-- **Restarts.** In every run in which starts take effect beside no monitor thread, and a monitor thread that restarts its
    process finds itself in `monitor_thread`, the restarts are bounded by `max_restarts` in every state. -/
theorem restarts_bounded {w : String} {moves : List Move} (h : Each (watch w) fresh moves (Orderly w)) :
    Always (watch w) fresh moves fun _ => Bounded w :=
  always_of_each (fun _ _ _ hinv horderly hmove => hinv.watch horderly hmove) (fun _ hinv => hinv.bounded) (inv_fresh w) h

/-- `add_process` with `max_restarts` 1, and the first acts of a `start`. It is over after 16; after 13 the monitor thread
    runs and is not stored. -/
def startUp (acts : Nat) : List Move :=
  .call 0 (.addProcess { name := "w", maxRestarts := 1 }) :: go 4 (.caller 0) {} ++
    .call 0 (.start "w" 2) :: go acts (.caller 0) {}

/-- A process that fails and cannot be forked again, is started once more, and fails again: it is restarted once, and its
    monitor thread is about to join itself. -/
theorem restarts_bounded_again : ∃ moves x, runAll (watch "w") fresh moves = some x ∧ Bounded "w" x ∧
    eventsOf .restarted "w" x.1.mem.events = 2 ∧ restartsSince "w" x = 1 ∧
    Threads.SelfBlocked x.1 (.forked .monitor 1) := by
  let moves : List Move := startUp 16 ++ go 19 (.forked .monitor 0) { waited := some 256, forked := .error "EAGAIN" } ++
    .call 0 (.start "w" 2) :: go 18 (.caller 0) {} ++ go 23 (.forked .monitor 1) { waited := some 256 }
  obtain ⟨x, hrun, htest⟩ := (Option.any_eq_true _ _).1 (show (runAll (watch "w") fresh moves).any (fun x =>
    eventsOf .restarted "w" x.1.mem.events == 2 && restartsSince "w" x == 1 &&
      Threads.selfBlocked? (.forked .monitor 1) x.1) from rfl)
  obtain ⟨⟨htwice, honce⟩, hself⟩ : (eventsOf .restarted "w" x.1.mem.events = 2 ∧ restartsSince "w" x = 1) ∧
      Threads.selfBlocked? (.forked .monitor 1) x.1 = true := by simpa using htest
  have horderly : eachTest (watch "w") (Orderly "w") fresh moves = true := by decide +kernel
  have hbounded := restarts_bounded (each_of_test horderly) moves x List.prefix_rfl hrun
  exact ⟨moves, x, hrun, hbounded, htwice, honce, Threads.selfBlocked_of_test hself⟩

/-- A process with `max_restarts` 1 fails before its monitor thread is stored, and fails again: it has been restarted
    twice. -/
theorem restarts_unbounded : ∃ moves x entry, runAll (watch "w") fresh moves = some x ∧
    x.1.mem.entry "w" = some entry ∧ entry.config.maxRestarts = 1 ∧ restartsSince "w" x = 2 ∧ ¬ Bounded "w" x := by
  let moves : List Move := startUp 13 ++ go 24 (.forked .monitor 0) { waited := some 256 } ++
    go 14 (.forked .monitor 1) { waited := some 256 }
  obtain ⟨x, hrun, htest⟩ := (Option.any_eq_true _ _).1 (show (runAll (watch "w") fresh moves).any (fun x =>
    (x.1.mem.entry "w").any (·.config.maxRestarts == 1) && restartsSince "w" x == 2) from rfl)
  obtain ⟨hentry, htwice⟩ : (x.1.mem.entry "w").any (·.config.maxRestarts == 1) = true ∧ restartsSince "w" x = 2 := by
    simpa using htest
  obtain ⟨entry, hentry, hmax⟩ := (Option.any_eq_true _ _).1 hentry
  have hone : entry.config.maxRestarts = 1 := by simpa using hmax
  refine ⟨moves, x, entry, hrun, hentry, hone, htwice, fun hbounded => ?_⟩
  have hle := (hbounded entry hentry).1
  rw [htwice, hone] at hle
  exact absurd hle (by decide)

end RedisOps.Supervisor
