import RedisOps.Supervisor.Alone
import RedisOps.Supervisor.Locks
import RedisOps.Supervisor.Roles

/-!
# The table and the account of a process

What the acts of `add_process`, `start` and the monitor threads do to the supervisor.

* `exec_frame` — the entry that an access writes, and the events that it reports; all else stays.
* `Guarded` — what is under the lock: a name that the owner of the lock has not found is not there. So no entry is
  overwritten (`Guarded.acted`, `Guarded.insert_missing`).
* `Books` — the `RESTARTED` and `CRASHED` events of one process, as the part of the thread that has one in it wants them
  (`Books.mem`, `Books.mem_idle`).
-/

namespace RedisOps.Supervisor

open Lib

abbrev System := Threads Shared Op Kind Tag Op.Ret Unit

/-- What the callers use here. -/
def Tag.listed : Tag → Bool
  | .addProcess _ => true
  | .start _ _ => true
  | _ => false

/-! ## What an access changes -/

/-- The name whose entry it writes. -/
def Op.writes : Op → Option String
  | .insert config => some config.name
  | .erase name => some name
  | .set name _ => some name
  | .assignMonitor name _ => some name
  | _ => none

/-- The events it reports. -/
def Op.reports : Op → List ProcessEvent
  | .emit event => [event]
  | _ => []

section Frame
variable {env : Env} {o : Op} {r : o.Ret} {m m' : Shared} {name : String}

theorem exec_frame (hex : exec env o m = some (r, m')) :
    m'.events = m.events ++ o.reports ∧ ∀ name, o.writes ≠ some name → m'.entry name = m.entry name := by
  have hsame : m.events = m.events ++ [] := (List.append_nil _).symm
  have hput : ∀ {other entry}, o.writes = some other → ∀ name, o.writes ≠ some name →
      (m.put other entry).entry name = m.entry name := by
    intro other entry hother name hname
    apply entry_put_of_ne
    rintro rfl
    exact hname hother
  cases o with
  | insert config =>
    cases hex
    exact ⟨hsame, hput rfl⟩
  | erase other =>
    simp only [exec] at hex
    split at hex
    · cases hex
      exact ⟨hsame, fun name hname => AList.lookup_erase_ne fun heq => hname (congrArg some heq.symm)⟩
    · cases hex
  | set other f =>
    obtain ⟨entry, -, heq⟩ := Option.map_eq_some_iff.1 hex
    cases heq
    exact ⟨hsame, hput rfl⟩
  | assignMonitor other n =>
    obtain ⟨entry, -, heq⟩ := Option.bind_eq_some_iff.1 hex
    split at heq
    · cases heq
      exact ⟨hsame, hput rfl⟩
    · cases heq
  | emit event =>
    cases hex
    exact ⟨rfl, fun _ _ => rfl⟩
  | get other =>
    obtain ⟨entry, -, heq⟩ := Option.map_eq_some_iff.1 hex
    cases heq
    exact ⟨hsame, fun _ _ => rfl⟩
  | belowMax other =>
    obtain ⟨entry, -, heq⟩ := Option.map_eq_some_iff.1 hex
    cases heq
    exact ⟨hsame, fun _ _ => rfl⟩
  | monitorThread other =>
    obtain ⟨entry, -, heq⟩ := Option.map_eq_some_iff.1 hex
    cases heq
    exact ⟨hsame, fun _ _ => rfl⟩
  | assignWatchdog n =>
    simp only [exec] at hex
    split at hex
    · cases hex
      exact ⟨hsame, fun _ _ => rfl⟩
    · cases hex
  | _ =>
    cases hex
    exact ⟨hsame, fun _ _ => rfl⟩

/-- What is not there is only put there by `add_process`. -/
theorem exec_missing (hex : exec env o m = some (r, m')) (hnone : m.entry name = none)
    (hinsert : ∀ config, o = .insert config → config.name ≠ name) : m'.entry name = none := by
  by_cases ho : o.writes = some name
  · cases o with
    | insert config => exact absurd (Option.some.inj ho) (hinsert config rfl)
    | erase other =>
      cases ho
      simp only [exec] at hex
      split at hex
      · cases hex
        exact AList.lookup_erase _ _
      · cases hex
    | set other f =>
      cases ho
      simp [exec, hnone] at hex
    | assignMonitor other n =>
      cases ho
      simp [exec, hnone] at hex
    | _ => cases ho
  · rw [(exec_frame hex).2 name ho, hnone]

end Frame

/-! ## The table under the lock -/

/-- The owner of the lock is in `sec`, and a name that it has not found is not there. -/
structure Guarded (s : System) (sec : Section) : Prop where
  phase : ∀ t task, s.running t = some task →
    Prog.Obeys sections Left (if s.owner = some t then sec else .outside) task.prog
  locked : ∀ t, s.owner = some t → sec ≠ .outside ∧ s.running t ≠ none
  unlocked : s.owner = none → sec = .outside
  missing : ∀ name, sec = .missing name → s.mem.entry name = none
  numbered : ∀ kind n, s.forks ≤ n → s.running (.forked kind n) = none

section Guarded
variable {env : Env} {s : System} {sec sec' : Section} {t : Tid Kind} {tag : Tag} {p : Code Unit}

/-- Thread `t` goes on. What is said of the others is not touched by that. -/
theorem guarded_goOn
    (hphase : ∀ u task, u ≠ t → s.running u = some task →
      Prog.Obeys sections Left (if s.owner = some u then sec else .outside) task.prog)
    (ht : Prog.Obeys sections Left (if s.owner = some t then sec else .outside) p)
    (hlocked : ∀ u, s.owner = some u → sec ≠ .outside ∧ (u ≠ t → s.running u ≠ none))
    (hunlocked : s.owner = none → sec = .outside) (hmissing : ∀ name, sec = .missing name → s.mem.entry name = none)
    (hnumbered : ∀ kind n, s.forks ≤ n → s.running (.forked kind n) = none)
    (hold : ∀ kind n, t = .forked kind n → n < s.forks) : Guarded (s.goOn t tag p) sec where
  phase := goOn_forall hphase ht
  locked u hu := by
    refine ⟨(hlocked u hu).1, fun hnone => ?_⟩
    rcases goOn_none hnone with ⟨rfl, a, rfl⟩ | ⟨hut, hrun⟩
    · have hout : sec = .outside := by
        change s.owner = some u at hu
        simpa [hu, Left] using ht
      exact (hlocked u hu).1 hout
    · exact (hlocked u hu).2 hut hrun
  unlocked := hunlocked
  missing := hmissing
  numbered kind n hn := by
    have hne : (Tid.forked kind n) ≠ t := fun heq => absurd (hold kind n heq.symm) (Nat.not_lt.2 hn)
    simpa [Threads.goOn, hne] using hnumbered kind n hn

theorem Guarded.old (h : Guarded s sec) {task : Task Tag (Act Op Kind Tag) (Act.Ret Op.Ret) Unit}
    (ht : s.running t = some task) : ∀ kind n, t = .forked kind n → n < s.forks := by
  rintro kind n rfl
  by_contra hn
  exact absurd (h.numbered kind n (Nat.le_of_not_lt hn)) (by simp [ht])

/-- An access by the owner of the lock. -/
theorem sections_mem {o : Op} {r : o.Ret} {m m' : Shared} (hex : exec env o m = some (r, m')) (hsec : sec ≠ .outside)
    (hok : sections.ok sec (.mem o)) (hmissing : ∀ name, sec = .missing name → m.entry name = none) :
    sections.next sec (.mem o) r ≠ .outside ∧
      ∀ name, sections.next sec (.mem o) r = .missing name → m'.entry name = none := by
  cases sec with
  | outside => exact absurd rfl hsec
  | inside =>
    cases o with
    | find other =>
      cases hex
      simp only [sections]
      cases hfound : m.entry other with
      | none =>
        refine ⟨by simp, fun name hname => ?_⟩
        obtain rfl : other = name := by simpa using hname
        exact hfound
      | some entry => simp
    | _ => simp [sections]
  | missing other =>
    by_cases hinsert : ∃ config, o = .insert config
    · obtain ⟨config, rfl⟩ := hinsert
      simp [sections]
    · have hstay : sections.next (.missing other) (.mem o) r = .missing other := by
        cases o <;> first | rfl | exact absurd ⟨_, rfl⟩ hinsert
      rw [hstay]
      refine ⟨by simp, fun name hname => ?_⟩
      exact exec_missing hex (hmissing name hname) fun config heq => absurd ⟨config, heq⟩ hinsert

/-- An access by another thread. -/
theorem sections_mem_outside {o : Op} {r : o.Ret} {m m' : Shared} (hex : exec env o m = some (r, m'))
    (hok : sections.ok .outside (.mem o)) :
    sections.next .outside (.mem o) r = .outside ∧ ∀ name, m.entry name = none → m'.entry name = none := by
  refine ⟨by cases o <;> rfl, fun name hnone => exec_missing hex hnone ?_⟩
  rintro config rfl
  exact absurd hok id

theorem sections_fork {x : Section} (hok : sections.ok x (.fork tag)) :
    (∃ name rounds, tag = .monitorProcess name rounds) ∧ ∀ n, sections.next x (.fork tag) n = x := by
  refine ⟨?_, fun n => by cases x <;> rfl⟩
  cases tag with
  | monitorProcess name rounds => exact ⟨name, rounds, rfl⟩
  | _ => cases x <;> exact absurd hok id

theorem sections_join (x : Section) (kind : Kind) (n : Nat) : sections.next x (.join kind n) () = x := by
  cases x <;> rfl

theorem sections_listed {tag : Tag} (htag : tag.listed = true ∨ ∃ name rounds, tag = .monitorProcess name rounds) :
    Prog.Obeys sections Left .outside (code tag) := by
  cases tag with
  | addProcess config => exact sections_addProcess config
  | start name rounds => exact sections_start name rounds
  | monitorProcess name rounds => exact sections_monitorProcess name rounds
  | _ => simp [Tag.listed] at htag

/-- Who acts and keeps the lock as it is. -/
theorem Guarded.goOn (h : Guarded s sec) {task : Task Tag (Act Op Kind Tag) (Act.Ret Op.Ret) Unit}
    (hrun : s.running t = some task) {forks : Nat} (hforks : s.forks ≤ forks)
    (ht : Prog.Obeys sections Left (if s.owner = some t then sec else .outside) p) :
    Guarded (Threads.goOn { s with forks := forks } t tag p) sec :=
  guarded_goOn (fun u task _ hu => h.phase u task hu) ht (fun u hu => ⟨(h.locked u hu).1, fun _ => (h.locked u hu).2⟩)
    h.unlocked h.missing (fun kind n hn => h.numbered kind n (hforks.trans hn))
    fun kind n heq => Nat.lt_of_lt_of_le (h.old hrun kind n heq) hforks

/-- A thread that did not run begins with what it is given. -/
theorem Guarded.begin (h : Guarded s sec) (hrun : s.running t = none) (hold : ∀ kind n, t = .forked kind n → n < s.forks)
    (ht : Prog.Obeys sections Left .outside p) : Guarded (s.goOn t tag p) sec := by
  have hnot : s.owner ≠ some t := fun heq => (h.locked t heq).2 hrun
  refine guarded_goOn (fun u task _ hu => h.phase u task hu) ?_
    (fun u hu => ⟨(h.locked u hu).1, fun _ => (h.locked u hu).2⟩) h.unlocked h.missing h.numbered hold
  rwa [if_neg hnot]

/-- **Step lemma.** -/
theorem Guarded.acted {s' : System} (h : Guarded s sec) (hact : Threads.Acted rules anything s t env s') :
    ∃ sec', Guarded s' sec' := by
  cases hact with
  | mem tag o k r m ht hex _ =>
    obtain ⟨hok, hnext⟩ := h.phase t _ ht
    by_cases hmine : s.owner = some t
    · rw [if_pos hmine] at hok hnext
      obtain ⟨hsec, hmissing⟩ := sections_mem hex (h.locked t hmine).1 hok h.missing
      refine ⟨_, guarded_goOn ?_ ?_ ?_ ?_ hmissing h.numbered (h.old ht)⟩
      · intro u task hut hu
        have hnot : s.owner ≠ some u := fun heq => hut (Option.some.inj (heq.symm.trans hmine))
        have hphase := h.phase u task hu
        rwa [if_neg hnot] at hphase ⊢
      · rw [if_pos hmine]
        exact hnext r
      · intro u hu
        exact ⟨hsec, fun _ => (h.locked u hu).2⟩
      · intro hnone
        exact absurd (hmine.symm.trans hnone) (by simp)
    · rw [if_neg hmine] at hok hnext
      obtain ⟨hstay, hmissing⟩ := sections_mem_outside hex hok
      refine ⟨sec, guarded_goOn (fun u task _ hu => h.phase u task hu) ?_
        (fun u hu => ⟨(h.locked u hu).1, fun _ => (h.locked u hu).2⟩) h.unlocked
        (fun name hname => hmissing name (h.missing name hname)) h.numbered (h.old ht)⟩
      rw [if_neg hmine]
      exact hstay ▸ hnext r
  | lock tag k ht hfree =>
    obtain ⟨-, hnext⟩ := h.phase t _ ht
    have hnot : ∀ u, s.owner ≠ some u := fun u heq => absurd (hfree.symm.trans heq) (by simp)
    rw [if_neg (hnot t)] at hnext
    refine ⟨.inside, guarded_goOn ?_ ?_ ?_ (by simp) (by simp) h.numbered (h.old ht)⟩
    · intro u task hut hu
      have hphase := h.phase u task hu
      rw [if_neg (hnot u)] at hphase
      rwa [if_neg (by simpa using Ne.symm hut)]
    · rw [if_pos rfl]
      exact hnext ()
    · intro u hu
      exact ⟨by simp, fun hut => absurd (Option.some.inj hu).symm hut⟩
  | unlock tag k ht hmine =>
    obtain ⟨-, hnext⟩ := h.phase t _ ht
    rw [if_pos hmine] at hnext
    have hend : sections.next sec .unlock () = .outside := by cases sec <;> rfl
    refine ⟨.outside, guarded_goOn ?_ ?_ (by simp) (by simp) (by simp) h.numbered (h.old ht)⟩
    · intro u task hut hu
      have hnot : s.owner ≠ some u := fun heq => hut (Option.some.inj (heq.symm.trans hmine))
      have hphase := h.phase u task hu
      rwa [if_neg hnot] at hphase
    · exact hend ▸ hnext ()
  | fork tag tag' kind k ht hkind =>
    obtain ⟨hok, hnext⟩ := h.phase t _ ht
    obtain ⟨hmonitor, hstay⟩ := sections_fork hok
    have hparent : Guarded (Threads.goOn { s with forks := s.forks + 1 } t tag (k s.forks)) sec :=
      h.goOn ht (Nat.le_succ _) (hstay _ ▸ hnext s.forks)
    refine ⟨sec, hparent.begin ?_ ?_ (sections_listed (.inr hmonitor))⟩
    · have hne : Tid.forked kind s.forks ≠ t := fun heq => absurd (h.old ht kind s.forks heq.symm) (Nat.lt_irrefl _)
      simpa [Threads.goOn, hne] using h.numbered kind s.forks (Nat.le_refl _)
    · rintro kind' n heq
      cases heq
      exact Nat.lt_succ_self _
  | join tag kind n k ht hdone =>
    obtain ⟨-, hnext⟩ := h.phase t _ ht
    have hstay := sections_join (if s.owner = some t then sec else .outside) kind n
    exact ⟨sec, h.goOn ht (Nat.le_refl _) (hstay ▸ hnext ())⟩

/-- What `add_process` puts in was not there. -/
theorem Guarded.insert_missing (h : Guarded s sec) {config : ProcessConfig} {k : Unit → Code Unit}
    (ht : s.running t = some ⟨tag, .op (.mem (.insert config)) k⟩) : s.mem.entry config.name = none := by
  have hok := (h.phase t _ ht).1
  by_cases hmine : s.owner = some t
  · rw [if_pos hmine] at hok
    cases hsec : sec with
    | missing name =>
      subst hsec
      exact (show config.name = name from hok) ▸ h.missing name rfl
    | _ =>
      subst hsec
      exact absurd hok id
  · rw [if_neg hmine] at hok
    exact absurd hok id

theorem Guarded.not_erase (h : Guarded s sec) {name : String} {k : Unit → Code Unit} :
    s.running t ≠ some ⟨tag, .op (.mem (.erase name)) k⟩ := by
  intro ht
  have hok := (h.phase t _ ht).1
  generalize (if s.owner = some t then sec else .outside) = x at hok
  cases x <;> exact absurd hok id

end Guarded

/-! ## The account of one process -/

/-- How many events of this type there are about `name`. -/
def eventsOf (type : EventType) (name : String) (events : List ProcessEvent) : Nat :=
  events.countP fun event => event.type = type ∧ event.processName = name

/-- Policy, bound and status of `name`, if it is there. -/
def Shared.record (m : Shared) (name : String) : Option (ProcessConfig × Status) :=
  (m.entry name).map fun entry => (entry.config, entry.state.status)

/-- What the reports since the last start come to, by the part of the thread that has one (`apart`, if none has). -/
def Account (config : ProcessConfig) (status : Status) (restarts crashes : Nat) : Role → Prop
  | .apart => restarts ≤ 1 ∧ crashes ≤ 1 ∧ (0 < restarts → 0 < config.maxRestarts.toNat) ∧
      (0 < crashes → 0 < restarts ∨ config.restartPolicy = .never ∨ status = .failed)
  | .starting => restarts = 0 ∧ crashes = 0
  | .watching seen => restarts = 0 ∧ crashes = 0 ∧ ∀ policy ∈ seen, config.restartPolicy = policy
  | .crashed policy => restarts = 0 ∧ crashes = 1 ∧ config.restartPolicy = policy
  | .due => restarts = 0 ∧ crashes = 1 ∧ 0 < config.maxRestarts.toNat
  | .exceeded => restarts = 0 ∧ crashes = 1
  | .gaveUp => restarts = 0 ∧ crashes = 1 ∧ status = .failed
  | .restarted => restarts = 1 ∧ crashes = 1 ∧ 0 < config.maxRestarts.toNat
  | .joining _ => restarts = 1 ∧ crashes = 1 ∧ 0 < config.maxRestarts.toNat
  | _ => False

/-- `events` are those since the last start. -/
inductive Books (w : String) (m : Shared) (events : List ProcessEvent) (role : Role) : Prop
  | missing : m.record w = none → role = .apart → eventsOf .restarted w events = 0 → eventsOf .crashed w events = 0 →
      Books w m events role
  | kept (config : ProcessConfig) (status : Status) : m.record w = some (config, status) →
      Account config status (eventsOf .restarted w events) (eventsOf .crashed w events) role → Books w m events role

section Account
variable {w : String} {env : Env} {o : Op} {r : o.Ret} {m m' : Shared} {events events' : List ProcessEvent} {role : Role}

theorem Books.ends (h : Books w m events role) (hends : role.Ends ()) : Books w m events .apart := by
  cases h with
  | missing hnone hrole hrestarts hcrashes => exact .missing hnone rfl hrestarts hcrashes
  | kept config status hrecord haccount =>
    refine .kept config status hrecord ?_
    cases role <;> simp_all [Account, Role.Ends]

/-- There is nothing to account for before the look, and no thread goes astray. -/
theorem Books.looked (h : Books w m events role) : role ≠ .called ∧ role ≠ .asking ∧ role ≠ .astray := by
  refine ⟨?_, ?_, ?_⟩
  all_goals
    rintro rfl
    cases h with
    | missing _ heq => cases heq
    | kept config status _ haccount => exact haccount

theorem eventsOf_other {type : EventType} (h : ∀ event ∈ events', event.type = type → event.processName ≠ w) :
    eventsOf type w (events ++ events') = eventsOf type w events := by
  unfold eventsOf
  rw [List.countP_append, Nat.add_eq_left, List.countP_eq_zero]
  intro event hevent
  simpa using h event hevent

/-- An access that is not about `w`, or only looks, leaves the account alone. -/
theorem Books.same (h : Books w m events role) (hrecord : m'.record w = m.record w)
    (hreports : ∀ event ∈ o.reports, event.type = .restarted ∨ event.type = .crashed → event.processName ≠ w) :
    Books w m' (events ++ o.reports) role := by
  have hrestarts : eventsOf .restarted w (events ++ o.reports) = eventsOf .restarted w events :=
    eventsOf_other fun event hevent htype => hreports event hevent (.inl htype)
  have hcrashes : eventsOf .crashed w (events ++ o.reports) = eventsOf .crashed w events :=
    eventsOf_other fun event hevent htype => hreports event hevent (.inr htype)
  cases h with
  | missing hnone hrole hr hc => exact .missing (hrecord.trans hnone) hrole (hrestarts.trans hr) (hcrashes.trans hc)
  | kept config status hsome haccount =>
    refine .kept config status (hrecord.trans hsome) ?_
    rwa [hrestarts, hcrashes]

theorem exec_record (hex : exec env o m = some (r, m')) (hset : ∀ f, o ≠ .set w f) (herase : ∀ name, o ≠ .erase name)
    (hinsert : ∀ config, o = .insert config → config.name ≠ w) : m'.record w = m.record w := by
  by_cases ho : o.writes = some w
  · cases o with
    | insert config => exact absurd (Option.some.inj ho) (hinsert config rfl)
    | erase name => exact absurd rfl (herase name)
    | set name f =>
      cases ho
      exact absurd rfl (hset f)
    | assignMonitor name n =>
      cases ho
      obtain ⟨entry, hentry, heq⟩ := Option.bind_eq_some_iff.1 hex
      split at heq
      · cases heq
        simp [Shared.record, hentry]
      · cases heq
    | _ => cases ho
  · rw [Shared.record, (exec_frame hex).2 w ho, Shared.record]

theorem Account.restarts_le {config : ProcessConfig} {status : Status} {restarts crashes : Nat}
    (h : Account config status restarts crashes role) : restarts ≤ config.maxRestarts.toNat := by
  cases role with
  | apart =>
    obtain ⟨hrestarts, -, hmax, -⟩ := h
    omega
  | _ => first | exact absurd h id | (obtain ⟨hrestarts, h⟩ := h; omega)

section About
variable {config : ProcessConfig} {status : Status} {restarts crashes : Nat} {entry : ProcessEntry}

theorem account_get (h : Account config status restarts crashes role) (hrole : role ≠ .apart)
    (hconfig : entry.config = config) :
    Account config status restarts crashes ((roles w).next role (.mem (.get w)) entry) := by
  subst hconfig
  have hnext : (roles w).next role (.mem (.get w)) entry = role.next (.mem (.get w)) entry :=
    roles_next_of (beq_self_eq_true w) rfl
  rw [hnext]
  cases role with
  | apart => exact absurd rfl hrole
  | watching seen =>
    obtain ⟨hrestarts, hcrashes, hseen⟩ := h
    cases seen with
    | none => exact ⟨hrestarts, hcrashes, fun policy hpolicy => Option.some.inj hpolicy⟩
    | some policy =>
      have hsame : (Role.watching (some policy)).next (.mem (.get w)) entry = .watching (some policy) :=
        if_pos (hseen policy rfl)
      rw [hsame]
      exact ⟨hrestarts, hcrashes, hseen⟩
  | _ => first | exact h | exact absurd h id

theorem account_set {f : ProcessEntry → ProcessEntry} (h : Account entry.config entry.state.status restarts crashes role)
    (hok : (roles w).ok role (.mem (.set w f))) :
    Account (f entry).config (f entry).state.status restarts crashes ((roles w).next role (.mem (.set w f)) ()) := by
  have hrole : role ≠ .astray := by
    rintro rfl
    exact h
  obtain ⟨hconfig, hsets⟩ := roles_sets hok hrole
  have hnext : (roles w).next role (.mem (.set w f)) () = role.next (.mem (.set w f)) () :=
    roles_next_of (beq_self_eq_true w) rfl
  rw [hconfig, hnext]
  cases role with
  | exceeded => exact ⟨h.1, h.2, hsets entry⟩
  | gaveUp => exact ⟨h.1, h.2.1, (hsets entry).trans h.2.2⟩
  | watching seen => cases seen <;> exact h
  | _ => first | exact h | exact absurd hsets id

theorem account_belowMax (h : Account entry.config status restarts crashes role) :
    Account entry.config status restarts crashes
      ((roles w).next role (.mem (.belowMax w)) (decide (entry.state.restartCount < entry.config.maxRestarts.toNat))) := by
  have hnext : ∀ below : Bool, (roles w).next role (.mem (.belowMax w)) below = role.next (.mem (.belowMax w)) below :=
    fun below => roles_next_of (beq_self_eq_true w) rfl
  rw [hnext]
  cases role with
  | crashed policy =>
    by_cases hbelow : entry.state.restartCount < entry.config.maxRestarts.toNat
    · rw [decide_eq_true hbelow]
      exact ⟨h.1, h.2.1, Nat.zero_lt_of_lt hbelow⟩
    · rw [decide_eq_false hbelow]
      exact ⟨h.1, h.2.1⟩
  | watching seen => cases seen <;> exact h
  | _ => exact h

theorem account_monitorThread {n : Option Nat} (h : Account config status restarts crashes role)
    (hstored : role = .restarted → n ≠ none) :
    Account config status restarts crashes ((roles w).next role (.mem (.monitorThread w)) n) := by
  have hnext : (roles w).next role (.mem (.monitorThread w)) n = role.next (.mem (.monitorThread w)) n :=
    roles_next_of (beq_self_eq_true w) rfl
  rw [hnext]
  cases role with
  | restarted =>
    cases n with
    | none => exact absurd rfl (hstored rfl)
    | some n => exact h
  | watching seen => cases seen <;> exact h
  | _ => exact h

theorem eventsOf_snoc {type : EventType} {event : ProcessEvent} (hname : event.processName = w) :
    eventsOf type w (events ++ [event]) = eventsOf type w events + if event.type = type then 1 else 0 := by
  simp [eventsOf, hname]

/-- Only a monitor that has read the policy and a restart report what counts. -/
theorem quiet_of_emits {type : EventType} (h : role.Emits type) (hwatching : ∀ policy, role ≠ .watching (some policy))
    (hdue : role ≠ .due) : type ≠ .restarted ∧ type ≠ .crashed := by
  constructor
  all_goals
    rintro rfl
    cases role with
    | watching seen =>
      cases seen with
      | none => exact h
      | some policy => exact hwatching policy rfl
    | due => exact hdue rfl
    | _ => exact h

theorem account_emit {event : ProcessEvent} (hname : event.processName = w)
    (h : Account config status (eventsOf .restarted w events) (eventsOf .crashed w events) role) (hrole : role ≠ .apart)
    (hok : (roles w).ok role (.mem (.emit event))) :
    Account config status (eventsOf .restarted w (events ++ [event])) (eventsOf .crashed w (events ++ [event]))
      ((roles w).next role (.mem (.emit event)) ()) := by
  have hastray : role ≠ .astray := by
    rintro rfl
    exact h
  have hemits := roles_emits hok hname hastray
  have hnext : (roles w).next role (.mem (.emit event)) () = role.next (.mem (.emit event)) () :=
    roles_next_of (beq_iff_eq.2 hname) rfl
  rw [eventsOf_snoc hname, eventsOf_snoc hname, hnext]
  cases role with
  | watching seen =>
    cases seen with
    | none =>
      obtain ⟨hrestarted, hcrashed⟩ := quiet_of_emits hemits (by simp) (by simp)
      rw [if_neg hrestarted, if_neg hcrashed]
      exact h
    | some policy =>
      obtain ⟨hrestarts, hcrashes, hseen⟩ := h
      have hrestarted : event.type ≠ .restarted := by
        intro htype
        rw [htype] at hemits
        exact hemits
      by_cases hcrashed : event.type = .crashed
      · have hrole' : (Role.watching (some policy)).next (.mem (.emit event)) () = .crashed policy := if_pos hcrashed
        rw [hrole', if_neg hrestarted, if_pos hcrashed, hrestarts, hcrashes]
        exact ⟨rfl, rfl, hseen policy rfl⟩
      · have hrole' : (Role.watching (some policy)).next (.mem (.emit event)) () = .apart := if_neg hcrashed
        rw [hrole', if_neg hrestarted, if_neg hcrashed, hrestarts, hcrashes]
        exact ⟨Nat.zero_le 1, Nat.zero_le 1, fun h => absurd h (by decide), fun h => absurd h (by decide)⟩
  | due =>
    obtain ⟨hrestarts, hcrashes, hmax⟩ := h
    have htype : event.type = .restarted := hemits
    rw [if_pos htype, if_neg (by rw [htype]; decide), hrestarts, hcrashes]
    exact ⟨rfl, rfl, hmax⟩
  | apart => exact absurd rfl hrole
  | _ =>
    obtain ⟨hrestarted, hcrashed⟩ := quiet_of_emits hemits (by simp) (by simp)
    rw [if_neg hrestarted, if_neg hcrashed]
    exact h

end About

/-- **Account lemma.** An access by the thread that has a part in `w`. -/
theorem Books.mem (h : Books w m events role) (hrole : role ≠ .apart) (hok : (roles w).ok role (.mem o))
    (hex : exec env o m = some (r, m')) (hinsert : ∀ config, o = .insert config → m.entry config.name = none)
    (herase : ∀ name, o ≠ .erase name)
    (hstored : role = .restarted → o = .monitorThread w → (m.entry w).bind (·.monitorThread) ≠ none) :
    Books w m' (events ++ o.reports) ((roles w).next role (.mem o) r) := by
  have hbooks := h
  cases h with
  | missing _ heq => exact absurd heq hrole
  | kept config status hrecord haccount =>
    obtain ⟨entry, hentry, heq⟩ := Option.map_eq_some_iff.1 hrecord
    cases heq
    by_cases habout : about w (.mem o) = true
    · cases o with
      | get name =>
        obtain rfl : name = w := by simpa [about] using habout
        obtain ⟨found, hfound, heq⟩ := Option.map_eq_some_iff.1 hex
        cases heq
        cases hentry.symm.trans hfound
        exact .kept _ _ hrecord (by simpa [Op.reports] using account_get haccount hrole rfl)
      | set name f =>
        obtain rfl : name = w := by simpa [about] using habout
        obtain ⟨found, hfound, heq⟩ := Option.map_eq_some_iff.1 hex
        cases heq
        cases hentry.symm.trans hfound
        exact .kept (f entry).config (f entry).state.status (by simp [Shared.record])
          (by simpa [Op.reports] using account_set haccount hok)
      | belowMax name =>
        obtain rfl : name = w := by simpa [about] using habout
        obtain ⟨found, hfound, heq⟩ := Option.map_eq_some_iff.1 hex
        cases heq
        cases hentry.symm.trans hfound
        exact .kept _ _ hrecord (by simpa [Op.reports] using account_belowMax haccount)
      | monitorThread name =>
        obtain rfl : name = w := by simpa [about] using habout
        obtain ⟨found, hfound, heq⟩ := Option.map_eq_some_iff.1 hex
        cases heq
        cases hentry.symm.trans hfound
        refine .kept _ _ hrecord ?_
        have hthread : role = .restarted → entry.monitorThread ≠ none := by simpa [hentry] using fun h => hstored h rfl
        simpa [Op.reports] using account_monitorThread haccount hthread
      | emit event =>
        have hname : event.processName = w := by simpa [about] using habout
        cases hex
        exact .kept _ _ hrecord (account_emit hname haccount hrole hok)
      | _ => cases habout
    · have hnext : (roles w).next role (.mem o) r = role := by
        simp [habout]
      rw [hnext]
      refine hbooks.same ?_ ?_
      · refine exec_record hex ?_ herase ?_
        · rintro f rfl
          simp [about] at habout
        · rintro config rfl hname
          have hnone := hinsert config rfl
          rw [hname, hentry] at hnone
          cases hnone
      · intro event hevent _ hname
        cases o with
        | emit event' =>
          obtain rfl : event = event' := by simpa [Op.reports] using hevent
          simp [about, hname] at habout
        | _ => simp [Op.reports] at hevent

/-- An access by a thread that has none. -/
theorem Books.mem_idle {part : Role} (h : Books w m events role) (hpart : part = .apart ∨ part = .called ∨ part = .asking)
    (hok : (roles w).ok part (.mem o)) (hex : exec env o m = some (r, m'))
    (hinsert : ∀ config, o = .insert config → m.entry config.name = none) (herase : ∀ name, o ≠ .erase name) :
    Books w m' (events ++ o.reports) role := by
  by_cases hadded : ∃ config, o = .insert config ∧ config.name = w
  · obtain ⟨config, rfl, rfl⟩ := hadded
    have hnone : m.record config.name = none := by simp [Shared.record, hinsert config rfl]
    cases h with
    | missing _ hrole hrestarts hcrashes =>
      subst hrole
      cases hex
      refine .kept config .stopped (by simp [Shared.record]) ?_
      simp [Op.reports, hrestarts, hcrashes, Account]
    | kept _ _ hrecord => exact absurd (hnone.symm.trans hrecord) (by simp)
  · refine h.same (exec_record hex ?_ herase fun config heq hname => hadded ⟨config, heq, hname⟩) ?_
    · rintro f rfl
      rcases hpart with rfl | rfl | rfl <;> exact absurd (hok rfl).2 id
    · intro event hevent htype hname
      cases o with
      | emit event' =>
        obtain rfl : event = event' := by simpa [Op.reports] using hevent
        have hemits : part.Emits event.type := roles_emits hok hname (by rcases hpart with rfl | rfl | rfl <;> simp)
        rcases hpart with rfl | rfl | rfl <;> rcases htype with htype | htype <;> rw [htype] at hemits <;>
          exact hemits
      | _ => simp [Op.reports] at hevent

end Account

end RedisOps.Supervisor
