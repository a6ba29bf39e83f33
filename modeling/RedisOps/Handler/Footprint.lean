import RedisOps.Handler.Session
import RedisOps.Lib.Isolation
import RedisOps.Store.Cells

/-!
# Which entries a command touches

`footprint` names the cells that a command reads or writes, from its words alone: mostly the one entry of its first
argument, and for the commands of jobs, metrics, sandboxes and time series the entries their keys are built for. Five
commands list the keys, and may read any entry; `job next` marks whatever job it takes.

A group of connections whose commands stay within a set of cells is isolated by it: whatever all the others do outside of
that set, at any time, the group sees a run of its own (`isolated`).
-/

namespace RedisOps.Handler

open Lib Store Proto

/-- The entries with these keys. -/
def entries (keys : List String) : Set Cell := {c | ∃ key ∈ keys, c = .entry key}

/-- All entries. -/
def everyEntry : Set Cell := {c | ∃ key, c = .entry key}

/-- The entries of the first argument, by the keys made of it. -/
def entriesOf (keys : String → List String) (args : List String) : Set Cell :=
  match args with
  | [] => ∅
  | arg :: _ => entries (keys arg)

def footprint (args : List String) : Word → Set Cell
  | .auth | .config => {.auth}
  | .keys | .jobList | .metricSummary | .sandboxStatus | .tsList => everyEntry
  | .jobSubmit => entriesOf (fun id => [queueKey, jobKey id, jobStatusKey id]) args
  | .jobNext => entries [queueKey] ∪ {c | ∃ id, c = .entry (jobStatusKey id)}
  | .jobStatus => entriesOf (fun id => [jobStatusKey id]) args
  | .jobResult => entriesOf (fun id => [jobStatusKey id, jobResultKey id, resultsKey]) args
  | .jobLog => entriesOf (fun id => [jobLogKey id]) args
  | .metricRecord => entries [metricsKey, metricsTsKey]
  | .metricQuery => entries [metricsKey]
  | .sandboxRegister => entriesOf (fun id => [sandboxKey id, sandboxStatusKey id]) args
  | .sandboxClaim | .sandboxRelease => entriesOf (fun id => [sandboxStatusKey id, sandboxJobKey id]) args
  | .tsAdd => entriesOf (fun name => [seriesKey name, seriesLastKey name, seriesCountKey name]) args
  | .tsRange => entriesOf (fun name => [seriesKey name]) args
  | .tsInfo => entriesOf (fun name => [seriesKey name, seriesLastKey name]) args
  | _ => entriesOf (fun key => [key]) args

/-- The cells of a request; one that is refused for its word touches none. -/
def Request.cells (q : Request) : Set Cell :=
  match q.word with
  | some word => footprint q.args.tail word
  | none => ∅

variable {F : Type}

/-- An operation on cells of `K`. -/
def Within (K : Set Cell) (o : Op F) : Prop := o.cells ⊆ K

theorem within_entry {o : Op F} {key : String} {K : Set Cell} (ho : o.cells = {c | ∃ k, some key = some k ∧ c = .entry k})
    (hkey : .entry key ∈ K) : Within K o := by
  intro c hc
  rw [ho] at hc
  obtain ⟨k, hk, rfl⟩ := hc
  cases hk
  exact hkey

@[simp] theorem mem_entries {key : String} {keys : List String} : Cell.entry key ∈ entries keys ↔ key ∈ keys := by
  simp [entries]

@[simp] theorem entriesOf_cons (keys : String → List String) (arg : String) (args : List String) :
    entriesOf keys (arg :: args) = entries (keys arg) := rfl

theorem all_jobNext {K : Set Cell} (hqueue : .entry queueKey ∈ K) (hstatus : ∀ id, .entry (jobStatusKey id) ∈ K) :
    (jobNext : Cmd F Response).All (Within K) fun _ => True := by
  apply all_await (within_entry rfl hqueue)
  intro payload
  split
  · split
    · exact all_await (within_entry rfl (hstatus _)) fun _ => trivial
    · trivial
  · trivial

variable [F64 F]

omit [F64 F] in
theorem within_everyEntry {o : Op F} (ho : ∀ c ∈ o.cells, ∃ key, c = .entry key) : Within everyEntry o := ho

omit [F64 F] in
theorem all_countJobs {P : Op F → Prop} (hP : ∀ key, P (.getStr key)) : ∀ ks c,
    (countJobs ks c : Cmd F JobCounts).All P fun _ => True
  | [], _ => trivial
  | key :: ks, c => by
    unfold countJobs
    split
    · exact all_await (hP _) fun _ => all_countJobs hP ks _
    · exact all_countJobs hP ks c

omit [F64 F] in
/-- The commands that list the keys. -/
theorem all_everyEntry (args : List String) :
    (keysCmd args : Cmd F Response).All (Within everyEntry) (fun _ => True) ∧
      (jobList args : Cmd F Response).All (Within everyEntry) (fun _ => True) ∧
      (metricSummary : Cmd F Response).All (Within everyEntry) (fun _ => True) ∧
      (sandboxStatus : Cmd F Response).All (Within everyEntry) (fun _ => True) ∧
      (tsList : Cmd F Response).All (Within everyEntry) fun _ => True := by
  have hkeys : Within everyEntry (.keys : Op F) := within_everyEntry fun _ h => h
  have hentry : ∀ {o : Op F} {key : String}, o.cells = {c | ∃ k, some key = some k ∧ c = .entry k} → Within everyEntry o :=
    fun ho => within_entry ho ⟨_, rfl⟩
  refine ⟨?_, ?_, ?_, ?_, ?_⟩
  · unfold keysCmd
    split
    · exact all_await hkeys fun _ => trivial
    · trivial
  · refine all_await hkeys fun ks => (Prog.all_bind _ _).2 ?_
    exact (all_jobListLoop (fun _ => hentry rfl) _ ks []).mono (fun _ h => h) fun _ _ => trivial
  · refine all_await (hentry rfl) fun vals => all_await hkeys fun ks => (Prog.all_bind _ _).2 ?_
    refine (all_countJobs (fun _ => hentry rfl) _ _).mono (fun _ h => h) fun _ _ => ?_
    exact all_await (hentry rfl) fun _ => trivial
  · exact all_await hkeys fun _ => trivial
  · exact all_await hkeys fun _ => trivial

omit [F64 F] in
theorem all_connection (args : List String) :
    (auth args : Cmd F Response).All (Within {.auth}) (fun _ => True) ∧
      (config args : Cmd F Response).All (Within {.auth}) fun _ => True := by
  have hread : Within {.auth} (.readAuth : Op F) := fun _ h => h
  have hcert : ∀ val, Within {.auth} (.setTlsCert val : Op F) := fun _ _ h => h
  have hkey : ∀ val, Within {.auth} (.setTlsKey val : Op F) := fun _ _ h => h
  constructor
  · unfold auth
    split
    · refine all_await hread fun cfg => ?_
      repeat' split
      all_goals trivial
    · trivial
  · unfold config
    split
    · split
      · split
        · split
          · exact all_await (hcert _) fun _ => trivial
          · split
            · exact all_await (hkey _) fun _ => trivial
            · trivial
        · trivial
      · split
        · refine all_await hread fun cfg => ?_
          repeat' split
          all_goals trivial
        · trivial
    · trivial

theorem all_footprint (ts : Nat) (args : List String) (word : Word) :
    (handle (F := F) ts args word).All (Within (footprint args word)) fun _ => True := by
  cases word
  case auth => exact (all_connection args).1
  case config => exact (all_connection args).2
  case keys => exact (all_everyEntry args).1
  case jobList => exact (all_everyEntry args).2.1
  case metricSummary => exact (all_everyEntry args).2.2.1
  case sandboxStatus => exact (all_everyEntry args).2.2.2.1
  case tsList => exact (all_everyEntry args).2.2.2.2
  case jobNext =>
    exact all_jobNext (.inl (by simp)) fun id => .inr ⟨id, rfl⟩
  case bfset =>
    simp only [handle, bfset, footprint]
    split
    · repeat refine all_parsed fun _ => ?_
      refine (Prog.all_bind _ _).2 ((all_bitfieldSet (fun _ _ => ?_) _ _ _ _).mono (fun _ h => h) fun _ _ => trivial)
      exact within_entry rfl (by simp)
    · trivial
  case jobLog =>
    simp only [handle, jobLog, footprint]
    split
    · refine all_await (within_entry rfl (by simp)) fun vals => all_await (within_entry rfl (by simp)) fun _ => ?_
      refine (Prog.all_bind _ _).2 ((all_lpushEach (fun _ => ?_) _).mono (fun _ h => h) fun _ _ => trivial)
      exact within_entry rfl (by simp)
    · trivial
  all_goals
    simp only [handle, get, set, delCmd, pexpire, pttl, zadd, zrem, zscore, zquery, lpushCmd, rpush, lpopCmd, rpopCmd,
      lrangeCmd, lindexCmd, llenCmd, lremCmd, setbit, clearbit, getbit, bitcountCmd, bfget, jobSubmit, jobStatus, jobResult,
      metricRecord, metricQuery, sandboxRegister, sandboxClaim, sandboxRelease, tsAdd, tsRange, tsInfo, footprint]
    split
    · repeat refine all_parsed fun _ => ?_
      repeat refine all_await (within_entry rfl (by simp)) fun _ => ?_
      repeat' split
      all_goals trivial
    · trivial

/-- **What a request touches** is within its cells. -/
theorem all_cells (q : Request) : (respond (F := F) q.ts q.args).All (Within q.cells) fun _ => True := by
  unfold Request.cells
  cases hw : q.word with
  | some word =>
    rw [respond_of_word hw]
    exact all_footprint q.ts q.args.tail word
  | none =>
    obtain ⟨ts, args⟩ := q
    cases args with
    | nil => trivial
    | cons w args =>
      have hword : Word.ofString (toLowercase w) = none := hw
      simp only [respond, hword]
      trivial

/-! ## Isolated connections -/

/-- Any number of connections, with any commands, and the sweeper at any time. -/
def serverRules : Rules (World F) Request (Op F) Op.Ret Response Nat where
  exec := exec
  progOf q := respond q.ts q.args
  admitted _ := True
  env w w' := ∃ now, w' = w.swept now

theorem apart_cells (K : Set Cell) :
    Apart (serverRules (F := F)) (Within K) (fun o => Disjoint o.cells K) (Agree K) where
  own _ _ _ _ ho h := exec_agree ho h
  other _ _ _ _ _ _ ho h hex := exec_apart ho h hex
  env w v w' h hsweep := by
    obtain ⟨now, rfl⟩ := hsweep
    exact ⟨v.swept now, ⟨now, rfl⟩, h.sweep now⟩

/-- **Isolation.** A group of connections whose requests stay within the cells `K`, while the requests of the others keep
    out of them: from any state with the same cells `K`, the events of the group, with every answer in them, are a run
    without the others, which leaves the same in `K`. -/
theorem isolated {K : Set Cell} {mine : Nat → Bool} {w₀ v₀ : World F} (h₀ : Agree K w₀ v₀) {evs : List (JobEvent F)}
    {s : Sys (World F) Request (Op F) Op.Ret Response} (h : Trace serverRules w₀ evs s)
    (hcells : ∀ c q answer, .began c q answer ∈ evs → if mine c then q.cells ⊆ K else Disjoint q.cells K) :
    ∃ t, Trace serverRules v₀ (evs.filter (Event.concerns mine)) t ∧ Agree K s.shared t.shared ∧
      ∀ c, t.tasks c = if mine c then s.tasks c else none := by
  have hkeeps : KeepsTo serverRules (Within K) (fun o => Disjoint o.cells K) mine evs := by
    intro c q answer hmem
    have hq := hcells c q answer hmem
    refine (all_cells q).mono (fun o ho => ?_) fun _ h => h
    cases hm : mine c with
    | true =>
      rw [hm, if_pos rfl] at hq
      simpa using (show Within K o from Set.Subset.trans ho hq)
    | false =>
      rw [hm, if_neg Bool.false_ne_true] at hq
      simpa using Set.disjoint_of_subset_left ho hq
  obtain ⟨t, ht, halone⟩ := h.alone (apart_cells K) h₀ hkeeps
  exact ⟨t, ht, halone.shared, halone.tasks⟩

/-- A push by one client and a `SET` of another key by another. -/
def pushOwn : Request := ⟨0, ["lpush", "a", "x"]⟩
def setOther : Request := ⟨0, ["set", "b", "y"]⟩

/-- Both requests begin before either client's operation runs. -/
def pushRun : List (JobEvent Float) :=
  [.began 0 pushOwn none, .began 1 setOther none, .did 1 setOther (.setStr "b" "y") () (some .nil),
    .did 0 pushOwn (.lpush "a" "x") () (some (.int 1))]

/-- The push among the steps of the other client, and beside an entry that was there before. -/
theorem isolated_push :
    ∃ (evs : List (JobEvent Float)) (s : Sys (World Float) Request (Op Float) Op.Ret Response),
      Trace serverRules ⟨∅, {}⟩ evs s ∧
      (∀ c q answer, .began c q answer ∈ evs →
        if c == 0 then q.cells ⊆ entries ["a"] else Disjoint q.cells (entries ["a"])) ∧
      ∃ t, Trace serverRules ⟨setStr ∅ "b" "z", {}⟩ (evs.filter (Event.concerns (· == 0))) t ∧
        Agree (entries ["a"]) s.shared t.shared ∧ ∀ c, t.tasks c = if c == 0 then s.tasks c else none := by
  have hown : pushOwn.cells = entries ["a"] := rfl
  have hother : setOther.cells = entries ["b"] := rfl
  have t₀ : Trace (serverRules (F := Float)) ⟨∅, {}⟩ [] ⟨⟨∅, {}⟩, fun _ => none⟩ := .start
  have t₁ := t₀.next (.begin _ 0 pushOwn rfl trivial)
  have t₂ := t₁.next (.begin _ 1 setOther rfl trivial)
  have t₃ := t₂.next (.op _ 1 setOther (.setStr "b" "y") (fun _ => .ret .nil) 0 () _ rfl rfl)
  have t₄ := t₃.next (.op _ 0 pushOwn (.lpush "a" "x") (fun _ => .ret (.int 1)) 0 () _ rfl rfl)
  have h₀ : Agree (entries ["a"]) (⟨∅, {}⟩ : World Float) ⟨setStr ∅ "b" "z", {}⟩ := by
    refine ⟨?_, ?_, ?_⟩
    · intro key hkey
      rw [mem_entries, List.mem_singleton] at hkey
      subst hkey
      rfl
    · intro hall
      have hb := hall "b"
      rw [mem_entries] at hb
      simp at hb
    · rintro ⟨key, -, h⟩
      cases h
  have hcells : ∀ c q (answer : Option Response), Event.began c q answer ∈ pushRun →
      if c == 0 then q.cells ⊆ entries ["a"] else Disjoint q.cells (entries ["a"]) := by
    intro c q answer hmem
    simp only [pushRun, List.mem_cons, List.not_mem_nil, or_false, reduceCtorEq, Event.began.injEq] at hmem
    rcases hmem with ⟨rfl, rfl, -⟩ | ⟨rfl, rfl, -⟩
    · exact hown.le
    · rw [hother]
      refine Set.disjoint_left.2 ?_
      rintro c ⟨key, hkey, rfl⟩ hc
      rw [mem_entries] at hc
      simp_all
  exact ⟨pushRun, _, t₄, hcells, isolated h₀ t₄ hcells⟩

end RedisOps.Handler
