import RedisOps.BTree.Calls

/-!
# Transaction ids in the log (`wal.rs:21-100`)

A call takes its id from a counter that `next_tx_id` moves on, and commits that id. Any number of calls are
interleaved at their locks.

* `append_write` is not told the id. It reads the counter again (`wal.rs:49-52`), which the call itself has moved
  past its own id: a `put` never tags a record with the id it commits.
* The counter is in memory and starts at 1 with every `WAL::new`, while `open` appends to the file that is there:
  the second life of a log hands out the ids of the first again.
-/

namespace RedisOps.BTree

open Lib

variable {K V : Type}

/-! ## The ids a call holds -/

def Call.isPut : Call K V → Bool
  | .put _ _ => true
  | .delete _ => false

/-- A call before it has an id, with it (and whether it has logged a page), and after its commit. -/
inductive TxPhase where
  | idle
  | holds (tx : Nat) (wrote : Bool)
  | closed

def txProtocol (call : Call K V) : Protocol (PageOp K V) PageOp.Ret TxPhase where
  ok
    | .idle, .readRoot | .idle, .nextTxId => True
    | .holds _ _, .appendWrite _ _ => call.isPut = true
    | .holds tx wrote, .appendCommit t => t = tx ∧ (call.isPut = true → wrote = true)
    | .holds _ _, .nextTxId => False
    | .holds _ _, _ => True
    | _, _ => False
  next
    | .idle, .nextTxId, tx => .holds tx false
    | .holds tx _, .appendWrite _ _, _ => .holds tx true
    | .holds _ _, .appendCommit _, _ => .closed
    | s, _, _ => s

section
variable [LinearOrder K]

/-- A call commits the id it took; a `put` has logged a page by then, a `delete` has not. -/
theorem obeys_call (fuel : Nat) (call : Call K V) :
    Prog.Obeys (txProtocol call) (fun s _ => s = .closed) .idle (call.prog fuel) := by
  cases call with
  | put key value =>
    refine ⟨trivial, fun root => ⟨trivial, fun tx => ?_⟩⟩
    change Prog.Obeys _ _ (TxPhase.holds tx false)
      ((insertInto fuel root key value >>= fun _ => await (.appendCommit tx)) >>= fun _ => .ret none)
    rw [Prog.obeys_bind, Prog.obeys_bind]
    refine (inserts_insertInto fuel root key value .start rfl).map (fun s => TxPhase.holds tx s.logged) ?_ ?_ ?_
    · intro s o hok
      cases o <;> trivial
    · intro s o r hok
      cases o <;> first | rfl | exact hok.elim
    · intro s _ hdone
      exact ⟨⟨rfl, fun _ => hdone.1⟩, fun _ => rfl⟩
  | delete key =>
    refine ⟨trivial, fun root => ⟨trivial, fun tx => ?_⟩⟩
    change Prog.Obeys _ _ (TxPhase.holds tx false)
      ((deleteFrom fuel root key >>= fun found => await (.appendCommit tx) >>= fun _ => .ret found) >>=
        fun found => .ret (some found))
    rw [Prog.obeys_bind, Prog.obeys_bind]
    refine (all_deleteFrom fuel root key).obeys ?_ fun found _ => ⟨⟨rfl, fun h => nomatch h⟩, fun _ => rfl⟩
    intro o ho
    cases o <;> first | exact ⟨trivial, fun _ => rfl⟩ | exact ho.elim

/-- Any number of clients call the engine; nothing else touches it. -/
def treeRules (fuel : Nat) : Rules (Db K V) (Call K V) (PageOp K V) PageOp.Ret (Option Bool) Unit where
  exec _ := exec
  progOf := Call.prog fuel
  admitted _ := True
  env _ _ := False

end

abbrev TreeEvent (K V : Type) := Event (Call K V) (PageOp K V) PageOp.Ret (Option Bool)

abbrev TreeSys (K V : Type) := Sys (Db K V) (Call K V) (PageOp K V) PageOp.Ret (Option Bool)

/-- The id the client's call has taken and not committed, and whether the call has logged a page. -/
def held (evs : List (TreeEvent K V)) (s : TreeSys K V) (c : Nat) : Option (Nat × Bool) :=
  match s.tasks c, phase txProtocol .idle c evs with
  | some _, .holds tx wrote => some (tx, wrote)
  | _, _ => none

theorem held_eq_some {evs : List (TreeEvent K V)} {s : TreeSys K V} {c tx : Nat} {wrote : Bool} :
    held evs s c = some (tx, wrote) ↔
      (∃ t, s.tasks c = some t) ∧ phase txProtocol .idle c evs = .holds tx wrote := by
  unfold held
  cases s.tasks c with
  | none => simp
  | some t => cases phase txProtocol .idle c evs <;> simp

/-! ## Whose record it is -/

/-- A call is named by its client and the number of calls the client had begun with it. -/
abbrev CallId := Nat × Nat

/-- The calls that have appended to the log, one for each record, and the number of calls each client has
    begun. -/
def ownersStep (acc : List CallId × (Nat → Nat)) : TreeEvent K V → List CallId × (Nat → Nat)
  | .began c _ _ => (acc.1, Function.update acc.2 c (acc.2 c + 1))
  | .did c _ (.appendWrite _ _) _ _ => (acc.1 ++ [(c, acc.2 c)], acc.2)
  | .did c _ (.appendCommit _) _ _ => (acc.1 ++ [(c, acc.2 c)], acc.2)
  | _ => acc

def owners (evs : List (TreeEvent K V)) : List CallId × (Nat → Nat) := evs.foldl ownersStep ([], fun _ => 0)

/-- The records of a run with the calls they were appended for. -/
def ledger (db₀ : Db K V) (evs : List (TreeEvent K V)) (s : TreeSys K V) : List (CallId × Record K V) :=
  (owners evs).1.zip (s.shared.wal.drop db₀.wal.length)

/-- Every write record carries the id its call commits, and no other call commits that id. -/
def TagsOk (led : List (CallId × Record K V)) : Prop :=
  ∀ call tx id n, (call, .write tx id n) ∈ led →
    (∀ tx', (call, .commit tx') ∈ led → tx' = tx) ∧ ∀ call', (call', .commit tx) ∈ led → call' = call

/-- A call commits an id below the tag of one of its records. -/
def Overtagged (led : List (CallId × Record K V)) : Prop :=
  ∃ call tx t id n, (call, .commit tx) ∈ led ∧ (call, .write t id n) ∈ led ∧ tx < t

theorem Overtagged.append {led : List (CallId × Record K V)} (h : Overtagged led)
    (rest : List (CallId × Record K V)) : Overtagged (led ++ rest) := by
  obtain ⟨call, tx, t, id, n, hcommit, hwrite, hlt⟩ := h
  exact ⟨call, tx, t, id, n, List.mem_append_left _ hcommit, List.mem_append_left _ hwrite, hlt⟩

theorem Overtagged.not_tagsOk {led : List (CallId × Record K V)} (h : Overtagged led) : ¬ TagsOk led := by
  intro hok
  obtain ⟨call, tx, t, id, n, hcommit, hwrite, hlt⟩ := h
  have := (hok call t id n hwrite).1 tx hcommit
  omega

@[simp] theorem owners_snoc (evs : List (TreeEvent K V)) (e : TreeEvent K V) :
    owners (evs ++ [e]) = ownersStep (owners evs) e := by
  simp [owners]

/-! ## What a step can do -/

/-- What a step can do to the log, the counter and the ids in hand. -/
inductive TxStep (evs : List (TreeEvent K V)) (s : TreeSys K V) (e : TreeEvent K V) (s' : TreeSys K V) : Prop
  | other : s'.shared.wal = s.shared.wal → s'.shared.nextTx = s.shared.nextTx →
      e.answered = none → (∀ acc, (ownersStep acc e).1 = acc.1) →
      (∀ c x, held (evs ++ [e]) s' c = some x → held evs s c = some x ∧ ∀ acc, (ownersStep acc e).2 c = acc.2 c) →
      TxStep evs s e s'
  | take (c : Nat) (call : Call K V) (tx : Nat) : e = .did c call .nextTxId tx none → tx = s.shared.nextTx →
      s'.shared.wal = s.shared.wal → s'.shared.nextTx = s.shared.nextTx + 1 →
      (∀ c' x, held (evs ++ [e]) s' c' = some x → if c' = c then x = (tx, false) else held evs s c' = some x) →
      TxStep evs s e s'
  | write (c : Nat) (call : Call K V) (id : PageId) (n : Node K V) (tx : Nat) (wrote : Bool) :
      e = .did c call (.appendWrite id n) () none → call.isPut = true → (∃ t, s.tasks c = some t ∧ t.tag = call) →
      held evs s c = some (tx, wrote) →
      s'.shared.wal = s.shared.wal ++ [.write s.shared.nextTx id n] → s'.shared.nextTx = s.shared.nextTx →
      (∀ c' x, held (evs ++ [e]) s' c' = some x → if c' = c then x = (tx, true) else held evs s c' = some x) →
      TxStep evs s e s'
  | commit (c : Nat) (call : Call K V) (tx : Nat) (wrote : Bool) (answer : Option (Option Bool)) :
      e = .did c call (.appendCommit tx) () answer → (call.isPut = true → wrote = true) →
      held evs s c = some (tx, wrote) →
      s'.shared.wal = s.shared.wal ++ [.commit tx] → s'.shared.nextTx = s.shared.nextTx →
      (∀ c' x, held (evs ++ [e]) s' c' = some x → c' ≠ c ∧ held evs s c' = some x) → TxStep evs s e s'

section
variable {fuel : Nat} {db₀ : Db K V} {evs : List (TreeEvent K V)} {s : TreeSys K V}

/-- After an operation of client `c` the other clients hold what they held. -/
theorem held_did {c : Nat} {call : Call K V} {o : PageOp K V} {r : o.Ret} {answer : Option (Option Bool)}
    {db' : Db K V} {p : Task K V (Option Bool)} {c' : Nat} {x : Nat × Bool}
    (h : held (evs ++ [.did c call o r answer]) ⟨db', Function.update s.tasks c (settle call p)⟩ c' = some x) :
    if c' = c then (txProtocol call).next (phase txProtocol .idle c evs) o r = .holds x.1 x.2
    else held evs s c' = some x := by
  obtain ⟨⟨t, ht⟩, hph⟩ := held_eq_some.1 h
  rw [phase_snoc] at hph
  split
  · rename_i hcc
    subst hcc
    simpa [Event.phase] using hph
  · rename_i hcc
    refine held_eq_some.2 ⟨⟨t, by simpa [hcc] using ht⟩, ?_⟩
    simpa [Event.phase, Ne.symm hcc] using hph

theorem held_did_holds {c : Nat} {call : Call K V} {o : PageOp K V} {r : o.Ret} {answer : Option (Option Bool)}
    {db' : Db K V} {p : Task K V (Option Bool)} {c' tx : Nat} {wrote : Bool} {x : Nat × Bool}
    (hnext : (txProtocol call).next (phase txProtocol .idle c evs) o r = .holds tx wrote)
    (h : held (evs ++ [.did c call o r answer]) ⟨db', Function.update s.tasks c (settle call p)⟩ c' = some x) :
    if c' = c then x = (tx, wrote) else held evs s c' = some x := by
  have hheld := held_did h
  rw [hnext] at hheld
  split at hheld
  · rename_i hcc
    obtain ⟨tx', wrote'⟩ := x
    cases hheld
    rw [if_pos hcc]
  · rename_i hcc
    rwa [if_neg hcc]

theorem held_died {c : Nat} {call : Call K V} {c' : Nat} {x : Nat × Bool}
    (h : held (evs ++ [.died c call]) { s with tasks := Function.update s.tasks c none } c' = some x) :
    held evs s c' = some x := by
  obtain ⟨⟨t, ht⟩, hph⟩ := held_eq_some.1 h
  rw [phase_snoc] at hph
  refine held_eq_some.2 ⟨⟨t, ?_⟩, hph⟩
  by_cases hcc : c' = c
  · simp [hcc] at ht
  · simpa [hcc] using ht

/-- An operation that is none of the counter's and the log's. -/
theorem txStep_other {c : Nat} {call : Call K V} {o : PageOp K V} {k : o.Ret → Task K V (Option Bool)} {r : o.Ret}
    {db' : Db K V} (hc : s.tasks c = some ⟨call, .op o k⟩)
    (hsame : (txProtocol call).next (phase txProtocol .idle c evs) o r = phase txProtocol .idle c evs)
    (hanswer : (k r).answer? = none) (hwal : db'.wal = s.shared.wal) (htx : db'.nextTx = s.shared.nextTx)
    (howner : ∀ acc answer, ownersStep acc (.did c call o r answer) = acc) :
    TxStep evs s (.did c call o r (k r).answer?) ⟨db', Function.update s.tasks c (settle call (k r))⟩ := by
  refine .other hwal htx ?_ (fun acc => by rw [howner]) fun c' x hheld => ⟨?_, fun acc => by rw [howner]⟩
  · rw [Event.answered, hanswer, Option.map_none]
  · have hheld := held_did hheld
    split at hheld
    · rename_i hcc
      subst hcc
      exact held_eq_some.2 ⟨⟨_, hc⟩, by rw [← hsame, hheld]⟩
    · exact hheld

variable [LinearOrder K]

/-- **Inversion.** -/
theorem txStep_of_step (h : Trace (treeRules fuel) db₀ evs s) {e : TreeEvent K V} {s' : TreeSys K V}
    (hstep : Step (treeRules fuel) s e s') : TxStep evs s e s' := by
  cases hstep with
  | begin c call hc _ =>
    refine .other rfl rfl (by cases call <;> rfl) (fun _ => rfl) fun c' x hx => ?_
    obtain ⟨⟨t, ht⟩, hph⟩ := held_eq_some.1 hx
    rw [phase_snoc] at hph
    by_cases hcc : c' = c
    · subst hcc
      simp [Event.phase] at hph
    · refine ⟨held_eq_some.2 ⟨⟨t, by simpa [hcc] using ht⟩, ?_⟩, ?_⟩
      · simpa [Event.phase, Ne.symm hcc] using hph
      · intro acc
        exact Function.update_of_ne hcc _ _
  | op c call o k i r db' hc hx =>
    obtain ⟨hok, hnext⟩ := Trace.obeys (fun call _ => obeys_call fuel call) h hc
    have hanswer : (txProtocol call).next (phase txProtocol .idle c evs) o r ≠ .closed → (k r).answer? = none :=
      fun hopen => (hnext r).answer?_eq_none fun _ => hopen
    cases hph : phase txProtocol .idle c evs with
    | idle =>
      rw [hph] at hok hanswer
      cases o with
      | readRoot =>
        cases hx
        exact txStep_other hc (by rw [hph]; rfl) (hanswer (by simp [txProtocol])) rfl rfl fun _ _ => rfl
      | nextTxId =>
        cases hx
        rw [hanswer (by simp [txProtocol])]
        exact .take c call s.shared.nextTx rfl rfl rfl rfl fun c' x => held_did_holds (by rw [hph]; rfl)
      | _ => exact hok.elim
    | holds tx wrote =>
      rw [hph] at hok hanswer
      cases o with
      | appendWrite id n =>
        cases hx
        rw [hanswer (by simp [txProtocol])]
        exact .write c call id n tx wrote rfl hok ⟨_, hc, rfl⟩ (held_eq_some.2 ⟨⟨_, hc⟩, hph⟩) rfl rfl
          fun c' x => held_did_holds (by rw [hph]; rfl)
      | appendCommit t =>
        cases hx
        obtain ⟨rfl, hwrote⟩ := hok
        refine .commit c call t wrote _ rfl hwrote (held_eq_some.2 ⟨⟨_, hc⟩, hph⟩) rfl rfl fun c' x hheld => ?_
        have hheld := held_did hheld
        rw [hph] at hheld
        split at hheld
        · cases hheld
        · rename_i hcc
          exact ⟨hcc, hheld⟩
      | nextTxId => exact hok.elim
      | getPage id =>
        obtain ⟨n, -, heq⟩ := Option.map_eq_some_iff.1 hx
        cases heq
        exact txStep_other hc (by rw [hph]; rfl) (hanswer (by simp [txProtocol])) rfl rfl fun _ _ => rfl
      | _ =>
        cases hx
        exact txStep_other hc (by rw [hph]; rfl) (hanswer (by simp [txProtocol])) rfl rfl fun _ _ => rfl
    | closed =>
      rw [hph] at hok
      cases o <;> exact hok.elim
  | opFails c call o k i hc hx => exact .other rfl rfl rfl (fun _ => rfl) fun _ _ hheld => ⟨held_died hheld, fun _ => rfl⟩
  | fails c call hc => exact .other rfl rfl rfl (fun _ => rfl) fun _ _ hheld => ⟨held_died hheld, fun _ => rfl⟩
  | env db' henv => exact henv.elim

end

/-! ## Tags -/

section
variable [LinearOrder K] {fuel : Nat} {db₀ : Db K V} {evs : List (TreeEvent K V)} {s s' : TreeSys K V}
  {e : TreeEvent K V}

/-- There is an owner for every record of the run. -/
theorem records_of_trace (h : Trace (treeRules fuel) db₀ evs s) :
    ∃ recs, s.shared.wal = db₀.wal ++ recs ∧ (owners evs).1.length = recs.length := by
  induction h with
  | start => exact ⟨[], by simp, rfl⟩
  | next hs hstep ih =>
    obtain ⟨recs, hwal, hlen⟩ := ih
    cases txStep_of_step hs hstep with
    | other hwal' htx hans howner hheld => exact ⟨recs, by rw [hwal', hwal], by rw [owners_snoc, howner, hlen]⟩
    | take c call tx he htx' hwal' htx hheld =>
      subst he
      exact ⟨recs, by rw [hwal', hwal], by rw [owners_snoc]; exact hlen⟩
    | write c call id n tx wrote he hput htask hc hwal' htx hheld =>
      subst he
      exact ⟨_, by rw [hwal', hwal, List.append_assoc], by simp [ownersStep, hlen]⟩
    | commit c call tx wrote answer he hput hc hwal' htx hheld =>
      subst he
      exact ⟨_, by rw [hwal', hwal, List.append_assoc], by simp [ownersStep, hlen]⟩

omit [LinearOrder K] in
/-- A step that appends nothing. -/
theorem ledger_same (howner : (ownersStep (owners evs) e).1 = (owners evs).1)
    (hwal : s'.shared.wal = s.shared.wal) : ledger db₀ (evs ++ [e]) s' = ledger db₀ evs s := by
  simp only [ledger, owners_snoc, howner, hwal]

/-- A step that appends one record. -/
theorem ledger_snoc (h : Trace (treeRules fuel) db₀ evs s) {owner : CallId} {rec : Record K V}
    (howner : (ownersStep (owners evs) e).1 = (owners evs).1 ++ [owner])
    (hwal : s'.shared.wal = s.shared.wal ++ [rec]) :
    ledger db₀ (evs ++ [e]) s' = ledger db₀ evs s ++ [(owner, rec)] := by
  obtain ⟨recs, hrecs, hlen⟩ := records_of_trace h
  simp only [ledger, owners_snoc, howner, hwal, hrecs, List.append_assoc, List.drop_left]
  exact List.zip_append hlen

/-- A `put` has been called. -/
def PutBegan (evs : List (TreeEvent K V)) : Prop := ∃ e ∈ evs, e.begun.map Call.isPut = some true

omit [LinearOrder K] in
theorem PutBegan.snoc (h : PutBegan evs) (e : TreeEvent K V) : PutBegan (evs ++ [e]) := by
  obtain ⟨e', he', hput⟩ := h
  exact ⟨e', List.mem_append_left _ he', hput⟩

/-- Only a `put` writes records. -/
theorem put_began_of_write (h : Trace (treeRules fuel) db₀ evs s) {call : CallId} {tx : Nat} {id : PageId}
    {n : Node K V} (hmem : (call, .write tx id n) ∈ ledger db₀ evs s) : PutBegan evs := by
  induction h with
  | start => simp [ledger, owners] at hmem
  | next hs hstep ih =>
    cases txStep_of_step hs hstep with
    | other hwal' htx hans howner hheld =>
      rw [ledger_same (howner _) hwal'] at hmem
      exact (ih hmem).snoc _
    | take c call' tx' he htx' hwal' htx hheld =>
      subst he
      rw [ledger_same rfl hwal'] at hmem
      exact (ih hmem).snoc _
    | write c call' id' n' tx' wrote he hput htask hc hwal' htx hheld =>
      obtain ⟨t, ht, rfl⟩ := htask
      obtain ⟨answer, hb⟩ := hs.task_began ht
      exact ⟨_, List.mem_append_left _ hb, congrArg some hput⟩
    | commit c call' tx' wrote answer he hput hc hwal' htx hheld =>
      subst he
      rw [ledger_snoc hs rfl hwal'] at hmem
      rcases List.mem_append.1 hmem with hmem | hmem
      · exact (ih hmem).snoc _
      · simp at hmem

/-- A call in progress: the counter is past its id, and so are the tags of its records. -/
theorem tags_of_held (h : Trace (treeRules fuel) db₀ evs s) {c tx : Nat} {wrote : Bool}
    (hc : held evs s c = some (tx, wrote)) : tx < s.shared.nextTx ∧
      (wrote = true → ∃ t id n, ((c, (owners evs).2 c), .write t id n) ∈ ledger db₀ evs s ∧ tx < t) := by
  induction h generalizing c tx wrote with
  | start => simp [held] at hc
  | next hs hstep ih =>
    cases txStep_of_step hs hstep with
    | other hwal' htx hans howner hheld =>
      obtain ⟨hc, hbegun⟩ := hheld c _ hc
      rw [ledger_same (howner _) hwal', htx, owners_snoc, hbegun]
      exact ih hc
    | take c' call tx' he htx' hwal' htx hheld =>
      subst he
      have hx := hheld c _ hc
      rw [ledger_same rfl hwal', htx]
      split at hx
      · cases hx
        exact ⟨by omega, fun hw => nomatch hw⟩
      · obtain ⟨hlt, htag⟩ := ih hx
        exact ⟨by omega, by rwa [owners_snoc]⟩
    | write c' call id n tx' wrote' he hput htask hc' hwal' htx hheld =>
      subst he
      have hx := hheld c _ hc
      rw [ledger_snoc hs rfl hwal', htx]
      split at hx
      · rename_i hcc
        subst hcc
        cases hx
        have hlt := (ih hc').1
        exact ⟨hlt, fun _ => ⟨_, id, n, by simp [ownersStep], hlt⟩⟩
      · obtain ⟨hlt, htag⟩ := ih hx
        refine ⟨hlt, ?_⟩
        intro hw
        obtain ⟨t, id', n', hmem, ht⟩ := htag hw
        exact ⟨t, id', n', List.mem_append_left _ (by rwa [owners_snoc]), ht⟩
    | commit c' call tx' wrote' answer he hput hc' hwal' htx hheld =>
      subst he
      obtain ⟨hlt, htag⟩ := ih (hheld c _ hc).2
      rw [ledger_snoc hs rfl hwal', htx]
      refine ⟨hlt, ?_⟩
      intro hw
      obtain ⟨t, id', n', hmem, ht⟩ := htag hw
      exact ⟨t, id', n', List.mem_append_left _ (by rwa [owners_snoc]), ht⟩

/-- A `put` that has completed has committed an id below the tag of one of its records. -/
theorem overtagged_of_answered (h : Trace (treeRules fuel) db₀ evs s) (he : e ∈ evs) {put : Call K V}
    {answer : Option Bool} (ha : e.answered = some (put, answer)) (hput : put.isPut = true) :
    Overtagged (ledger db₀ evs s) := by
  induction h with
  | start => simp at he
  | next hs hstep ih =>
    cases txStep_of_step hs hstep with
    | other hwal' htx hans howner hheld =>
      rw [ledger_same (howner _) hwal']
      rcases List.mem_append.1 he with he | he
      · exact ih he
      · rw [List.mem_singleton.1 he, hans] at ha
        cases ha
    | take c call tx he' htx' hwal' htx hheld =>
      subst he'
      rw [ledger_same rfl hwal']
      rcases List.mem_append.1 he with he | he
      · exact ih he
      · rw [List.mem_singleton.1 he] at ha
        cases ha
    | write c call id n tx wrote he' _ htask hc hwal' htx hheld =>
      subst he'
      rw [ledger_snoc hs rfl hwal']
      rcases List.mem_append.1 he with he | he
      · exact (ih he).append _
      · rw [List.mem_singleton.1 he] at ha
        cases ha
    | commit c call tx wrote answer' he' hwrote hc hwal' htx hheld =>
      subst he'
      rw [ledger_snoc hs rfl hwal']
      rcases List.mem_append.1 he with he | he
      · exact (ih he).append _
      · -- the call was in progress until this step
        rw [List.mem_singleton.1 he, Event.answered, Option.map_eq_some_iff] at ha
        obtain ⟨_, -, heq⟩ := ha
        cases heq
        obtain ⟨-, htag⟩ := tags_of_held hs hc
        obtain ⟨t, id, n, hwrite, hlt⟩ := htag (hwrote hput)
        exact ⟨_, tx, t, id, n, by simp, List.mem_append_left _ hwrite, hlt⟩

/-- **Tags of records.** In every interleaved run of calls: without a `put` every record has its call's id, and
    with a `put` that has completed one has not. -/
theorem tags_of_calls (h : Trace (treeRules fuel) db₀ evs s) :
    (¬ PutBegan evs → TagsOk (ledger db₀ evs s)) ∧
      ∀ e ∈ evs, ∀ put answer, e.answered = some (put, answer) → put.isPut = true →
        ¬ TagsOk (ledger db₀ evs s) := by
  constructor
  · intro hno call tx id n hmem
    exact absurd (put_began_of_write h hmem) hno
  · intro e he put answer ha hput
    exact (overtagged_of_answered h he ha hput).not_tagsOk

end

/-- The database `init` makes. -/
def freshDb : Db Key Nat := ((init : Task Key Nat Unit).run exec Db.new).2

/-- One client's call, and `n` operations of it. -/
def solo (db : Db Key Nat) (call : Call Key Nat) (n : Nat) : Option (List (TreeEvent Key Nat) × TreeSys Key Nat) :=
  playAll (treeRules 1) () (.start 0 call :: List.replicate n (.step 0)) ⟨db, fun _ => none⟩

theorem trace_of_solo {db : Db Key Nat} {call : Call Key Nat} {n : Nat} {evs : List (TreeEvent Key Nat)}
    {s : TreeSys Key Nat} (h : solo db call n = some (evs, s)) : Trace (treeRules 1) db evs s := by
  simpa using trace_of_playAll (fun _ => trivial) .start h

theorem tags_of_calls_delete : ∃ evs s, Trace (treeRules 1) freshDb evs s ∧
    s.shared.wal = [.commit 1] ∧ TagsOk (ledger freshDb evs s) := by
  have hsolo : (solo freshDb (.delete (keyOf 1)) 5).map (fun run =>
      (run.1.map fun e => e.begun.map Call.isPut, run.2.shared.wal)) =
        some ([some false, none, none, none, none, none], [.commit 1]) := by decide
  obtain ⟨⟨evs, s⟩, hrun, hsolo⟩ := Option.map_eq_some_iff.1 hsolo
  rw [Prod.mk.injEq] at hsolo
  refine ⟨evs, s, trace_of_solo hrun, hsolo.2, (tags_of_calls (trace_of_solo hrun)).1 ?_⟩
  rintro ⟨e, he, hput⟩
  have hmem := List.mem_map_of_mem (f := fun e : TreeEvent Key Nat => e.begun.map Call.isPut) he
  rw [hsolo.1, hput] at hmem
  simp at hmem

/-- A `put` takes the id 1, moves the counter to 2, tags its record with 2 and commits 1. -/
theorem put_tagged_past_its_id : ∃ evs s, Trace (treeRules 1) freshDb evs s ∧
    ledger freshDb evs s =
      [((0, 1), .write 2 1 ⟨true, [keyOf 1], [7], [], 0, 0⟩), ((0, 1), .commit 1)] ∧
    ¬ TagsOk (ledger freshDb evs s) := by
  have hled : (solo freshDb (.put (keyOf 1) 7) 7).map (fun run => ledger freshDb run.1 run.2) =
      some [((0, 1), .write 2 1 ⟨true, [keyOf 1], [7], [], 0, 0⟩), ((0, 1), .commit 1)] := by decide
  obtain ⟨⟨evs, s⟩, hrun, hled⟩ := Option.map_eq_some_iff.1 hled
  refine ⟨evs, s, trace_of_solo hrun, hled, ?_⟩
  intro hok
  rw [hled] at hok
  have := (hok (0, 1) 2 1 _ (List.mem_cons_self ..)).1 1 (by simp)
  omega

/-! ## The lives of a log -/

def Record.commitId : Record K V → Option Nat
  | .write _ _ _ => none
  | .commit tx => some tx

/-- The ids of the commit records of a log. -/
def commitIds (log : List (Record K V)) : List Nat := log.filterMap Record.commitId

/-- What a log file holds after some lives of the process, each one opening it with `WAL::new` and `open` on a
    tree of its own and making calls. -/
inductive Lives [LinearOrder K] (fuel : Nat) : List (List (TreeEvent K V)) → List (Record K V) → Prop
  | unopened : Lives fuel [] []
  | life {lives : List (List (TreeEvent K V))} {log : List (Record K V)} (db : Db K V) {evs : List (TreeEvent K V)}
      {s : TreeSys K V} : Lives fuel lives log →
      Trace (treeRules fuel) { db with wal := log, nextTx := 1 } evs s → Lives fuel (lives ++ [evs]) s.shared.wal

section
variable [LinearOrder K] {fuel : Nat} {db₀ : Db K V} {evs : List (TreeEvent K V)} {s s' : TreeSys K V}
  {e : TreeEvent K V}

/-- The ids that are committed or in hand: all different, and behind the counter. -/
structure IdInv (evs : List (TreeEvent K V)) (s : TreeSys K V) (ids : List Nat) : Prop where
  nodup : ids.Nodup
  lt : ∀ tx ∈ ids, tx < s.shared.nextTx
  inHand : ∀ c x, held evs s c = some x → x.1 ∉ ids
  apart : ∀ c c' x x', held evs s c = some x → held evs s c' = some x' → x.1 = x'.1 → c = c'

omit [LinearOrder K] in
/-- A step that hands out no id. -/
theorem IdInv.kept {ids : List Nat} {evs' : List (TreeEvent K V)} (h : IdInv evs s ids)
    (htx : s'.shared.nextTx = s.shared.nextTx)
    (hback : ∀ c x, held evs' s' c = some x → ∃ x', held evs s c = some x' ∧ x'.1 = x.1) : IdInv evs' s' ids where
  nodup := h.nodup
  lt := by
    rw [htx]
    exact h.lt
  inHand c x hc := by
    obtain ⟨x', hx', hfst⟩ := hback c x hc
    rw [← hfst]
    exact h.inHand c x' hx'
  apart c₁ c₂ x₁ x₂ h₁ h₂ heq := by
    obtain ⟨x₁', hx₁, hfst₁⟩ := hback c₁ x₁ h₁
    obtain ⟨x₂', hx₂, hfst₂⟩ := hback c₂ x₂ h₂
    exact h.apart c₁ c₂ x₁' x₂' hx₁ hx₂ (by rw [hfst₁, hfst₂, heq])

/-- **Step.** -/
theorem IdInv.step {recs : List (Record K V)} (h : IdInv evs s (commitIds recs))
    (htrace : Trace (treeRules fuel) db₀ evs s) (hwal : s.shared.wal = db₀.wal ++ recs)
    (hstep : Step (treeRules fuel) s e s') :
    ∃ recs', s'.shared.wal = db₀.wal ++ recs' ∧ IdInv (evs ++ [e]) s' (commitIds recs') := by
  cases txStep_of_step htrace hstep with
  | other hwal' htx hans howner hheld =>
    exact ⟨recs, by rw [hwal', hwal], h.kept htx fun c x hc => ⟨x, (hheld c x hc).1, rfl⟩⟩
  | take c call tx he htx' hwal' htx hheld =>
    -- the id handed out is above all others
    have hnew : ∀ c' x, held evs s c' = some x → x.1 ≠ tx := by
      intro c' x hc'
      have := (tags_of_held htrace hc').1
      omega
    refine ⟨recs, by rw [hwal', hwal], h.nodup, fun tx' hmem => ?_, fun c' x hc' => ?_, fun c₁ c₂ x₁ x₂ h₁ h₂ heq => ?_⟩
    · have := h.lt tx' hmem
      omega
    · have hx := hheld c' x hc'
      split at hx
      · rw [hx, htx']
        exact fun hmem => lt_irrefl _ (h.lt _ hmem)
      · exact h.inHand c' x hx
    · have hx₁ := hheld c₁ x₁ h₁
      have hx₂ := hheld c₂ x₂ h₂
      split at hx₁ <;> split at hx₂
      · rename_i hc₁ hc₂
        rw [hc₁, hc₂]
      · exact absurd (by rw [← heq, hx₁]) (hnew c₂ x₂ hx₂)
      · exact absurd (by rw [heq, hx₂]) (hnew c₁ x₁ hx₁)
      · exact h.apart c₁ c₂ x₁ x₂ hx₁ hx₂ heq
  | write c call id n tx wrote he hput htask hc hwal' htx hheld =>
    -- what is in hand stays in hand
    have hback : ∀ c' x, held (evs ++ [e]) s' c' = some x → ∃ x', held evs s c' = some x' ∧ x'.1 = x.1 := by
      intro c' x hc'
      have hx := hheld c' x hc'
      split at hx
      · rename_i hcc
        exact ⟨_, hcc ▸ hc, by rw [hx]⟩
      · exact ⟨x, hx, rfl⟩
    refine ⟨recs ++ [.write s.shared.nextTx id n], by rw [hwal', hwal, List.append_assoc], ?_⟩
    have hids : commitIds (recs ++ [.write s.shared.nextTx id n]) = commitIds recs := by
      simp [commitIds, Record.commitId]
    rw [hids]
    exact h.kept htx hback
  | commit c call tx wrote answer he hput hc hwal' htx hheld =>
    refine ⟨recs ++ [.commit tx], by rw [hwal', hwal, List.append_assoc], ?_⟩
    have hids : commitIds (recs ++ [.commit tx]) = commitIds recs ++ [tx] := by
      simp [commitIds, Record.commitId]
    rw [hids]
    refine ⟨?_, fun tx' hmem => ?_, fun c' x hc' => ?_, fun c₁ c₂ x₁ x₂ h₁ h₂ heq => ?_⟩
    · exact List.nodup_append.2 ⟨h.nodup, by simp, fun a ha b hb => by
        rw [List.mem_singleton.1 hb]
        rintro rfl
        exact h.inHand c _ hc ha⟩
    · rw [htx]
      rcases List.mem_append.1 hmem with hmem | hmem
      · exact h.lt tx' hmem
      · rw [List.mem_singleton.1 hmem]
        exact (tags_of_held htrace hc).1
    · obtain ⟨hne, hx⟩ := hheld c' x hc'
      rw [List.mem_append, List.mem_singleton, not_or]
      exact ⟨h.inHand c' x hx, fun heq => hne (h.apart c' c x _ hx hc heq)⟩
    · exact h.apart c₁ c₂ x₁ x₂ (hheld c₁ x₁ h₁).2 (hheld c₂ x₂ h₂).2 heq

/-- **Run.** The ids committed in one life of the log are all different. -/
theorem idInv_of_trace (h : Trace (treeRules fuel) db₀ evs s) :
    ∃ recs, s.shared.wal = db₀.wal ++ recs ∧ IdInv evs s (commitIds recs) := by
  induction h with
  | start => exact ⟨[], by simp, by simp [commitIds], by simp [commitIds], by simp [held], by simp [held]⟩
  | next hs hstep ih =>
    obtain ⟨recs, hwal, hinv⟩ := ih
    exact hinv.step hs hwal hstep

theorem log_of_idle {lives : List (List (TreeEvent K V))} {log : List (Record K V)} (h : Lives fuel lives log)
    (hidle : ∀ evs ∈ lives, evs = []) : log = [] := by
  induction h with
  | unopened => rfl
  | life db hlives htrace ih =>
    rename_i lives log evs s
    obtain rfl : evs = [] := hidle evs (by simp)
    rw [htrace.of_nil]
    exact ih fun evs hmem => hidle evs (List.mem_append_left _ hmem)

/-- **Ids are not reused as long as the log has one life with calls in it.** -/
theorem commits_nodup {lives : List (List (TreeEvent K V))} {log : List (Record K V)} (h : Lives fuel lives log)
    (hone : lives.Pairwise fun a b => a = [] ∨ b = []) : (commitIds log).Nodup := by
  induction h with
  | unopened => exact List.nodup_nil
  | life db hlives htrace ih =>
    rename_i lives log evs s
    rw [List.pairwise_append] at hone
    obtain ⟨hbefore, -, hcross⟩ := hone
    by_cases hevs : evs = []
    · subst hevs
      rw [htrace.of_nil]
      exact ih hbefore
    · have hlog : log = [] := log_of_idle hlives fun evs' hmem =>
        (hcross evs' hmem evs (by simp)).resolve_right hevs
      obtain ⟨recs, hwal, hinv⟩ := idInv_of_trace htrace
      rw [hwal, hlog]
      exact hinv.nodup

end

/-- Two deletes of two clients, the later one commits first, between two lives without a call. -/
theorem commits_nodup_delete : ∃ evs s, Lives (K := Key) (V := Nat) 1 [[], evs, []] s.shared.wal ∧
    Trace (treeRules 1) freshDb evs s ∧ s.shared.wal = [.commit 2, .commit 1] ∧ (commitIds s.shared.wal).Nodup := by
  let moves : List (Move (Call Key Nat)) := [.start 0 (.delete (keyOf 1)), .start 1 (.delete (keyOf 2))] ++
    List.replicate 2 (.step 0) ++ List.replicate 5 (.step 1) ++ List.replicate 3 (.step 0)
  have hduo : (playAll (treeRules 1) () moves ⟨freshDb, fun _ => none⟩).map (fun run => run.2.shared.wal) =
      some [.commit 2, .commit 1] := by decide
  obtain ⟨⟨evs, s⟩, hrun, hwal⟩ := Option.map_eq_some_iff.1 hduo
  have htrace : Trace (treeRules 1) freshDb evs s := by simpa using trace_of_playAll (fun _ => trivial) .start hrun
  have hlast : Lives 1 [[], evs] s.shared.wal := .life freshDb (.life freshDb .unopened .start) htrace
  have hlives : Lives 1 [[], evs, []] s.shared.wal := (Lives.life freshDb hlast .start :)
  exact ⟨evs, s, hlives, htrace, hwal, commits_nodup hlives (by simp)⟩

/-- Two lives, one `delete` in each: both commit the id 1. -/
theorem second_life_repeats_ids : ∃ lives log, Lives (K := Key) (V := Nat) 1 lives log ∧ commitIds log = [1, 1] ∧
    ¬ (commitIds log).Nodup := by
  have hfirst : (solo freshDb (.delete (keyOf 1)) 5).map (fun run => run.2.shared.wal) = some [.commit 1] := by decide
  have hsecond : (solo { freshDb with wal := [.commit 1], nextTx := 1 } (.delete (keyOf 1)) 5).map
      (fun run => run.2.shared.wal) = some [.commit 1, .commit 1] := by decide
  obtain ⟨⟨evs₁, s₁⟩, hrun₁, hwal₁⟩ := Option.map_eq_some_iff.1 hfirst
  obtain ⟨⟨evs₂, s₂⟩, hrun₂, hwal₂⟩ := Option.map_eq_some_iff.1 hsecond
  have hlives := Lives.life freshDb .unopened (trace_of_solo hrun₁)
  rw [show s₁.shared.wal = [.commit 1] from hwal₁] at hlives
  refine ⟨_, _, hlives.life freshDb (trace_of_solo hrun₂), ?_⟩
  rw [show s₂.shared.wal = [.commit 1, .commit 1] from hwal₂]
  decide

end RedisOps.BTree
