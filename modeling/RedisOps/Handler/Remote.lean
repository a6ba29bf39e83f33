import RedisOps.Handler.Footprint
import RedisOps.Handler.JobQueue
import RedisOps.Proto.Link

/-!
# Clients behind their connections

A run of the handlers (`Lib.Trace`) has the requests begin out of nowhere and the answers go nowhere. Here every client is at the
other end of a connection of its own: a request begins when `handle_conn` has read it, its answer is what `handle_conn` writes
(`redisdb/src/server.rs:136-155`), and what becomes of the bytes is `Proto.Link`'s business, transfer by transfer.

`remote_answers`: what a client's calls return, up to the first one that fails, are the answers the handlers gave to these
requests in the run, in order. So what is proved about the answers of a run, whatever it is, is a fact about what the
clients see.

A connection that has ended ends the task of its requests at some point of its program, or lets it go on with nobody to
answer; both are runs here. A handler that panics ends its connection.
-/

namespace RedisOps.Handler

open Lib Lib.Wire Store Proto

section
variable {σ Op ι : Type} {Ret : Op → Type}

/-- A connection for each client, and what the handlers share. -/
structure Net (σ Op : Type) (Ret : Op → Type) where
  conns : Nat → Tcp
  core : Sys σ Request Op Ret Response

/-- `handle_conn` has read the request and not yet answered it. -/
def Dispatching (t : Tcp) (args : List String) : Prop := ∃ served, t.link.right = .ready ⟨.dispatch args, served⟩

/-- `handle_conn` gets its answer. -/
def Answered (t : Tcp) (a : Response) (t' : Tcp) : Prop :=
  ∃ l', t.link.Step clientNeed serverNeed (.right (some a)) l' ∧ t' = ⟨l', true⟩

/-- What a step of the handlers is on the connection of its client. -/
inductive OnConn : Event Request Op Ret Response → Tcp → Tcp → Prop
  | began {c q t} (hlistening : t.listening = true) (h : Dispatching t q.args) : OnConn (.began c q none) t t
  | atOnce {c q a t t'} (hlistening : t.listening = true) (h : Dispatching t q.args) (ha : Answered t a t') :
      OnConn (.began c q (some a)) t t'
  | did {c q o r t} : OnConn (.did c q o r none) t t
  | answers {c q o r a t t'} (hlistening : t.listening = true) (ha : Answered t a t') : OnConn (.did c q o r (some a)) t t'
  | nobody {c q o r a t} (hlistening : t.listening = false) : OnConn (.did c q o r (some a)) t t
  | died {c q t} : OnConn (.died c q) t { t with listening := false }

inductive Net.Step (R : Rules σ Request Op Ret Response ι) :
    Net σ Op Ret → Option (Event Request Op Ret Response) → Net σ Op Ret → Prop
  | wire {n c t'} (h : (n.conns c).Step t') (hserved : t'.served = (n.conns c).served) :
      Step R n none { n with conns := Function.update n.conns c t' }
  | core {n c e core' t'} (h : Lib.Step R n.core e core') (hc : e.client? = some c) (ht : OnConn e (n.conns c) t') :
      Step R n (some e) ⟨Function.update n.conns c t', core'⟩
  | env {n core'} (h : Lib.Step R n.core .env core') : Step R n (some .env) { n with core := core' }

inductive Net.Run (R : Rules σ Request Op Ret Response ι) (s₀ : σ) :
    List (Event Request Op Ret Response) → Net σ Op Ret → Prop
  | start : Run R s₀ [] ⟨fun _ => Tcp.start, ⟨s₀, fun _ => none⟩⟩
  | next {evs n e n'} (h : Run R s₀ evs n) (hstep : Net.Step R n e n') : Run R s₀ (evs ++ e.toList) n'

/-- The requests of a client that were answered, and the answers. -/
def answersOf (c : Nat) (evs : List (Event Request Op Ret Response)) : List (List String × Response) :=
  evs.filterMap fun e => if e.client? = some c then e.answered.map fun x => (x.1.args, x.2) else none

variable {R : Rules σ Request Op Ret Response ι} {s₀ : σ} {evs : List (Event Request Op Ret Response)}
  {e : Event Request Op Ret Response} {n n' : Net σ Op Ret}

theorem answersOf_concat (c : Nat) (evs : List (Event Request Op Ret Response)) (e : Event Request Op Ret Response) :
    answersOf c (evs ++ [e]) = answersOf c evs ++
      (if e.client? = some c then e.answered.map fun x => (x.1.args, x.2) else none).toList := by
  rw [answersOf, List.filterMap_append]
  congr 1

/-- The handlers make a run of their own. -/
theorem Net.Run.trace (h : Net.Run R s₀ evs n) : Trace R s₀ evs n.core := by
  induction h with
  | start => exact .start
  | next _ hstep ih =>
    cases hstep with
    | wire =>
      rw [Option.toList_none, List.append_nil]
      exact ih
    | core h => exact ih.next h
    | env h => exact ih.next h

/-! ## One connection -/

/-- A connection, the task of its client and what the handlers have answered: this is what was served, and a task in progress
    is that of the request being dispatched. -/
structure InTouch (t : Tcp) (task : Option (Task Request Op Ret Response)) (answers : List (List String × Response)) :
    Prop where
  reachable : t.Reachable
  served : t.served <+: answers
  equal : t.listening = true → t.served = answers
  task : t.listening = true → ∀ k, task = some k → Dispatching t k.tag.args

theorem Dispatching.served {t : Tcp} {args : List String} (h : Dispatching t args) :
    ∃ served, t.link.right = .ready ⟨.dispatch args, served⟩ ∧ t.served = served := by
  obtain ⟨served, hright⟩ := h
  exact ⟨served, hright, by simp [Tcp.served, whole, Link.whole, hright]⟩

/-- An answer appends one request to what was served. -/
theorem Answered.served {t t' : Tcp} {a : Response} {args : List String} (h : Dispatching t args) (ha : Answered t a t') :
    t'.served = t.served ++ [(args, a)] ∧ t'.listening = true := by
  obtain ⟨served, hright, hserved⟩ := h.served
  obtain ⟨l', hstep, rfl⟩ := ha
  refine ⟨?_, rfl⟩
  rw [hserved]
  obtain ⟨⟨left, right, toRight, toLeft⟩, listening⟩ := t
  dsimp only at hright hstep
  subst hright
  cases hstep with
  | right hstep =>
    cases hstep with
    | take _ _ hneed hnext =>
      cases hneed
      cases hnext
      rfl

theorem Answered.step {t t' : Tcp} {a : Response} (hlistening : t.listening = true) (ha : Answered t a t') : t.Step t' := by
  obtain ⟨l', hstep, rfl⟩ := ha
  obtain ⟨l, listening⟩ := t
  dsimp only at hlistening hstep
  subst hlistening
  exact .server hstep

/-- While the request is dispatched the server's end waits. -/
theorem Dispatching.wire {t t' : Tcp} {args : List String} (h : Dispatching t args) (hstep : t.Step t')
    (hserved : t'.served = t.served) : Dispatching t' args := by
  obtain ⟨served, hright⟩ := h
  cases hstep with
  | client _ hl =>
    cases hl with
    | left => exact ⟨served, hright⟩
  | server hl =>
    cases hl with
    | right hl =>
      dsimp only at hright
      subst hright
      cases hl with
      | startWrite _ _ hneed => cases hneed
      | startRead _ _ hneed => cases hneed
      | take _ _ hneed hnext =>
        -- the answer would be served
        cases hneed
        cases hnext
        simp [Tcp.served, whole, Link.whole] at hserved
  | fails => exact ⟨served, hright⟩
  | closes => exact ⟨served, hright⟩

theorem listening_of_step {t t' : Tcp} (h : t.Step t') (h' : t'.listening = true) : t.listening = true := by
  cases h with
  | client => exact h'
  | server => rfl
  | fails => exact h'
  | closes => rfl

/-- An operation is performed for the task of its client. -/
theorem task_of_did {s s' : Sys σ Request Op Ret Response} (h : Lib.Step R s e s') {c : Nat} {q : Request} {o : Op} {r : Ret o}
    {answer : Option Response} (he : e = .did c q o r answer) : ∃ k, s.tasks c = some ⟨q, .op o k⟩ := by
  cases h with
  | op _ _ _ k _ _ _ htask _ =>
    cases he
    exact ⟨k, htask⟩
  | begin | opFails | fails | env => cases he

section
variable {t t' : Tcp} {task task' : Option (Task Request Op Ret Response)} {answers : List (List String × Response)}

theorem InTouch.wire (h : InTouch t task answers) (hstep : t.Step t') (hserved : t'.served = t.served) :
    InTouch t' task answers := by
  refine ⟨h.reachable.tail hstep, ?_, ?_, ?_⟩
  · rw [hserved]
    exact h.served
  · intro hlistening
    rw [hserved]
    exact h.equal (listening_of_step hstep hlistening)
  · intro hlistening k hk
    exact (h.task (listening_of_step hstep hlistening) k hk).wire hstep hserved

/-- The answer reaches the connection. -/
theorem InTouch.answered (h : InTouch t task answers) {a : Response} {args : List String} (hlistening : t.listening = true)
    (hdisp : Dispatching t args) (ha : Answered t a t') :
    InTouch t' (none : Option (Task Request Op Ret Response)) (answers ++ [(args, a)]) := by
  obtain ⟨hnew, -⟩ := ha.served hdisp
  rw [h.equal hlistening] at hnew
  refine ⟨h.reachable.tail (ha.step hlistening), ?_, fun _ => hnew, ?_⟩
  · rw [hnew]
  · rintro _ k hk
    cases hk

/-- A step of the client's own request. -/
theorem InTouch.own {c : Nat} {s s' : Sys σ Request Op Ret Response} (h : InTouch t (s.tasks c) answers)
    (hc : e.client? = some c) (hstep : Lib.Step R s e s') (ht : OnConn e t t') :
    InTouch t' (s'.tasks c) (answers ++ (e.answered.map fun x => (x.1.args, x.2)).toList) := by
  have hdone : e.answered ≠ none → s'.tasks c = none := by
    intro hanswer
    cases htask : s'.tasks c with
    | none => rfl
    | some k =>
      obtain ⟨-, hne⟩ | ⟨-, -, rfl⟩ | ⟨_, _, _, _, -, -, -, rfl⟩ := hstep.task_cases htask
      · exact absurd hc hne
      · exact absurd rfl hanswer
      · exact absurd rfl hanswer
  cases ht with
  | began hlistening hdisp =>
    cases hc
    rw [show (Event.began c _ none : Event Request Op Ret Response).answered = none from rfl, Option.map_none,
      Option.toList_none, List.append_nil]
    refine ⟨h.reachable, h.served, h.equal, ?_⟩
    intro _ k hk
    obtain ⟨-, hne⟩ | ⟨-, -, heq⟩ | ⟨_, _, _, _, -, -, -, heq⟩ := hstep.task_cases hk
    · exact absurd rfl hne
    · cases heq
      exact hdisp
    · cases heq
  | atOnce hlistening hdisp ha =>
    cases hc
    rw [hdone (by simp [Event.answered])]
    exact h.answered hlistening hdisp ha
  | did =>
    cases hc
    rw [show (Event.did c _ _ _ none : Event Request Op Ret Response).answered = none from rfl, Option.map_none,
      Option.toList_none, List.append_nil]
    refine ⟨h.reachable, h.served, h.equal, ?_⟩
    intro hlistening k hk
    obtain ⟨-, hne⟩ | ⟨-, -, heq⟩ | ⟨_, _, _, _, hold, -, -, heq⟩ := hstep.task_cases hk
    · exact absurd rfl hne
    · cases heq
    · have hdisp := h.task hlistening _ hold
      exact hdisp
  | answers hlistening ha =>
    cases hc
    rw [hdone (by simp [Event.answered])]
    obtain ⟨k, hold⟩ := task_of_did hstep rfl
    exact h.answered hlistening (h.task hlistening _ hold) ha
  | nobody hlistening =>
    cases hc
    rw [hdone (by simp [Event.answered])]
    refine ⟨h.reachable, h.served.trans (List.prefix_append _ _), ?_, ?_⟩
    · intro htrue
      rw [hlistening] at htrue
      cases htrue
    · rintro _ k hk
      cases hk
  | died =>
    cases hc
    rw [show (Event.died c _ : Event Request Op Ret Response).answered = none from rfl, Option.map_none,
      Option.toList_none, List.append_nil]
    refine ⟨?_, h.served, ?_, ?_⟩
    · cases hlistening : t.listening with
      | true =>
        obtain ⟨l, listening⟩ := t
        cases hlistening
        exact h.reachable.tail (.closes l)
      | false =>
        obtain ⟨l, listening⟩ := t
        cases hlistening
        exact h.reachable
    · intro hfalse
      cases hfalse
    · intro hfalse
      cases hfalse

end

/-! ## All of them -/

theorem Net.Run.inTouch (h : Net.Run R s₀ evs n) (c : Nat) :
    InTouch (n.conns c) (n.core.tasks c) (answersOf c evs) := by
  induction h with
  | start =>
    refine ⟨.refl, List.prefix_rfl, fun _ => rfl, ?_⟩
    rintro _ k hk
    cases hk
  | @next evs n e n' _ hstep ih =>
    cases hstep with
    | @wire d t' hl hserved =>
      rw [Option.toList_none, List.append_nil]
      by_cases hd : c = d
      · subst hd
        simpa using ih.wire hl hserved
      · simpa [hd] using ih
    | @core d e core' t' hl hc ht =>
      rw [Option.toList_some, answersOf_concat]
      by_cases hd : c = d
      · subst hd
        rw [if_pos hc]
        simpa using ih.own hc hl ht
      · have hne : e.client? ≠ some c := by
          rw [hc]
          exact fun heq => hd (Option.some.inj heq).symm
        have htask : core'.tasks c = n.core.tasks c := hl.tasks_of_ne hne
        rw [if_neg hne, Option.toList_none, List.append_nil]
        simpa [hd, htask] using ih
    | @env core' hl =>
      rw [Option.toList_some, answersOf_concat, if_neg (by simp [Event.client?]), Option.toList_none, List.append_nil]
      have htask : core'.tasks c = n.core.tasks c := hl.tasks_of_ne (by simp [Event.client?])
      rwa [← htask] at ih

/-- **What a client sees.** In every run of the handlers and the connections, transfer by transfer: the handlers make a run
    of their own; and the calls of each client up to the first that fails have returned the answers that this run gives to
    these requests, in order and each of them once. -/
theorem remote_answers (h : Net.Run R s₀ evs n) (c : Nat)
    (hframed : ∀ x ∈ answersOf c evs, x.2.encode.length < 2 ^ 32) :
    Trace R s₀ evs n.core ∧ ∃ done more, answersOf c evs = done ++ more ∧
      List.Forall₂ Answers ((n.conns c).returned.takeWhile succeeded) done := by
  have hin := h.inTouch c
  have hserved := fun x hx => hframed x (hin.served.subset hx)
  obtain ⟨done, more, hsplit, hpaired⟩ := (InStep.reachable hin.reachable hserved).paired
  obtain ⟨rest, hrest⟩ := hin.served
  exact ⟨h.trace, done, more ++ rest, by rw [← hrest, hsplit, List.append_assoc], hpaired⟩

/-- Steps of a connection in which nothing is answered. -/
def Quietly (t t' : Tcp) : Prop := t.Step t' ∧ t'.served = t.served

theorem Net.Run.wires (h : Net.Run R s₀ evs n) {c : Nat} {t t' : Tcp} (hconn : n.conns c = t)
    (hrun : Relation.ReflTransGen Quietly t t') :
    Net.Run R s₀ evs { n with conns := Function.update n.conns c t' } := by
  induction hrun with
  | refl =>
    rw [← hconn, Function.update_eq_self]
    exact h
  | tail _ hstep ih =>
    have hnext := ih.next (.wire (c := c) (by simpa using hstep.1) (by simpa using hstep.2))
    simpa using hnext

end

/-- A request without a word is read. -/
def asked : Tcp := ⟨⟨.ready ⟨.header [], []⟩, .ready ⟨.dispatch [], []⟩, [], []⟩, true⟩

theorem asked_quietly : Relation.ReflTransGen Quietly Tcp.start asked := by
  have t₀ : Relation.ReflTransGen Quietly Tcp.start Tcp.start := .refl
  have t₁ := t₀.tail ⟨.client true (.left (.take [] [] rfl call_nil)), rfl⟩
  have t₂ := t₁.tail ⟨.client true (.left (.startWrite [] [] rfl)), rfl⟩
  have t₃ := t₂.tail ⟨.client true (.left (.send [4, 0, 0, 0, 0, 0, 0, 0] [] [] [] (by simp))), rfl⟩
  have t₄ := t₃.tail ⟨.client true (.left (.sent [] [4, 0, 0, 0, 0, 0, 0, 0] rfl)), rfl⟩
  have t₅ := t₄.tail ⟨.server (.right (.startRead [4, 0, 0, 0, 0, 0, 0, 0] [] rfl)), rfl⟩
  have t₆ := t₅.tail ⟨.server (.right (.recv [4, 0, 0, 0] [0, 0, 0, 0] [] rfl (by simp) (by decide))), rfl⟩
  have t₇ := t₆.tail ⟨.server (.right (.received [0, 0, 0, 0] [] rfl rfl)), rfl⟩
  have t₈ := t₇.tail ⟨.server (.right (.startRead [0, 0, 0, 0] [] rfl)), rfl⟩
  have t₉ := t₈.tail ⟨.server (.right (.recv [0, 0, 0, 0] [] [] rfl (by simp) (by decide))), rfl⟩
  have t₁₀ := t₉.tail ⟨.server (.right (.received [] [] rfl rfl)), rfl⟩
  exact t₁₀

/-- A place of the answer. -/
def replying (calling : Calling) (ret : List (List Bytes × Option ClientResponse)) (handling : Handling) (r : Response)
    (toLeft : Bytes) : Tcp :=
  ⟨⟨.ready ⟨calling, ret⟩, .ready ⟨handling, [([], r)]⟩, [], toLeft⟩, true⟩

/-- The answer goes back whole. -/
theorem answer_quietly {r : Response} (h : r.encode.length ≤ MAX_RESPONSE) :
    Relation.ReflTransGen Quietly (replying (.header []) [] (.answer r) r [])
      (replying .idle [([], some r.toClient)] .header r []) := by
  have hhdr : leBytes 4 r.encode.length ≠ [] := List.ne_nil_of_length_pos (by simp)
  have hbody : r.encode ≠ [] := by
    cases r <;> simp [Response.encode]
  have hlen : ofLe (leBytes 4 r.encode.length) = r.encode.length :=
    ofLe_header (Nat.lt_of_le_of_lt h MAX_RESPONSE_lt)
  have hval := readValueFrom_answer (Nat.lt_of_le_of_lt h MAX_RESPONSE_lt)
  have hwritten : Relation.ReflTransGen Quietly (replying (.header []) [] (.answer r) r [])
      (replying (.header []) [] .header r (writeResponse r.encode)) := by
    have t₀ : Relation.ReflTransGen Quietly (replying (.header []) [] (.answer r) r []) _ := .refl
    have t₁ := t₀.tail ⟨.server (.right (.startWrite [] [] rfl)), rfl⟩
    rw [← List.append_nil (writeResponse _)] at t₁
    have t₂ := t₁.tail ⟨.server (.right (.send (writeResponse r.encode) [] [] [] (by simp [writeResponse, hbody]))), rfl⟩
    have t₃ := t₂.tail ⟨.server (.right (.sent [] (writeResponse r.encode) rfl)), rfl⟩
    exact t₃
  have hheader : Relation.ReflTransGen Quietly (replying (.header []) [] .header r (writeResponse r.encode))
      (replying (.body [] r.encode.length) [] .header r r.encode) := by
    have t₀ : Relation.ReflTransGen Quietly (replying (.header []) [] .header r (writeResponse r.encode)) _ := .refl
    have t₁ := t₀.tail ⟨.client true (.left (.startRead (writeResponse r.encode) [] rfl)), rfl⟩
    have t₂ := t₁.tail ⟨.client true (.left (.recv (leBytes 4 r.encode.length) r.encode [] rfl hhdr (by simp))), rfl⟩
    have t₃ := t₂.tail ⟨.client true (.left (.received r.encode [] rfl (by simp))), rfl⟩
    rw [List.nil_append, hlen, if_neg (Nat.not_lt.2 h)] at t₃
    exact t₃
  have hread : Relation.ReflTransGen Quietly (replying (.body [] r.encode.length) [] .header r r.encode)
      (replying .idle [([], some r.toClient)] .header r []) := by
    have t₀ : Relation.ReflTransGen Quietly (replying (.body [] r.encode.length) [] .header r r.encode) _ := .refl
    have t₁ := t₀.tail ⟨.client true (.left (.startRead r.encode [] rfl)), rfl⟩
    rw [← List.append_nil r.encode] at t₁
    have t₂ := t₁.tail ⟨.client true (.left (.recv r.encode [] [] rfl hbody (by simp))), rfl⟩
    have t₃ := t₂.tail ⟨.client true (.left (.received [] [] rfl (by simp))), rfl⟩
    rw [List.nil_append, hval] at t₃
    simp only [List.append_nil] at t₃
    exact t₃
  exact hwritten.trans (hheader.trans hread)

theorem answered_asked (r : Response) : Answered asked r (replying (.header []) [] (.answer r) r []) :=
  ⟨_, .right (.take [] [] rfl rfl), rfl⟩

/-- One client, and a request that is answered at once. -/
theorem remote_answers_once :
    ∃ (evs : List (JobEvent Float)) (n : Net (World Float) (Op Float) Op.Ret),
      Net.Run serverRules ⟨∅, {}⟩ evs n ∧ (∀ x ∈ answersOf 0 evs, x.2.encode.length < 2 ^ 32) ∧
      Trace serverRules ⟨∅, {}⟩ evs n.core ∧ ∃ done more, answersOf 0 evs = done ++ more ∧
        List.Forall₂ Answers ((n.conns 0).returned.takeWhile succeeded) done := by
  have hsmall : (errUnknown "empty command").encode.length ≤ MAX_RESPONSE := by decide
  have n₀ : Net.Run (serverRules (F := Float)) ⟨∅, {}⟩ [] _ := .start
  have n₁ := n₀.wires (c := 0) rfl asked_quietly
  have n₂ := n₁.next (.core (c := 0) (.begin _ 0 ⟨0, []⟩ rfl trivial) rfl
    (.atOnce (by simp [asked]) ⟨[], by simp [asked]⟩ (by simpa using answered_asked (errUnknown "empty command"))))
  have n₃ := n₂.wires (c := 0) (by simp) (answer_quietly hsmall)
  have hframed : ∀ x ∈ answersOf 0 [(.began 0 ⟨0, []⟩ (some (errUnknown "empty command")) : JobEvent Float)],
      x.2.encode.length < 2 ^ 32 := by
    intro x hx
    rw [show answersOf 0 _ = [([], errUnknown "empty command")] from rfl, List.mem_singleton] at hx
    subst hx
    decide
  exact ⟨_, _, n₃, hframed, remote_answers n₃ 0 hframed⟩

end RedisOps.Handler
