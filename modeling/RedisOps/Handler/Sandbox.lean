import RedisOps.Handler.JobStatus
import RedisOps.Handler.Session
import RedisOps.Lib.Outline

/-!
# Sandboxes (`handler.rs:601-659`)

A sandbox is three keys under one prefix: what it is, its status and its job. `sandbox status` lists whatever stands
under the prefix, so a registered sandbox shows up with its status key beside it. `sandbox claim` asks nothing: it
writes the status, then the job, and answers `1`. The job that is stored is that of the last command, `sandbox claim`
or `sandbox release`, that has answered. With two of them under way at once the status need not be of the same command;
where the last command had the sandbox to itself, status and job are both its own.
-/

namespace RedisOps.Handler

open Lib Store Proto

variable {F : Type}

/-! ## Keys -/

theorem sandboxJobKey_inj {a b : String} : sandboxJobKey a = sandboxJobKey b ↔ a = b := by
  -- `simp` would first derive the equation of the key, on the bytes of its texts
  delta sandboxJobKey
  simp

theorem sandboxStatusKey_ne_sandboxJobKey (a b : String) : sandboxStatusKey a ≠ sandboxJobKey b :=
  append_ne_append (by decide) (by decide) (by decide) _ _

theorem sandboxStatusKey_inj {a b : String} : sandboxStatusKey a = sandboxStatusKey b ↔ a = b := by
  delta sandboxStatusKey
  simp

/-- What the sandbox `b:job` is stands where the job of the sandbox `b` does. -/
theorem sandboxKey_eq_sandboxJobKey {a b : String} : sandboxKey a = sandboxJobKey b ↔ a = b ++ ":job" := by
  delta sandboxKey sandboxJobKey
  simp [String.append_assoc]

theorem sandboxKey_eq_sandboxStatusKey {a b : String} : sandboxKey a = sandboxStatusKey b ↔ a = b ++ ":status" := by
  delta sandboxKey sandboxStatusKey
  simp [String.append_assoc]

/-! ## The commands -/

def Registers (id : String) (q : Request) : Prop :=
  q.word = some .sandboxRegister ∧ ∃ targetType addr, q.args.tail = [id, targetType, addr]

def Claims (id job : String) (q : Request) : Prop := q.word = some .sandboxClaim ∧ q.args.tail = [id, job]

def Releases (id : String) (q : Request) : Prop := q.word = some .sandboxRelease ∧ q.args.tail = [id]

section
variable [F64 F]

theorem serve_register {id : String} {q : Request} (h : Registers id q) (now : Nat) (w : World F) :
    ∃ payload, serve now q w = (some (.str id),
      { w with store := setStr (setStr w.store (sandboxKey id) payload) (sandboxStatusKey id) "idle" }) := by
  obtain ⟨hq, targetType, addr, hargs⟩ := h
  rw [serve_of_word hq, hargs]
  exact ⟨_, rfl⟩

theorem serve_claim {id job : String} {q : Request} (h : Claims id job q) (now : Nat) (w : World F) :
    serve now q w = (some (.int 1),
      { w with store := setStr (setStr w.store (sandboxStatusKey id) "busy") (sandboxJobKey id) job }) := by
  rw [serve_of_word h.1, h.2]
  rfl

theorem serve_release {id : String} {q : Request} (h : Releases id q) (now : Nat) (w : World F) :
    serve now q w = (some (.int 1),
      { w with store := (del (setStr w.store (sandboxStatusKey id) "idle") (sandboxJobKey id)).2 }) := by
  rw [serve_of_word h.1, h.2]
  rfl

end

/-! ## The registry -/

/-- The id a request registers, when it has the arguments for it. -/
def registeredId (q : Request) : Option String :=
  match q.args.tail with
  | [id, _, _] => if q.word = some .sandboxRegister then some id else none
  | _ => none

def registeredIds (cmds : List (Nat × Request)) : List String := cmds.filterMap fun c => registeredId c.2

/-- A `sandbox` command on an id free of `:`; one that claims or releases names a registered id. -/
def OnRegistered (ids : List String) (q : Request) : Prop :=
  (q.word = some .sandboxRegister ∨ (q.word = some .sandboxClaim ∨ q.word = some .sandboxRelease) ∧
    ∀ id, q.args.tail.head? = some id → id ∈ ids) ∧ ∀ id, q.args.tail.head? = some id → ':' ∉ id.toList

/-- Only registered ids are claimed and released. -/
def Orderly : List String → List (Nat × Request) → Prop
  | _, [] => True
  | ids, c :: cmds => OnRegistered ids c.2 ∧ Orderly (ids ++ (registeredId c.2).toList) cmds

/-- Every registered sandbox has its status key; before the first registration there is nothing. -/
structure RegistryInv (ids : List String) (s : Data F) : Prop where
  status : ∀ id ∈ ids, ∃ v, s.lookup (sandboxStatusKey id) = some ⟨.str v, none⟩
  noColon : ∀ id ∈ ids, ':' ∉ id.toList
  empty : ids = [] → s = ∅

/-- A text stays a text, whatever text is set. -/
theorem lookup_setStr_str {s : Data F} {key : String} (h : ∃ v, s.lookup key = some ⟨.str v, none⟩) (k val : String) :
    ∃ v, (setStr s k val).lookup key = some ⟨.str v, none⟩ := by
  by_cases hk : key = k
  · exact ⟨val, by rw [hk, setStr, insertNew, AList.lookup_insert]⟩
  · obtain ⟨v, hv⟩ := h
    exact ⟨v, by rw [setStr, lookup_insertNew_ne hk, hv]⟩

section
variable [F64 F] {ids : List String} {w : World F}

theorem registryInv_register {id : String} {q : Request} (h : Registers id q) (hid : ':' ∉ id.toList)
    (hi : RegistryInv ids w.store) (now : Nat) : RegistryInv (ids ++ [id]) (serve now q w).2.store := by
  obtain ⟨payload, hserve⟩ := serve_register h now w
  rw [hserve]
  refine ⟨?_, ?_, by simp⟩
  · intro a ha
    rcases List.mem_append.1 ha with ha | ha
    · exact lookup_setStr_str (lookup_setStr_str (hi.status a ha) _ _) _ _
    · rw [List.mem_singleton.1 ha]
      exact ⟨"idle", by simp [setStr, insertNew]⟩
  · intro a ha
    rcases List.mem_append.1 ha with ha | ha
    · exact hi.noColon a ha
    · exact List.mem_singleton.1 ha ▸ hid

theorem registryInv_claim {id job : String} {q : Request} (h : Claims id job q) (hmem : id ∈ ids)
    (hi : RegistryInv ids w.store) (now : Nat) : RegistryInv ids (serve now q w).2.store := by
  rw [serve_claim h]
  refine ⟨fun a ha => ?_, hi.noColon, fun hnil => by simp [hnil] at hmem⟩
  exact lookup_setStr_str (lookup_setStr_str (hi.status a ha) _ _) _ _

theorem registryInv_release {id : String} {q : Request} (h : Releases id q) (hmem : id ∈ ids)
    (hi : RegistryInv ids w.store) (now : Nat) : RegistryInv ids (serve now q w).2.store := by
  rw [serve_release h]
  refine ⟨fun a ha => ?_, hi.noColon, fun hnil => by simp [hnil] at hmem⟩
  obtain ⟨v, hv⟩ := lookup_setStr_str (hi.status a ha) (sandboxStatusKey id) "idle"
  exact ⟨v, by rw [del, AList.lookup_erase_ne (sandboxStatusKey_ne_sandboxJobKey a id), hv]⟩

/-- **Step.** -/
theorem registryInv_step {q : Request} (hq : OnRegistered ids q) (hi : RegistryInv ids w.store) (now : Nat) :
    RegistryInv (ids ++ (registeredId q).toList) (serve now q w).2.store := by
  obtain ⟨hq | ⟨hq | hq, hmem⟩, hcolon⟩ := hq
  · -- `sandbox register`
    rcases hargs : q.args.tail with _ | ⟨id, _ | ⟨targetType, _ | ⟨addr, _ | _⟩⟩⟩
    case cons.cons.cons.nil =>
      have hid : registeredId q = some id := by simp [registeredId, hargs, hq]
      rw [hid]
      exact registryInv_register ⟨hq, targetType, addr, hargs⟩ (hcolon id (by rw [hargs]; rfl)) hi now
    all_goals
      have hid : registeredId q = none := by simp [registeredId, hargs]
      rw [hid, Option.toList_none, List.append_nil, serve_of_word hq, hargs]
      exact hi
  · -- `sandbox claim`
    have hid : registeredId q = none := by
      unfold registeredId
      split <;> simp [hq]
    rw [hid, Option.toList_none, List.append_nil]
    rcases hargs : q.args.tail with _ | ⟨id, _ | ⟨job, _ | _⟩⟩
    case cons.cons.nil => exact registryInv_claim ⟨hq, hargs⟩ (hmem id (by rw [hargs]; rfl)) hi now
    all_goals
      rw [serve_of_word hq, hargs]
      exact hi
  · -- `sandbox release`
    have hid : registeredId q = none := by
      unfold registeredId
      split <;> simp [hq]
    rw [hid, Option.toList_none, List.append_nil]
    rcases hargs : q.args.tail with _ | ⟨id, _ | _⟩
    case cons.nil => exact registryInv_release ⟨hq, hargs⟩ (hmem id (by rw [hargs]; rfl)) hi now
    all_goals
      rw [serve_of_word hq, hargs]
      exact hi

/-- **Run.** -/
theorem registryInv_serveAll {cmds : List (Nat × Request)} (hcmds : Orderly ids cmds) (hi : RegistryInv ids w.store) :
    RegistryInv (ids ++ registeredIds cmds) (serveAll cmds w).2.store := by
  induction cmds generalizing ids w with
  | nil => simpa [registeredIds, serveAll] using hi
  | cons c cmds ih =>
    obtain ⟨now, q⟩ := c
    have hrest := ih hcmds.2 (registryInv_step hcmds.1 hi now)
    have hids : registeredIds ((now, q) :: cmds) = (registeredId q).toList ++ registeredIds cmds := by
      cases h : registeredId q <;> simp [registeredIds, h]
    rw [hids, ← List.append_assoc]
    exact hrest

/-! ## `sandbox status` -/

omit [F64 F] in
/-- A key with an entry that does not expire is listed. -/
theorem mem_keys {now : Nat} {s : Data F} {key : String} {e : Entry F} (h : s.lookup key = some e)
    (hlasts : e.expAt = none) : key ∈ keys now s := by
  have hmem : (⟨key, e⟩ : Sigma fun _ : String => Entry F) ∈ s.entries := AList.mem_lookup_iff.1 h
  have hlive : e.expired now = false := by simp [Entry.expired, hlasts]
  exact List.mem_map.2 ⟨_, List.mem_filter.2 ⟨hmem, by simp [hlive]⟩, rfl⟩

omit [F64 F] in
theorem stripPrefix_append (pat s : String) : stripPrefix (pat ++ s) pat = some s := by
  simp [stripPrefix, startsWith_append]

omit [F64 F] in
theorem strs_inj {a b : List String} (h : strs a = strs b) : a = b := by
  have hstr : Function.Injective Response.str := fun _ _ h => Response.str.inj h
  exact List.map_injective_iff.2 hstr (Response.arr.inj h)

theorem serve_sandboxStatus {q : Request} (hq : q.word = some .sandboxStatus) (now : Nat) (w : World F) :
    (serve now q w).1 = some (strs ((keys now w.store).filterMap fun k => stripPrefix k "devops:sandbox:")) := by
  rw [serve_of_word hq]
  rfl

/-- **The listing is right exactly when nothing was registered.** -/
theorem sandbox_status_iff {w₀ : World F} (h₀ : w₀.store = ∅) {cmds : List (Nat × Request)} (hcmds : Orderly [] cmds)
    {q : Request} (hq : q.word = some .sandboxStatus) (now : Nat) :
    (∃ ids, (serve now q (serveAll cmds w₀).2).1 = some (strs ids) ∧ ids.Perm (registeredIds cmds).dedup) ↔
      ∀ c ∈ cmds, registeredId c.2 = none := by
  have hempty : RegistryInv [] w₀.store := ⟨by simp, by simp, fun _ => h₀⟩
  have hi := registryInv_serveAll hcmds hempty
  rw [List.nil_append] at hi
  rw [← List.filterMap_eq_nil_iff, serve_sandboxStatus hq]
  constructor
  · rintro ⟨ids, heq, hperm⟩
    -- a registered id would be listed a second time, with its status key
    rw [List.eq_nil_iff_forall_not_mem]
    intro id hid
    obtain ⟨v, hv⟩ := hi.status id hid
    have hlisted : id ++ ":status" ∈ ids := by
      rw [← strs_inj (Option.some.inj heq)]
      refine List.mem_filterMap.2 ⟨_, mem_keys hv rfl, ?_⟩
      delta sandboxStatusKey
      rw [String.append_assoc, stripPrefix_append]
    have hmem := List.mem_dedup.1 (hperm.mem_iff.1 hlisted)
    apply hi.noColon _ hmem
    simp
  · intro hnone
    have hids : registeredIds cmds = [] := hnone
    refine ⟨[], ?_, ?_⟩
    · rw [hi.empty hids]
      rfl
    · rw [hids]
      exact .refl _

end

/-- A sandbox is registered, claimed and released: the listing is wrong. -/
theorem sandbox_status_iff_session :
    let cmds : List (Nat × Request) := [(0, ⟨0, ["SANDBOX REGISTER", "sb-1", "qemu", "127.0.0.1:4444"]⟩),
      (1, ⟨1, ["SANDBOX CLAIM", "sb-1", "7"]⟩), (2, ⟨2, ["SANDBOX RELEASE", "sb-1"]⟩)]
    let status : Request := ⟨3, ["SANDBOX STATUS"]⟩
    ¬∃ ids, (serve 3 status (serveAll (F := Float) cmds ⟨∅, {}⟩).2).1 = some (strs ids) ∧
      ids.Perm (registeredIds cmds).dedup := by
  intro cmds status
  have h₀ : (⟨∅, {}⟩ : World Float).store = ∅ := rfl
  have hcolon : ':' ∉ "sb-1".toList := by decide
  have hcmds : Orderly [] cmds := by
    refine ⟨⟨.inl (by decide), ?_⟩, ⟨.inr ⟨.inl (by decide), ?_⟩, ?_⟩, ⟨.inr ⟨.inr (by decide), ?_⟩, ?_⟩, trivial⟩ <;>
      rintro id hid <;> cases hid
    · exact hcolon
    · decide
    · exact hcolon
    · decide
    · exact hcolon
  rw [sandbox_status_iff h₀ hcmds (show status.word = some .sandboxStatus by decide) 3]
  intro hnone
  exact absurd (hnone _ (.head _)) (by decide)

/-- **One sandbox is registered**, and two are listed. -/
theorem sandbox_status_lists_status :
    let register : Request := ⟨0, ["SANDBOX REGISTER", "sb-1", "qemu", "127.0.0.1:4444"]⟩
    let status : Request := ⟨0, ["SANDBOX STATUS"]⟩
    (serveAll (F := Float) [(0, register), (0, status)] ⟨∅, {}⟩).1 =
        [(register, some (.str "sb-1")), (status, some (strs ["sb-1:status", "sb-1"]))] ∧
      registeredIds [(0, register)] = ["sb-1"] := by
  intro register status
  have hr : register.word = some .sandboxRegister := by decide
  have hs : status.word = some .sandboxStatus := by decide
  refine ⟨?_, by decide⟩
  simp only [serveAll, serve_of_word hr, serve_of_word hs]
  rfl

/-! ## The job of a sandbox

The commands of any number of clients interleave, with the sweeper at any time. -/

section
variable [F64 F]

def sandboxRules : Rules (World F) Request (Op F) Op.Ret Response Nat where
  exec := exec
  progOf q := respond q.ts q.args
  admitted q := q.word = some .sandboxRegister ∨ q.word = some .sandboxClaim ∨ q.word = some .sandboxRelease
  env w w' := ∃ now, w' = w.swept now

/-- One operation of a command, with the answer it ends the command with. -/
inductive SandboxOp (q : Request) : Op F → Option Response → Prop
  | enrol {id payload : String} : Registers id q → SandboxOp q (.setStr (sandboxKey id) payload) none
  | enrolled {id : String} : Registers id q → SandboxOp q (.setStr (sandboxStatusKey id) "idle") (some (.str id))
  | busy {id job : String} : Claims id job q → SandboxOp q (.setStr (sandboxStatusKey id) "busy") none
  | take {id job : String} : Claims id job q → SandboxOp q (.setStr (sandboxJobKey id) job) (some (.int 1))
  | idle {id : String} : Releases id q → SandboxOp q (.setStr (sandboxStatusKey id) "idle") none
  | drop {id : String} : Releases id q → SandboxOp q (.del (sandboxJobKey id)) (some (.int 1))

omit [F64 F] in
/-- A command of two operations. -/
theorem reach_pair {o₁ o₂ o : Op F} {a : Response} {k : o.Ret → Cmd F Response}
    (h : Prog.Reach (.op o₁ fun _ => .op o₂ fun _ => .ret a) (.op o k)) :
    (o = o₁ ∧ ∀ r, (k r).answer? = none) ∨ (o = o₂ ∧ ∀ r, (k r).answer? = some a) := by
  obtain heq | ⟨_, _, _, heq, h'⟩ := h.cases
  · cases heq
    exact .inl ⟨rfl, fun _ => rfl⟩
  · cases heq
    obtain heq | ⟨_, _, _, heq, h''⟩ := h'.cases
    · cases heq
      exact .inr ⟨rfl, fun _ => rfl⟩
    · cases heq
      cases h''.of_ret

theorem sandboxOp_of_reach {q : Request} (hq : (sandboxRules (F := F)).admitted q) {o : Op F}
    {k : o.Ret → Cmd F Response} (h : Prog.Reach (respond q.ts q.args) (.op o k)) (r : o.Ret) :
    SandboxOp q o (k r).answer? := by
  rcases hq with hq | hq | hq <;> rw [respond_of_word hq] at h
  · rcases hargs : q.args.tail with _ | ⟨id, _ | ⟨targetType, _ | ⟨addr, _ | _⟩⟩⟩
    case cons.cons.cons.nil =>
      rw [hargs] at h
      obtain ⟨rfl, hk⟩ | ⟨rfl, hk⟩ := reach_pair h <;> rw [hk r]
      · exact .enrol ⟨hq, targetType, addr, hargs⟩
      · exact .enrolled ⟨hq, targetType, addr, hargs⟩
    all_goals
      rw [hargs] at h
      cases h.of_ret
  · rcases hargs : q.args.tail with _ | ⟨id, _ | ⟨job, _ | _⟩⟩
    case cons.cons.nil =>
      rw [hargs] at h
      obtain ⟨rfl, hk⟩ | ⟨rfl, hk⟩ := reach_pair h <;> rw [hk r]
      · exact .busy ⟨hq, hargs⟩
      · exact .take ⟨hq, hargs⟩
    all_goals
      rw [hargs] at h
      cases h.of_ret
  · rcases hargs : q.args.tail with _ | ⟨id, _ | _⟩
    case cons.nil =>
      rw [hargs] at h
      obtain ⟨rfl, hk⟩ | ⟨rfl, hk⟩ := reach_pair h <;> rw [hk r]
      · exact .idle ⟨hq, hargs⟩
      · exact .drop ⟨hq, hargs⟩
    all_goals
      rw [hargs] at h
      cases h.of_ret

/-! ## Runs -/

/-- The step answers a command of this kind. -/
def Answers (A : Request → Prop) (e : JobEvent F) : Prop := ∃ q a, e.answered = some (q, a) ∧ A q

/-- The step answers a `sandbox claim` or a `sandbox release` of this id, or belongs to the registration of the
    sandbox whose key is that of this one's job. -/
def Settles (id : String) (e : JobEvent F) : Prop :=
  (∃ job, Answers (Claims id job) e) ∨ Answers (Releases id) e ∨
    ∃ c q o r a, e = .did c q o r a ∧ Registers (id ++ ":job") q

/-- The job of a sandbox is that of the last command on it that has answered. -/
structure LastWord (evs : List (JobEvent F)) (s : Data F) : Prop where
  claimed : ∀ id job, Since (Settles id) (Answers (Claims id job)) evs →
    s.lookup (sandboxJobKey id) = some ⟨.str job, none⟩
  released : ∀ id, Since (Settles id) (Answers (Releases id)) evs → s.lookup (sandboxJobKey id) = none

omit [F64 F] in
/-- A step that answers neither kind of command and leaves the job keys as they are. -/
theorem LastWord.quiet {evs : List (JobEvent F)} {s t : Data F} {e : JobEvent F} (h : LastWord evs s)
    (hans : ∀ q a, e.answered = some (q, a) → (∀ id, ¬Releases id q) ∧ ∀ id job, ¬Claims id job q)
    (hsome : ∀ id v, s.lookup (sandboxJobKey id) = some ⟨.str v, none⟩ →
      t.lookup (sandboxJobKey id) = some ⟨.str v, none⟩)
    (hnone : ∀ id, s.lookup (sandboxJobKey id) = none → t.lookup (sandboxJobKey id) = none) :
    LastWord (evs ++ [e]) t := by
  constructor
  · intro id job hsince
    obtain ⟨q, a, ha, hq⟩ | ⟨-, hold⟩ := since_snoc.1 hsince
    · exact absurd hq ((hans q a ha).2 id job)
    · exact hsome id job (h.claimed id job hold)
  · intro id hsince
    obtain ⟨q, a, ha, hq⟩ | ⟨-, hold⟩ := since_snoc.1 hsince
    · exact absurd hq ((hans q a ha).1 id)
    · exact hnone id (h.released id hold)

omit [F64 F] in
theorem answers_did {A : Request → Prop} {c : Nat} {q : Request} {o : Op F} {r : o.Ret} {a : Option Response} :
    Answers A (.did c q o r a : JobEvent F) ↔ a.isSome = true ∧ A q := by
  cases a <;> simp [Answers, Event.answered]

/-! ## What an operation means to the job of a sandbox -/

section
variable {q : Request} {o : Op F} {a : Response}

omit [F64 F] in
/-- A `sandbox claim` answers with its last operation. -/
theorem SandboxOp.claim_op (h : SandboxOp q o (some a)) {id job : String} (hq : Claims id job q) :
    o = .setStr (sandboxJobKey id) job ∧ a = .int 1 := by
  cases h with
  | enrolled hq' => exact absurd (hq'.1.symm.trans hq.1) (by decide)
  | drop hq' => exact absurd (hq'.1.symm.trans hq.1) (by decide)
  | take hq' =>
    have hargs := hq'.2.symm.trans hq.2
    simp only [List.cons.injEq, and_true] at hargs
    obtain ⟨rfl, rfl⟩ := hargs
    exact ⟨rfl, rfl⟩

omit [F64 F] in
theorem SandboxOp.release_op (h : SandboxOp q o (some a)) {id : String} (hq : Releases id q) :
    o = .del (sandboxJobKey id) := by
  cases h with
  | enrolled hq' => exact absurd (hq'.1.symm.trans hq.1) (by decide)
  | take hq' => exact absurd (hq'.1.symm.trans hq.1) (by decide)
  | drop hq' =>
    have hargs := hq'.2.symm.trans hq.2
    simp only [List.cons.injEq, and_true] at hargs
    rw [hargs]

omit [F64 F] in
/-- No other operation writes the job. -/
theorem SandboxOp.frame {a : Option Response} (h : SandboxOp q o a) {id : String} {c : Nat} {r : o.Ret}
    (hno : ¬Settles id (.did c q o r a : JobEvent F)) : writeKey o ≠ some (sandboxJobKey id) := by
  have hstatus : ∀ id', some (sandboxStatusKey id') ≠ some (sandboxJobKey id) := fun id' heq =>
    sandboxStatusKey_ne_sandboxJobKey id' id (Option.some.inj heq)
  cases h with
  | enrol hq =>
    intro heq
    obtain rfl := sandboxKey_eq_sandboxJobKey.1 (Option.some.inj heq)
    exact hno (.inr (.inr ⟨c, q, _, r, none, rfl, hq⟩))
  | enrolled => exact hstatus _
  | busy => exact hstatus _
  | idle => exact hstatus _
  | @take _ job hq =>
    intro heq
    obtain rfl := sandboxJobKey_inj.1 (Option.some.inj heq)
    exact hno (.inl ⟨job, answers_did.2 ⟨rfl, hq⟩⟩)
  | drop hq =>
    intro heq
    obtain rfl := sandboxJobKey_inj.1 (Option.some.inj heq)
    exact hno (.inr (.inl (answers_did.2 ⟨rfl, hq⟩)))

end

/-- An operation of a command. -/
theorem lastWord_op {evs : List (JobEvent F)} {w w' : World F} {c now : Nat} {q : Request} {o : Op F} {r : o.Ret}
    {a : Option Response} (hop : SandboxOp q o a) (hex : exec now o w = some (r, w')) (h : LastWord evs w.store) :
    LastWord (evs ++ [.did c q o r a]) w'.store := by
  constructor
  · intro id job hsince
    obtain hans | ⟨hno, hold⟩ := since_snoc.1 hsince
    · obtain ⟨ha, hq⟩ := answers_did.1 hans
      obtain ⟨a, rfl⟩ := Option.isSome_iff_exists.1 ha
      obtain ⟨rfl, -⟩ := hop.claim_op hq
      cases hex
      exact AList.lookup_insert _
    · rw [exec_frame hex (hop.frame hno)]
      exact h.claimed id job hold
  · intro id hsince
    obtain hans | ⟨hno, hold⟩ := since_snoc.1 hsince
    · obtain ⟨ha, hq⟩ := answers_did.1 hans
      obtain ⟨a, rfl⟩ := Option.isSome_iff_exists.1 ha
      obtain rfl := hop.release_op hq
      cases hex
      exact AList.lookup_erase _ _
    · rw [exec_frame hex (hop.frame hno)]
      exact h.released id hold

/-- A `sandbox claim` and a `sandbox release` have operations to do before they answer. -/
theorem answer?_respond {q : Request} (hq : (∃ id, Releases id q) ∨ ∃ id job, Claims id job q) :
    (respond q.ts q.args : Cmd F Response).answer? = none := by
  rcases hq with ⟨id, hq⟩ | ⟨id, job, hq⟩
  · rw [respond_of_word hq.1, hq.2]
    rfl
  · rw [respond_of_word hq.1, hq.2]
    rfl

variable {w₀ : World F} {evs : List (JobEvent F)} {s s' : Sys (World F) Request (Op F) Op.Ret Response}
  {e : JobEvent F}

theorem sandboxOp_of_task (h : Trace sandboxRules w₀ evs s) {c : Nat} {q : Request} {o : Op F}
    {k : o.Ret → Cmd F Response} (hc : s.tasks c = some ⟨q, .op o k⟩) (r : o.Ret) : SandboxOp q o (k r).answer? := by
  obtain ⟨hadm, hreach⟩ := h.task_reach hc
  exact sandboxOp_of_reach hadm hreach r

/-- **Step.** -/
theorem lastWord_step (htr : Trace sandboxRules w₀ evs s) (hstep : Step sandboxRules s e s')
    (h : LastWord evs s.shared.store) : LastWord (evs ++ [e]) s'.shared.store := by
  cases hstep with
  | begin c q hc hadm =>
    refine h.quiet (fun q' a ha => ?_) (fun _ _ h => h) fun _ h => h
    obtain ⟨a', ha', heq⟩ := Option.map_eq_some_iff.1 ha
    cases heq
    refine ⟨fun id hq => ?_, fun id job hq => ?_⟩
    · exact absurd ((answer?_respond (.inl ⟨id, hq⟩)).symm.trans ha') (by simp)
    · exact absurd ((answer?_respond (.inr ⟨id, job, hq⟩)).symm.trans ha') (by simp)
  | op c q o k now r w' hc hex => exact lastWord_op (sandboxOp_of_task htr hc r) hex h
  | opFails => exact h.quiet (fun _ _ h => by cases h) (fun _ _ h => h) fun _ h => h
  | fails => exact h.quiet (fun _ _ h => by cases h) (fun _ _ h => h) fun _ h => h
  | env w' hw =>
    obtain ⟨now, rfl⟩ := hw
    refine h.quiet (fun _ _ h => by cases h) ?_ ?_
    · intro id v hv
      simp [World.swept, lookup_sweep, hv, Option.filter_some, Entry.expired]
    · intro id hn
      simp [World.swept, lookup_sweep, hn]

/-- **Run.** -/
theorem lastWord_trace (h : Trace sandboxRules w₀ evs s) : LastWord evs s.shared.store := by
  induction h with
  | start => exact ⟨fun _ _ h => absurd h not_since_nil, fun _ h => absurd h not_since_nil⟩
  | next htr hstep ih => exact lastWord_step htr hstep ih

/-- The answer to a `sandbox claim` is `1`. -/
theorem claim_answers (h : Trace sandboxRules w₀ evs s) {id job : String} {q : Request} {a : Response}
    (hq : Claims id job q) (he : e ∈ evs) (ha : e.answered = some (q, a)) : a = .int 1 := by
  induction h with
  | start => cases he
  | next htr hstep ih =>
    rcases List.mem_append.1 he with he | he
    · exact ih he
    · obtain rfl := List.mem_singleton.1 he
      cases hstep with
      | begin c q' hc hadm =>
        obtain ⟨a', ha', heq⟩ := Option.map_eq_some_iff.1 ha
        cases heq
        exact absurd ((answer?_respond (.inr ⟨id, job, hq⟩)).symm.trans ha') (by simp)
      | op c q' o k now r w' hc hex =>
        obtain ⟨a', ha', heq⟩ := Option.map_eq_some_iff.1 ha
        cases heq
        have hop := sandboxOp_of_task htr hc r
        rw [ha'] at hop
        exact (hop.claim_op hq).2
      | opFails => cases ha
      | fails => cases ha
      | env => cases ha

/-! ## Commands that do not overlap -/

/-- A command on this sandbox. -/
def OnSandbox (id : String) (q : Request) : Prop := Registers id q ∨ (∃ job, Claims id job q) ∨ Releases id q

/-- A command that writes the status or the job of this sandbox: one on it, or the registration of a sandbox whose key is
    that of one of the two. -/
def Touches (id : String) (q : Request) : Prop :=
  OnSandbox id q ∨ Registers (id ++ ":status") q ∨ Registers (id ++ ":job") q

omit [F64 F] in
theorem SandboxOp.apart {q : Request} {o : Op F} {a : Option Response} (h : SandboxOp q o a) {id : String}
    (hno : ¬Touches id q) : writeKey o ≠ some (sandboxStatusKey id) ∧ writeKey o ≠ some (sandboxJobKey id) := by
  have hkeys : ∀ id', some (sandboxStatusKey id') ≠ some (sandboxJobKey id) := fun id' heq =>
    sandboxStatusKey_ne_sandboxJobKey id' id (Option.some.inj heq)
  have hkeys' : ∀ id', some (sandboxJobKey id') ≠ some (sandboxStatusKey id) := fun id' heq =>
    sandboxStatusKey_ne_sandboxJobKey id id' (Option.some.inj heq).symm
  cases h with
  | enrol hq =>
    refine ⟨fun heq => ?_, fun heq => ?_⟩
    · obtain rfl := sandboxKey_eq_sandboxStatusKey.1 (Option.some.inj heq)
      exact hno (.inr (.inl hq))
    · obtain rfl := sandboxKey_eq_sandboxJobKey.1 (Option.some.inj heq)
      exact hno (.inr (.inr hq))
  | enrolled hq =>
    refine ⟨fun heq => ?_, hkeys _⟩
    obtain rfl := sandboxStatusKey_inj.1 (Option.some.inj heq)
    exact hno (.inl (.inl hq))
  | @busy _ job hq =>
    refine ⟨fun heq => ?_, hkeys _⟩
    obtain rfl := sandboxStatusKey_inj.1 (Option.some.inj heq)
    exact hno (.inl (.inr (.inl ⟨job, hq⟩)))
  | idle hq =>
    refine ⟨fun heq => ?_, hkeys _⟩
    obtain rfl := sandboxStatusKey_inj.1 (Option.some.inj heq)
    exact hno (.inl (.inr (.inr hq)))
  | @take _ job hq =>
    refine ⟨hkeys' _, fun heq => ?_⟩
    obtain rfl := sandboxJobKey_inj.1 (Option.some.inj heq)
    exact hno (.inl (.inr (.inl ⟨job, hq⟩)))
  | drop hq =>
    refine ⟨hkeys' _, fun heq => ?_⟩
    obtain rfl := sandboxJobKey_inj.1 (Option.some.inj heq)
    exact hno (.inl (.inr (.inr hq)))

/-- A text that stands under a key, or nothing. -/
def Stands (key : String) (text : Option String) (w : World F) : Prop :=
  w.store.lookup key = text.map fun v => ⟨.str v, none⟩

omit [F64 F] in
theorem Stands.swept {key : String} {text : Option String} {w : World F} (h : Stands key text w) (now : Nat) :
    Stands key text (w.swept now) := by
  unfold Stands at h ⊢
  cases text with
  | none => simp [World.swept, lookup_sweep, h]
  | some v => simp [World.swept, lookup_sweep, h, Option.filter_some, Entry.expired]

/-- What other commands leave alone. -/
theorem keeps_stands {id key : String} (hkey : key = sandboxStatusKey id ∨ key = sandboxJobKey id) (text : Option String) :
    (sandboxRules (F := F)).Keeps (Touches id) (Stands key text) := by
  constructor
  · intro q o k now w r w' hadm hno hreach hex h
    obtain ⟨hstatus, hjob⟩ := (sandboxOp_of_reach hadm hreach r).apart hno
    have hne : writeKey o ≠ some key := by
      rcases hkey with rfl | rfl
      · exact hstatus
      · exact hjob
    exact (exec_frame hex hne).trans h
  · rintro w w' ⟨now, rfl⟩ h
    exact h.swept now

theorem keeps_both {id : String} (status : String) (job : Option String) :
    (sandboxRules (F := F)).Keeps (Touches id) fun w =>
      Stands (sandboxStatusKey id) (some status) w ∧ Stands (sandboxJobKey id) job w :=
  ⟨fun hadm hno hreach hex h => ⟨(keeps_stands (.inl rfl) _).op hadm hno hreach hex h.1,
      (keeps_stands (.inr rfl) _).op hadm hno hreach hex h.2⟩,
    fun henv h => ⟨(keeps_stands (.inl rfl) _).env henv h.1, (keeps_stands (.inr rfl) _).env henv h.2⟩⟩

theorem stands_setStr (now : Nat) {key text : String} {w w' : World F} {r : (Op.setStr key text : Op F).Ret}
    (h : exec now (.setStr key text) w = some (r, w')) : Stands key (some text) w' := by
  cases h
  exact AList.lookup_insert _

section
variable {id : String} {c : Nat} {q : Request}

theorem progOf_claim {job : String} (hq : Claims id job q) :
    (sandboxRules (F := F)).progOf q = .op (.setStr (sandboxStatusKey id) "busy") fun _ =>
      .op (.setStr (sandboxJobKey id) job) fun _ => .ret (.int 1) := by
  rw [show (sandboxRules (F := F)).progOf q = respond q.ts q.args from rfl, respond_of_word hq.1, hq.2]
  rfl

theorem progOf_release (hq : Releases id q) :
    (sandboxRules (F := F)).progOf q = .op (.setStr (sandboxStatusKey id) "idle") fun _ =>
      .op (.del (sandboxJobKey id)) fun _ => .ret (.int 1) := by
  rw [show (sandboxRules (F := F)).progOf q = respond q.ts q.args from rfl, respond_of_word hq.1, hq.2]
  rfl

theorem lone_claim {job : String} (hq : Claims id job q) (h : LoneTrace sandboxRules w₀ (Touches id) c q evs s)
    (hquiet : ¬s.Serves (Touches id)) :
    Stands (sandboxStatusKey id) (some "busy") s.shared ∧ Stands (sandboxJobKey id) (some job) s.shared := by
  refine h.pair (progOf_claim hq) ?_ ?_ (keeps_stands (.inl rfl) (some "busy")) (keeps_both "busy" (some job))
    (.inl (.inr (.inl ⟨job, hq⟩))) hquiet
  · exact fun now w => ⟨_, _, rfl, stands_setStr now rfl⟩
  · intro now w hbusy
    refine ⟨_, _, rfl, ?_, stands_setStr now rfl⟩
    have hne : writeKey (Op.setStr (sandboxJobKey id) job : Op F) ≠ some (sandboxStatusKey id) := fun heq =>
      sandboxStatusKey_ne_sandboxJobKey id id (Option.some.inj heq).symm
    have hex : exec now (.setStr (sandboxJobKey id) job : Op F) w = some (_, _) := rfl
    exact (exec_frame hex hne).trans hbusy

theorem lone_release (hq : Releases id q) (h : LoneTrace sandboxRules w₀ (Touches id) c q evs s)
    (hquiet : ¬s.Serves (Touches id)) :
    Stands (sandboxStatusKey id) (some "idle") s.shared ∧ Stands (sandboxJobKey id) none s.shared := by
  refine h.pair (progOf_release hq) ?_ ?_ (keeps_stands (.inl rfl) (some "idle")) (keeps_both "idle" none)
    (.inl (.inr (.inr hq))) hquiet
  · exact fun now w => ⟨_, _, rfl, stands_setStr now rfl⟩
  · intro now w hidle
    refine ⟨_, _, rfl, ?_, AList.lookup_erase _ _⟩
    have hne : writeKey (Op.del (sandboxJobKey id) : Op F) ≠ some (sandboxStatusKey id) := fun heq =>
      sandboxStatusKey_ne_sandboxJobKey id id (Option.some.inj heq).symm
    have hex : exec now (.del (sandboxJobKey id) : Op F) w = some (_, _) := rfl
    exact (exec_frame hex hne).trans hidle

theorem lone_register (hq : Registers id q) (h : LoneTrace sandboxRules w₀ (Touches id) c q evs s)
    (hquiet : ¬s.Serves (Touches id)) : Stands (sandboxStatusKey id) (some "idle") s.shared := by
  obtain ⟨hword, targetType, addr, hargs⟩ := hq
  have hprog : (sandboxRules (F := F)).progOf q = .op (.setStr (sandboxKey id) (targetType ++ "|" ++ addr)) fun _ =>
      .op (.setStr (sandboxStatusKey id) "idle") fun _ => .ret (.str id) := by
    rw [show (sandboxRules (F := F)).progOf q = respond q.ts q.args from rfl, respond_of_word hword, hargs]
    rfl
  have htrue : (sandboxRules (F := F)).Keeps (Touches id) fun _ => True := ⟨fun _ _ _ _ _ => trivial, fun _ _ => trivial⟩
  refine h.pair hprog ?_ ?_ htrue (keeps_stands (.inl rfl) (some "idle"))
    (.inl (.inl ⟨hword, targetType, addr, hargs⟩)) hquiet
  · exact fun now w => ⟨_, _, rfl, trivial⟩
  · exact fun now w _ => ⟨_, _, rfl, stands_setStr now rfl⟩

end

/-- Status and job of a sandbox are those of the command `q` on it. -/
structure OfCommand (id : String) (q : Request) (w : World F) : Prop where
  claimed : ∀ job, Claims id job q →
    Stands (sandboxStatusKey id) (some "busy") w ∧ Stands (sandboxJobKey id) (some job) w
  released : Releases id q → Stands (sandboxStatusKey id) (some "idle") w ∧ Stands (sandboxJobKey id) none w
  registered : Registers id q → Stands (sandboxStatusKey id) (some "idle") w
  busy : Stands (sandboxStatusKey id) (some "busy") w → ∃ job, Claims id job q ∧ Stands (sandboxJobKey id) (some job) w

theorem ofCommand_of_lone {id : String} {c : Nat} {q : Request} (hq : OnSandbox id q)
    (h : LoneTrace sandboxRules w₀ (Touches id) c q evs s) (hquiet : ¬s.Serves (Touches id)) :
    OfCommand id q s.shared := by
  refine ⟨fun job hq => lone_claim hq h hquiet, fun hq => lone_release hq h hquiet,
    fun hq => lone_register hq h hquiet, fun hbusy => ?_⟩
  have hnot : ¬Stands (sandboxStatusKey id) (some "idle") s.shared := by
    intro hidle
    exact absurd (hidle.symm.trans hbusy) (by simp)
  rcases hq with hq | ⟨job, hq⟩ | hq
  · exact absurd (lone_register hq h hquiet) hnot
  · exact ⟨job, hq, (lone_claim hq h hquiet).2⟩
  · exact absurd (lone_release hq h hquiet).1 hnot

/-- **Claims do not exclude each other; the last one stands.** A `sandbox claim` answers `1` in every state. In every
    run, the job stored for a sandbox is that of the last `sandbox claim` on it that has answered, until a
    `sandbox release` of it answers: then there is none. (A sandbox registered under the id `<id>:job` takes that
    key for itself.) And once a command on the sandbox that began while there was no other is done, with none begun
    since, status and job are its own. -/
theorem sandbox_last_word (h : Trace sandboxRules w₀ evs s) :
    (∀ id job q now (w : World F), Claims id job q → (serve now q w).1 = some (.int 1)) ∧
      (∀ e ∈ evs, ∀ id job q a, Claims id job q → e.answered = some (q, a) → a = .int 1) ∧
      (∀ id job, Since (Settles id) (Answers (Claims id job)) evs →
        s.shared.store.lookup (sandboxJobKey id) = some ⟨.str job, none⟩) ∧
      (∀ id, Since (Settles id) (Answers (Releases id)) evs → s.shared.store.lookup (sandboxJobKey id) = none) ∧
      ∀ id c q, OnSandbox id q → LoneTrace sandboxRules w₀ (Touches id) c q evs s → ¬s.Serves (Touches id) →
        OfCommand id q s.shared := by
  refine ⟨?_, ?_, (lastWord_trace h).claimed, (lastWord_trace h).released, fun id c q => ofCommand_of_lone⟩
  · intro id job q now w hq
    rw [serve_claim hq]
  · intro e he id job q a hq ha
    exact claim_answers h hq he ha

end

/-- Where nothing is in progress a sandbox can be claimed, without others. -/
theorem exists_lone_claim [F64 F] {w₀ : World F} {evs : List (JobEvent F)}
    {s : Sys (World F) Request (Op F) Op.Ret Response} (h : Trace sandboxRules w₀ evs s) (hidle : ∀ c, s.tasks c = none)
    {id job : String} {q : Request} (hq : Claims id job q) :
    ∃ evs' s', LoneTrace sandboxRules w₀ (Touches id) 0 q evs' s' ∧ ¬s'.Serves (Touches id) := by
  have hadm : (sandboxRules (F := F)).admitted q := .inr (.inl hq.1)
  have hquiet : ¬s.Serves (Touches id) := by
    rintro ⟨c, t, ht, -⟩
    exact absurd (ht.symm.trans (hidle c)) (by simp)
  have l₁ := LoneTrace.begin h hquiet (.begin_of (hidle 0) hadm (progOf_claim hq))
  have l₂ := l₁.next (.op _ 0 q (.setStr (sandboxStatusKey id) "busy") (fun _ => .op (.setStr (sandboxJobKey id) job)
    fun _ => .ret (.int 1)) 0 () _ (by simp [settle]) rfl) Event.not_accepts_did
  have l₃ := l₂.next (.op _ 0 q (.setStr (sandboxJobKey id) job) (fun _ => .ret (.int 1)) 0 () _
    (by simp [settle]) rfl) Event.not_accepts_did
  refine ⟨_, _, l₃, ?_⟩
  rintro ⟨c, t, ht, -⟩
  by_cases hc : c = 0
  · subst hc
    simp [settle] at ht
  · simp [hc, hidle] at ht

/-- Two clients claim a sandbox at once, and the one that answers last has it; then it is claimed by a third one, alone. -/
theorem sandbox_last_word_race :
    let three : Request := ⟨0, ["SANDBOX CLAIM", "sb-1", "3"]⟩
    ∃ (evs evs' : List (JobEvent Float)) (s s' : Sys (World Float) Request (Op Float) Op.Ret Response),
      Trace sandboxRules ⟨∅, {}⟩ evs s ∧ s.shared.store.lookup (sandboxJobKey "sb-1") = some ⟨.str "1", none⟩ ∧
      LoneTrace sandboxRules ⟨∅, {}⟩ (Touches "sb-1") 0 three evs' s' ∧
      Stands (sandboxStatusKey "sb-1") (some "busy") s'.shared ∧ Stands (sandboxJobKey "sb-1") (some "3") s'.shared := by
  intro three
  let one : Request := ⟨0, ["SANDBOX CLAIM", "sb-1", "1"]⟩
  let two : Request := ⟨0, ["SANDBOX CLAIM", "sb-1", "2"]⟩
  have h₁ : (sandboxRules (F := Float)).progOf one = sandboxClaim ["sb-1", "1"] :=
    respond_of_word (show one.word = some .sandboxClaim by decide)
  have h₂ : (sandboxRules (F := Float)).progOf two = sandboxClaim ["sb-1", "2"] :=
    respond_of_word (show two.word = some .sandboxClaim by decide)
  have h₃ : Claims "sb-1" "3" three := ⟨by decide, rfl⟩
  have t₀ : Trace (sandboxRules (F := Float)) ⟨∅, {}⟩ [] ⟨⟨∅, {}⟩, fun _ => none⟩ := .start
  have t₁ := t₀.next (.begin _ 0 one rfl (.inr (.inl (by decide))))
  have t₂ := t₁.next (.op _ 0 one (.setStr (sandboxStatusKey "sb-1") "busy") _ 0 () _ (by rw [h₁]; rfl) rfl)
  have t₃ := t₂.next (.begin _ 1 two rfl (.inr (.inl (by decide))))
  have t₄ := t₃.next (.op _ 1 two (.setStr (sandboxStatusKey "sb-1") "busy") _ 0 () _ (by rw [h₂]; rfl) rfl)
  have t₅ := t₄.next (.op _ 1 two (.setStr (sandboxJobKey "sb-1") "2") _ 0 () _ rfl rfl)
  have t₆ := t₅.next (.op _ 0 one (.setStr (sandboxJobKey "sb-1") "1") _ 0 () _ rfl rfl)
  obtain ⟨evs', s', hlone, hquiet⟩ := exists_lone_claim t₆ (by rintro (_ | _ | c) <;> rfl) h₃
  refine ⟨_, evs', _, s', t₆, (sandbox_last_word t₆).2.2.1 "sb-1" "1" ?_, hlone, ?_⟩
  · exact since_snoc.2 (.inl (answers_did.2 ⟨rfl, by decide, rfl⟩))
  · exact ((sandbox_last_word hlone.trace).2.2.2.2 "sb-1" 0 three (.inr (.inl ⟨"3", h₃⟩)) hlone hquiet).claimed "3" h₃

/-- **Two jobs claim one sandbox**, and both are told `1`. Where a claim overlaps a release the sandbox is left busy without
    a job, with both answered. -/
theorem sandbox_claimed_twice :
    let register : Request := ⟨0, ["SANDBOX REGISTER", "sb-1", "qemu", "127.0.0.1:4444"]⟩
    let one : Request := ⟨0, ["SANDBOX CLAIM", "sb-1", "1"]⟩
    let two : Request := ⟨0, ["SANDBOX CLAIM", "sb-1", "2"]⟩
    let release : Request := ⟨0, ["SANDBOX RELEASE", "sb-1"]⟩
    (serveAll (F := Float) [(0, register), (0, one), (0, two)] ⟨∅, {}⟩).1 =
        [(register, some (.str "sb-1")), (one, some (.int 1)), (two, some (.int 1))] ∧
      ∃ (evs : List (JobEvent Float)) (s : Sys (World Float) Request (Op Float) Op.Ret Response),
        Trace sandboxRules ⟨∅, {}⟩ evs s ∧
        evs.filterMap Event.answered = [(one, .int 1), (release, .int 1)] ∧
        Stands (sandboxStatusKey "sb-1") (some "busy") s.shared ∧ Stands (sandboxJobKey "sb-1") none s.shared := by
  intro register one two release
  have hr : register.word = some .sandboxRegister := by decide
  have h₁ : one.word = some .sandboxClaim := by decide
  have h₂ : two.word = some .sandboxClaim := by decide
  have h₃ : release.word = some .sandboxRelease := by decide
  refine ⟨?_, ?_⟩
  · simp only [serveAll, serve_of_word hr, serve_of_word h₁, serve_of_word h₂]
    rfl
  · have t₀ : Trace (sandboxRules (F := Float)) ⟨∅, {}⟩ [] ⟨⟨∅, {}⟩, fun _ => none⟩ := .start
    have hadm₁ : (sandboxRules (F := Float)).admitted one := .inr (.inl h₁)
    have hadm₂ : (sandboxRules (F := Float)).admitted release := .inr (.inr h₃)
    have hclaim : Claims "sb-1" "1" one := ⟨h₁, rfl⟩
    have hrelease : Releases "sb-1" release := ⟨h₃, rfl⟩
    have t₁ := t₀.next (.begin_of (c := 0) rfl hadm₂ (progOf_release hrelease))
    have t₂ := t₁.next (.op _ 0 release (.setStr (sandboxStatusKey "sb-1") "idle") _ 0 () _ rfl rfl)
    have t₃ := t₂.next (.begin_of (c := 1) rfl hadm₁ (progOf_claim hclaim))
    have t₄ := t₃.next (.op _ 1 one (.setStr (sandboxStatusKey "sb-1") "busy") _ 0 () _ rfl rfl)
    have t₅ := t₄.next (.op _ 1 one (.setStr (sandboxJobKey "sb-1") "1") _ 0 () _ rfl rfl)
    have t₆ := t₅.next (.op _ 0 release (.del (sandboxJobKey "sb-1")) _ 0 _ _ rfl rfl)
    refine ⟨_, _, t₆, rfl, ?_, AList.lookup_erase _ _⟩
    rfl

end RedisOps.Handler
