import RedisOps.Lib.Descriptors

/-!
# Running a command (`sandbox/src/sandbox.cpp:20-29`, `:112-190`)

| here | there |
| --- | --- |
| `Own`                  | `Sandbox::run` and `cleanup`, one system call a step |
| `Host.pipeFd`          | `pipe_fd_`, with `none` for `-1` |
| `Env`                  | the other threads of the process, the child and whoever inherits from it |
| `Ending`, `exitCodeOf` | what `waitpid` stores, and `WIFEXITED` … `WTERMSIG` |

The loop reads until there is no write end left anywhere: its own is closed before it begins, the child's go when the child
ends, and those that its background processes inherited when they end. A thread of the process that forks between `pipe` and
the `close` behind `clone` passes the write end on as well; nothing here is `O_CLOEXEC`.

An exception of `output_fn` leaves `run` without `cleanup`. `~Sandbox` then closes the read end, unless the sandbox lives on and
runs again: the next `pipe` writes over `pipe_fd_`, and the old read end is lost.

* `run_output` — what a finished `run` returned is what was written to its pipe, unless a `read` failed.
* `run_descriptors` — no descriptor of anybody else is closed, and what is left over is a read end for each exception.
* `run_returns` — with the child gone and the write ends closed, `run` gets to its end.

Left out: the cgroup files, the clock, the stack for `clone` (its failure is that of `clone`), memory running out, and `waitpid`
failing.
-/

namespace RedisOps.Sandbox

open Lib

/-! ## Wait statuses -/

/-- How a process ends. A signal's number fits into seven bits, of which 127 means something else. -/
inductive Ending where
  | exited (code : Nat)
  | killed (sig : Nat) (core : Bool) (h : 0 < sig ∧ sig < 127)

/-- The status word. -/
def Ending.status : Ending → Nat
  | .exited code => code % 256 * 256
  | .killed sig core _ => sig + if core then 128 else 0

def wIfExited (status : Nat) : Bool := status % 128 == 0
def wExitStatus (status : Nat) : Nat := status / 256 % 256
def wIfSignaled (status : Nat) : Bool := status % 128 != 0 && status % 128 != 127
def wTermSig (status : Nat) : Nat := status % 128

/-- `result.exit_code` behind `waitpid`. -/
def exitCodeOf (status : Nat) : Int :=
  if wIfExited status then wExitStatus status
  else if wIfSignaled status then 128 + wTermSig status
  else -1

/-- What a shell would say. -/
def Ending.code : Ending → Nat
  | .exited code => code % 256
  | .killed sig _ _ => 128 + sig

theorem exitCodeOf_status (e : Ending) : exitCodeOf e.status = e.code := by
  cases e with
  | exited code =>
    have hlow : code % 256 * 256 % 128 = 0 := by omega
    simp [exitCodeOf, Ending.status, Ending.code, wIfExited, wExitStatus, hlow]
  | killed sig core h =>
    have hlow : (sig + if core then 128 else 0) % 128 = sig := by
      cases core <;> simp <;> omega
    have hne : sig ≠ 0 := by omega
    have hne' : sig ≠ 127 := by omega
    simp [exitCodeOf, Ending.status, Ending.code, wIfExited, wIfSignaled, wTermSig, hlow, hne, hne']

/-! ## The process -/

/-- What a descriptor stands for. The pipes are numbered. -/
inductive Obj where
  | readEnd (p : Nat)
  | writeEnd (p : Nat)
  | other

def Obj.IsEnd : Obj → Prop
  | .other => False
  | _ => True

structure ExecResult where
  exitCode : Int
  stdout : Bytes
  stderr : String

/-- `lines`: what `output_fn` was called with. `failed`: a `read` has failed. -/
structure Output where
  lines : List Bytes
  stdout : Bytes
  failed : Bool

/-- A child that has run, and its end. -/
structure Ran where
  pipe : Nat
  out : Output
  ending : Ending

/-- A `run` that has returned. -/
structure Finished where
  result : ExecResult
  ran : Option Ran

/-- What comes behind `cleanup`. -/
inductive After where
  | returns (f : Finished)
  | destroyed

inductive Place where
  | idle
  | piped
  | cloned
  | reading (out : Output)
  | waiting (out : Output)
  | closingRead (next : After)
  | closingWrite (next : After)
  | gone

/-- `current`: the number of the last pipe. `child`: the end of the last child. `thrown`: how often `output_fn` has. `lost`: the
    read ends, with their pipes, that a `pipe` has written over in `pipe_fd_`. -/
structure Host where
  table : Nat → Option Obj
  pipes : Nat → Pipe
  current : Nat
  child : Option Ending
  pipeFd : Option Nat × Option Nat
  place : Place
  returned : List Finished
  thrown : Nat
  lost : List (Nat × Nat)

namespace Host

def start (table : Nat → Option Obj) : Host :=
  ⟨table, fun _ => .empty, 0, none, (none, none), .idle, [], 0, []⟩

/-- The write end that the child inherits with the descriptors. -/
def passOn (h : Host) (p : Nat) : Nat → Pipe :=
  Function.update h.pipes p { h.pipes p with outside := (h.pipes p).outside + 1 }

/-- Behind `cleanup`. -/
def finish (h : Host) : After → Host
  | .returns f => { h with place := .idle, returned := h.returned ++ [f] }
  | .destroyed => { h with place := .gone }

end Host

open Host

/-- `sizeof(buf) - 1` -/
def BUF : Nat := 4095

inductive Own : Host → Host → Prop
  | pipe {h r w} (hat : h.place = .idle) (hr : h.table r = none) (hw : h.table w = none) (hne : w ≠ r) :
      Own h { h with
        table := Function.update (Function.update h.table r (some (.readEnd (h.current + 1)))) w
          (some (.writeEnd (h.current + 1)))
        pipes := Function.update h.pipes (h.current + 1) .empty
        current := h.current + 1
        pipeFd := (some r, some w)
        place := .piped
        lost := h.lost ++ h.pipeFd.1.toList.map fun fd => (fd, h.current) }
  | clone {h} (hat : h.place = .piped) :
      Own h { h with pipes := h.passOn h.current, child := none, place := .cloned }
  | closesWrite {h} (hat : h.place = .cloned) :
      Own h { h with
        table := closeFd h.table h.pipeFd.2
        pipeFd := (h.pipeFd.1, none)
        place := .reading ⟨[], [], false⟩ }
  | reads {h fd p rest out} (chunk : Bytes) (hat : h.place = .reading out) (hfd : h.pipeFd.1 = some fd)
      (hobj : h.table fd = some (.readEnd p)) (hdata : (h.pipes p).data = chunk ++ rest) (hne : chunk ≠ [])
      (hlen : chunk.length ≤ BUF) :
      Own h { h with
        pipes := Function.update h.pipes p { h.pipes p with taken := (h.pipes p).taken ++ chunk, data := rest }
        place := .reading { out with lines := out.lines ++ [chunk], stdout := out.stdout ++ chunk } }
  | eof {h fd p out} (hat : h.place = .reading out) (hfd : h.pipeFd.1 = some fd)
      (hobj : h.table fd = some (.readEnd p)) (hover : (h.pipes p).Over) (hown : ∀ fd', h.table fd' ≠ some (.writeEnd p)) :
      Own h { h with place := .waiting out }
  | waits {h out e} (hat : h.place = .waiting out) (hchild : h.child = some e) :
      Own h { h with place := .closingRead (.returns
        ⟨⟨exitCodeOf e.status, out.stdout, ""⟩, some ⟨h.current, out, e⟩⟩) }
  | destroyed {h} (hat : h.place = .idle) : Own h { h with place := .closingRead .destroyed }
  | closesRead {h next} (hat : h.place = .closingRead next) :
      Own h { h with table := closeFd h.table h.pipeFd.1, place := .closingWrite next }
  | closesBoth {h next} (hat : h.place = .closingWrite next) :
      Own h ({ h with table := closeFd h.table h.pipeFd.2, pipeFd := (none, none) }.finish next)

/-- What goes wrong for `run`. -/
inductive Fault : Host → Host → Prop
  | pipeFails {h} (hat : h.place = .idle) :
      Fault h { h with returned := h.returned ++ [⟨⟨-1, [], "pipe() failed"⟩, none⟩] }
  | cloneFails {h} (strerror : String) (hat : h.place = .piped) :
      Fault h { h with place := .closingRead (.returns ⟨⟨-1, [], "clone() failed: " ++ strerror⟩, none⟩) }
  | readFails {h out} (hat : h.place = .reading out) : Fault h { h with place := .waiting { out with failed := true } }
  /-- `output_fn` throws, with the read end open and the child not waited for. -/
  | throws {h out} (hat : h.place = .reading out) : Fault h { h with place := .idle, thrown := h.thrown + 1 }

inductive Env : Host → Host → Prop
  | opens {h fd} (hfd : h.table fd = none) : Env h { h with table := Function.update h.table fd (some .other) }
  | closes {h fd} (hfd : h.table fd = some .other) : Env h { h with table := Function.update h.table fd none }
  | forks {h fd p} (hfd : h.table fd = some (.writeEnd p)) : Env h { h with pipes := h.passOn p }
  | outside {h p q} (hp : (h.pipes p).Outside q) : Env h { h with pipes := Function.update h.pipes p q }
  | ends {h} (e : Ending) (hchild : h.child = none) : Env h { h with child := some e }

def Step (h h' : Host) : Prop := Own h h' ∨ Fault h h' ∨ Env h h'

/-- From a table without ends of a pipe. -/
inductive Reachable : Host → Prop
  | start {table} (h : ∀ fd o, table fd = some o → ¬ o.IsEnd) : Reachable (.start table)
  | next {h h'} (hr : Reachable h) (hstep : Step h h') : Reachable h'

/-! ## The descriptors -/

/-- `cleanup` has closed the first of the two. -/
def Place.readClosed : Place → Bool
  | .closingWrite _ => true
  | _ => false

/-- The ends of its pipe that `run` has open, and those of earlier ones. -/
def Host.ends (h : Host) : List (Nat × Obj) :=
  (if h.place.readClosed then [] else h.pipeFd.1.toList.map fun fd => (fd, .readEnd h.current)) ++
    h.pipeFd.2.toList.map (fun fd => (fd, .writeEnd h.current)) ++ h.lost.map fun e => (e.1, .readEnd e.2)

/-- What `pipe_fd_` holds at each place. A child has run when `run` returns with its end. -/
def Host.Fds (h : Host) : Prop :=
  match h.place with
  | .idle => h.pipeFd.2 = none
  | .gone => h.pipeFd = (none, none)
  | .piped | .cloned => ∃ r w, h.pipeFd = (some r, some w) ∧ w ≠ r
  | .reading _ | .waiting _ => ∃ r, h.pipeFd = (some r, none)
  | .closingRead (.returns ⟨_, some _⟩) | .closingWrite (.returns ⟨_, some _⟩) => h.pipeFd.2 = none
  | .closingRead _ => ∀ r w, h.pipeFd = (some r, some w) → w ≠ r
  | .closingWrite _ => True

/-- The read ends left over that are still in `pipe_fd_`. -/
def Host.stale (h : Host) : List Nat :=
  match h.place with
  | .idle | .closingRead .destroyed => h.pipeFd.1.toList
  | _ => []

structure Owns (h : Host) : Prop where
  has : Has Obj.IsEnd h.table h.ends
  fds : h.Fds
  older : ∀ e ∈ h.lost, e.2 < h.current
  count : h.lost.length + h.stale.length ≤ h.thrown

theorem not_isEnd_other : ¬ Obj.other.IsEnd := id

/-- A step without a descriptor. -/
theorem Owns.moves {h h' : Host} (hi : Owns h) (htable : h'.table = h.table) (hpipe : h'.pipeFd = h.pipeFd)
    (hcurrent : h'.current = h.current) (hlost : h'.lost = h.lost) (hclosed : h'.place.readClosed = h.place.readClosed)
    (hfds : h'.Fds) (hcount : h'.lost.length + h'.stale.length ≤ h'.thrown) : Owns h' := by
  refine ⟨?_, hfds, ?_, hcount⟩
  · rw [htable, Host.ends, hclosed, hpipe, hcurrent, hlost]
    exact hi.has
  · rw [hlost, hcurrent]
    exact hi.older

/-- The end of an older pipe has another number than that of a descriptor of the last one. -/
theorem Owns.filter_lost {h : Host} (hi : Owns h) {fd : Nat} {o : Obj} (hmem : (fd, o) ∈ h.ends) (ho : o.IsEnd)
    (hlast : o = .readEnd h.current ∨ o = .writeEnd h.current) :
    (h.lost.map fun e => (e.1, Obj.readEnd e.2)).filter (fun e => e.1 ≠ fd) =
      h.lost.map fun e => (e.1, Obj.readEnd e.2) := by
  rw [List.filter_eq_self]
  rintro ⟨fd', o'⟩ hmem'
  obtain ⟨⟨fd'', p⟩, he, heq⟩ := List.mem_map.1 hmem'
  cases heq
  rw [decide_eq_true_eq]
  rintro rfl
  have hin : (fd'', Obj.readEnd p) ∈ h.ends := List.mem_append_right _ hmem'
  have hobj := ((hi.has _ _ ho).2 hmem).symm.trans ((hi.has fd'' (.readEnd p) trivial).2 hin)
  have hlt := hi.older _ he
  rcases hlast with rfl | rfl
  · cases hobj
    exact absurd hlt (lt_irrefl _)
  · cases hobj

/-- Ends that differ can be told apart by their numbers. -/
theorem Host.Fds.ne {h : Host} {next : After} (hfds : h.Fds) (hat : h.place = .closingRead next) {r w : Nat}
    (hpipe : h.pipeFd = (some r, some w)) : w ≠ r := by
  simp only [Host.Fds, hat] at hfds
  split at hfds <;> simp_all

theorem Owns.own {h h' : Host} (hi : Owns h) (hstep : Own h h') : Owns h' := by
  have has := hi.has
  have hfds := hi.fds
  have hcount := hi.count
  cases hstep with
  | @pipe r w hat hr hw hne =>
    simp only [Host.Fds, hat] at hfds
    simp only [Host.stale, hat] at hcount
    rw [Host.ends, hfds, hat] at has
    refine ⟨?_, ⟨r, w, rfl, hne⟩, ?_, ?_⟩
    · -- what was in `pipe_fd_` is lost
      intro fd o ho
      rw [(has.opens hr).opens (by rw [Function.update_of_ne hne, hw]) fd o ho]
      simp [Host.ends, Place.readClosed]
      grind
    · intro e he
      rcases List.mem_append.1 he with he | he
      · exact Nat.lt_succ_of_lt (hi.older e he)
      · obtain ⟨fd, -, rfl⟩ := List.mem_map.1 he
        exact Nat.lt_succ_self _
    · simpa [Host.stale] using hcount
  | clone hat =>
    simp only [Host.Fds, hat] at hfds
    exact hi.moves rfl rfl rfl rfl (by rw [hat]; rfl) hfds (by simpa [Host.stale, hat] using hcount)
  | closesWrite hat =>
    simp only [Host.Fds, hat] at hfds
    obtain ⟨r, w, hpipe, hne⟩ := hfds
    have hmem : (w, Obj.writeEnd h.current) ∈ h.ends := by simp [Host.ends, hpipe]
    refine ⟨?_, ⟨r, by rw [hpipe]⟩, hi.older, by simpa [Host.stale, hat] using hcount⟩
    have hclosed := has.closes w
    simp only [Host.ends, List.filter_append, hi.filter_lost hmem trivial (.inr rfl)] at hclosed
    simpa [Host.ends, Place.readClosed, hat, hpipe, hne.symm] using hclosed
  | reads _ hat =>
    simp only [Host.Fds, hat] at hfds
    exact hi.moves rfl rfl rfl rfl (by rw [hat]; rfl) hfds (by simpa [Host.stale, hat] using hcount)
  | eof hat =>
    simp only [Host.Fds, hat] at hfds
    exact hi.moves rfl rfl rfl rfl (by rw [hat]; rfl) hfds (by simpa [Host.stale, hat] using hcount)
  | waits hat =>
    refine hi.moves rfl rfl rfl rfl (by rw [hat]; rfl) ?_ (by simpa [Host.stale, hat] using hcount)
    simp only [Host.Fds, hat] at hfds
    obtain ⟨r, hpipe⟩ := hfds
    simp [Host.Fds, hpipe]
  | destroyed hat =>
    refine hi.moves rfl rfl rfl rfl (by rw [hat]; rfl) ?_ (by simpa [Host.stale, hat] using hcount)
    simp only [Host.Fds, hat] at hfds
    intro r' w' heq
    rw [heq] at hfds
    cases hfds
  | @closesRead next hat =>
    refine ⟨?_, ?_, hi.older, ?_⟩
    · obtain ⟨⟨fd₀, fd₁⟩, hpipe⟩ : ∃ fds, h.pipeFd = fds := ⟨_, rfl⟩
      cases fd₀ with
      | none => simpa [Host.ends, Place.readClosed, hat, hpipe] using has
      | some r =>
        have hmem : (r, Obj.readEnd h.current) ∈ h.ends := by simp [Host.ends, hat, Place.readClosed, hpipe]
        have hclosed := has.closes r
        simp only [Host.ends, List.filter_append, hi.filter_lost hmem trivial (.inl rfl)] at hclosed
        cases fd₁ with
        | none => simpa [Host.ends, Place.readClosed, hat, hpipe] using hclosed
        | some w => simpa [Host.ends, Place.readClosed, hat, hpipe, hfds.ne hat hpipe] using hclosed
    · simp only [Host.Fds, hat] at hfds
      simp only [Host.Fds]
      split at hfds <;> simp_all
    · exact Nat.le_trans (Nat.le_add_right _ _) hcount
  | @closesBoth next hat =>
    obtain ⟨hends, htable, holder⟩ :
        (({ h with table := closeFd h.table h.pipeFd.2, pipeFd := (none, none) } : Host).finish next).ends =
          (h.lost.map fun e => (e.1, Obj.readEnd e.2)) ∧
        (({ h with table := closeFd h.table h.pipeFd.2, pipeFd := (none, none) } : Host).finish next).table =
          closeFd h.table h.pipeFd.2 ∧
        ∀ e ∈ (({ h with table := closeFd h.table h.pipeFd.2, pipeFd := (none, none) } : Host).finish next).lost,
          e.2 < (({ h with table := closeFd h.table h.pipeFd.2, pipeFd := (none, none) } : Host).finish next).current := by
      cases next <;> exact ⟨rfl, rfl, hi.older⟩
    refine ⟨?_, by cases next <;> rfl, holder, ?_⟩
    · rw [hends, htable]
      cases hw : h.pipeFd.2 with
      | none => simpa [Host.ends, Place.readClosed, hat, hw] using has
      | some w =>
        have hmem : (w, Obj.writeEnd h.current) ∈ h.ends := by simp [Host.ends, hw]
        have hclosed := has.closes w
        simp only [Host.ends, List.filter_append, hi.filter_lost hmem trivial (.inr rfl)] at hclosed
        simpa [Place.readClosed, hat, hw] using hclosed
    · cases next <;> simpa [Host.finish, Host.stale, hat] using hcount

theorem Owns.fault {h h' : Host} (hi : Owns h) (hstep : Fault h h') : Owns h' := by
  have hfds := hi.fds
  have hcount := hi.count
  cases hstep with
  | pipeFails hat => exact hi.moves rfl rfl rfl rfl rfl hfds hcount
  | cloneFails _ hat =>
    refine hi.moves rfl rfl rfl rfl (by rw [hat]; rfl) ?_ (by simpa [Host.stale, hat] using hcount)
    simp only [Host.Fds, hat] at hfds
    obtain ⟨r, w, hpipe, hne⟩ := hfds
    intro r' w' heq
    rw [hpipe] at heq
    cases heq
    exact hne
  | readFails hat =>
    simp only [Host.Fds, hat] at hfds
    exact hi.moves rfl rfl rfl rfl (by rw [hat]; rfl) hfds (by simpa [Host.stale, hat] using hcount)
  | throws hat =>
    simp only [Host.Fds, hat] at hfds
    obtain ⟨r, hpipe⟩ := hfds
    refine hi.moves rfl rfl rfl rfl (by rw [hat]; rfl) (by simp [Host.Fds, hpipe]) ?_
    simp only [Host.stale, hat, List.length_nil, Nat.add_zero] at hcount
    simpa [Host.stale, hpipe] using hcount

/-- The pipe that `run` has the write end of, and the one it reads from. -/
theorem Owns.writeEnd {h : Host} (hi : Owns h) {fd p : Nat} (hfd : h.table fd = some (.writeEnd p)) :
    p = h.current ∧ h.pipeFd.2 = some fd := by
  have hmem := (hi.has fd (.writeEnd p) trivial).1 hfd
  rw [Host.ends] at hmem
  split at hmem <;> simp_all

theorem Owns.readEnd {h : Host} (hi : Owns h) (hclosed : h.place.readClosed = false) {fd p : Nat}
    (hfd : h.pipeFd.1 = some fd) (hobj : h.table fd = some (.readEnd p)) : p = h.current := by
  have hmem : (fd, Obj.readEnd h.current) ∈ h.ends := by simp [Host.ends, hclosed, hfd]
  have hlast := (hi.has fd (.readEnd h.current) trivial).2 hmem
  rw [hobj] at hlast
  cases hlast
  rfl

theorem Owns.env {h h' : Host} (hi : Owns h) (hstep : Env h h') : Owns h' := by
  cases hstep with
  | opens hfd => exact ⟨hi.has.opens_other not_isEnd_other hfd, hi.fds, hi.older, hi.count⟩
  | closes hfd => exact ⟨hi.has.closes_other not_isEnd_other hfd, hi.fds, hi.older, hi.count⟩
  | forks => exact hi.moves rfl rfl rfl rfl rfl hi.fds hi.count
  | outside => exact hi.moves rfl rfl rfl rfl rfl hi.fds hi.count
  | ends => exact hi.moves rfl rfl rfl rfl rfl hi.fds hi.count

theorem Reachable.owns {h : Host} (hr : Reachable h) : Owns h := by
  induction hr with
  | start htable =>
    refine ⟨?_, rfl, List.forall_mem_nil _, le_rfl⟩
    intro fd o ho
    exact iff_of_false (fun hfd => htable fd o hfd ho) List.not_mem_nil
  | next _ hstep ih =>
    rcases hstep with hstep | hstep | hstep
    · exact ih.own hstep
    · exact ih.fault hstep
    · exact ih.env hstep

/-- The descriptors a step of `run` may not touch. -/
theorem Owns.other {h h' : Host} (hi : Owns h) (hstep : Own h h' ∨ Fault h h') {fd : Nat} (hfd : h.table fd = some .other) :
    h'.table fd = some .other := by
  have hfree : ∀ {fd' : Nat}, h.table fd' = none → fd ≠ fd' := by
    rintro fd' hfd' rfl
    rw [hfd] at hfd'
    cases hfd'
  have hclose : ∀ (e : Option Nat), (∀ fd' ∈ e, ∃ o, o.IsEnd ∧ (fd', o) ∈ h.ends) → closeFd h.table e fd = some .other := by
    intro e he
    cases e with
    | none => exact hfd
    | some fd' =>
      obtain ⟨o, ho, hmem⟩ := he fd' rfl
      exact hi.has.other hmem ho not_isEnd_other hfd
  rcases hstep with hstep | hstep
  swap
  · cases hstep <;> exact hfd
  cases hstep with
  | pipe hat hr hw hne =>
    simp [hfree hr, hfree hw, hfd]
  | closesWrite hat =>
    refine hclose _ fun fd' hfd' => ⟨.writeEnd h.current, trivial, ?_⟩
    simp [Host.ends, Option.mem_def.1 hfd']
  | closesRead hat =>
    refine hclose _ fun fd' hfd' => ⟨.readEnd h.current, trivial, ?_⟩
    simp [Host.ends, hat, Place.readClosed, Option.mem_def.1 hfd']
  | @closesBoth next hat =>
    have hfd' : closeFd h.table h.pipeFd.2 fd = some .other := by
      refine hclose _ fun fd' hfd' => ⟨.writeEnd h.current, trivial, ?_⟩
      simp [Host.ends, Option.mem_def.1 hfd']
    cases next <;> exact hfd'
  | _ => exact hfd

/-- A child that has written two bytes and exited with 3. -/
theorem exited : ∃ h, Reachable h ∧ h.place = .reading ⟨[], [], false⟩ ∧ h.child = some (.exited 3) ∧
    h.pipeFd = (some 3, none) ∧ h.table 3 = some (.readEnd 1) ∧ h.current = 1 ∧ h.returned = [] ∧
    h.pipes 1 = ⟨[], [104, 105], 0⟩ := by
  have t₀ : Reachable (.start fun _ => none) := .start (by simp)
  have t₁ := t₀.next (.inl (.pipe (r := 3) (w := 4) rfl rfl rfl (by decide)))
  have t₂ := t₁.next (.inl (.clone rfl))
  have t₃ := t₂.next (.inl (.closesWrite rfl))
  have t₄ := t₃.next (.inr (.inr (.outside (p := 1) (.writes [104, 105] (Nat.lt_succ_self 0)))))
  have t₅ := t₄.next (.inr (.inr (.outside (p := 1) (.drops (Nat.lt_succ_self 0)))))
  have t₆ := t₅.next (.inr (.inr (.ends (.exited 3) rfl)))
  exact ⟨_, t₆, rfl, rfl, rfl, rfl, rfl, rfl, rfl⟩

/-- The read ends that exceptions have left open. -/
def Host.leftOpen (h : Host) : List Nat := h.lost.map (·.1) ++ h.stale

/-- **Descriptors.** Whatever else the process and its children do at the same time: a step of `run` or of `~Sandbox` leaves
    every descriptor of the others open. Between two calls of `run` and behind `~Sandbox` no write end is open, and of the read
    ends at most one for each exception of `output_fn`; behind `~Sandbox` only those that a later `pipe` has written over. -/
theorem run_descriptors {h : Host} (hr : Reachable h) :
    (∀ h', Own h h' ∨ Fault h h' → ∀ fd, h.table fd = some .other → h'.table fd = some .other) ∧
      (h.place = .idle ∨ h.place = .gone → ∀ fd o, h.table fd = some o →
        o = .other ∨ (∃ p, o = .readEnd p) ∧ fd ∈ h.leftOpen) ∧
      h.leftOpen.length ≤ h.thrown ∧ (h.place = .gone → h.leftOpen = h.lost.map (·.1)) := by
  have hi := hr.owns
  refine ⟨fun h' hstep fd hfd => hi.other hstep hfd, ?_, by simpa [Host.leftOpen] using hi.count, ?_⟩
  · intro hat fd o hfd
    have hends : ∀ e ∈ h.ends, (∃ p, e.2 = .readEnd p) ∧ e.1 ∈ h.leftOpen := by
      have hfds := hi.fds
      rcases hat with hat | hat <;> simp only [Host.Fds, hat] at hfds
      · intro e he
        simp only [Host.ends, hat, hfds, Place.readClosed, Option.toList_none, List.map_nil, List.append_nil,
          Bool.false_eq_true, if_false, List.mem_append, List.mem_map] at he
        rcases he with ⟨fd, hfd, rfl⟩ | ⟨e, he, rfl⟩
        · exact ⟨⟨_, rfl⟩, List.mem_append_right _ (by simpa [Host.stale, hat] using hfd)⟩
        · exact ⟨⟨_, rfl⟩, List.mem_append_left _ (List.mem_map_of_mem he)⟩
      · intro e he
        simp only [Host.ends, hfds, Option.toList_none, List.map_nil, ite_self, List.nil_append, List.mem_map] at he
        obtain ⟨e, he, rfl⟩ := he
        exact ⟨⟨_, rfl⟩, List.mem_append_left _ (List.mem_map_of_mem he)⟩
    cases o with
    | other => exact .inl rfl
    | readEnd p => exact .inr (hends _ ((hi.has fd (.readEnd p) trivial).1 hfd))
    | writeEnd p => exact .inr (hends _ ((hi.has fd (.writeEnd p) trivial).1 hfd))
  · intro hat
    simp [Host.leftOpen, Host.stale, hat]

/-- `output_fn` throws, and the sandbox is used again: descriptor 3 stays. -/
theorem run_descriptors_thrown : ∃ h, Reachable h ∧ h.place = .gone ∧ h.thrown = 1 ∧ h.table 3 = some (.readEnd 1) ∧
    h.table 4 = none ∧
    (∀ h', Own h h' ∨ Fault h h' → ∀ fd, h.table fd = some .other → h'.table fd = some .other) ∧
      (h.place = .idle ∨ h.place = .gone → ∀ fd o, h.table fd = some o →
        o = .other ∨ (∃ p, o = .readEnd p) ∧ fd ∈ h.leftOpen) ∧
      h.leftOpen.length ≤ h.thrown ∧ (h.place = .gone → h.leftOpen = h.lost.map (·.1)) := by
  have t₀ : Reachable (.start fun _ => none) := .start (by simp)
  have t₁ := t₀.next (.inl (.pipe (r := 3) (w := 4) rfl rfl rfl (by decide)))
  have t₂ := t₁.next (.inl (.clone rfl))
  have t₃ := t₂.next (.inl (.closesWrite rfl))
  have t₄ := t₃.next (.inr (.inl (.throws rfl)))
  have t₅ := t₄.next (.inl (.pipe (r := 4) (w := 5) rfl rfl rfl (by decide)))
  have t₆ := t₅.next (.inr (.inl (.cloneFails "Resource temporarily unavailable" rfl)))
  have t₇ := t₆.next (.inl (.closesRead rfl))
  have t₈ := t₇.next (.inl (.closesBoth rfl))
  have t₉ := t₈.next (.inl (.destroyed rfl))
  have t₁₀ := t₉.next (.inl (.closesRead rfl))
  have t₁₁ := t₁₀.next (.inl (.closesBoth rfl))
  exact ⟨_, t₁₁, rfl, rfl, rfl, rfl, run_descriptors t₁₁⟩

/-! ## The output -/

/-- The chunks are what was taken from the pipe. -/
structure Output.Fits (out : Output) (p : Pipe) : Prop where
  stdout : out.stdout = out.lines.flatten
  lines : ∀ line ∈ out.lines, line ≠ [] ∧ line.length ≤ BUF
  taken : p.taken = out.stdout

structure Ran.Good (r : Ran) (result : ExecResult) (p : Pipe) : Prop where
  stdout : result.stdout = r.out.stdout
  exitCode : result.exitCode = r.ending.code
  fits : r.out.Fits p
  ended : r.out.failed = false → p.Over

/-- What `run` has returned, and what it is about to return. -/
def Host.finished (h : Host) : List Finished :=
  h.returned ++ match h.place with
    | .closingRead (.returns f) | .closingWrite (.returns f) => [f]
    | _ => []

/-- The pipes of the children that have run. -/
def pipesOf (fs : List Finished) : List Nat := fs.filterMap fun f => f.ran.map Ran.pipe

/-- The pipe that is in use has no result yet. -/
def Host.Open (h : Host) : Prop :=
  h.pipeFd.2 ≠ none ∨ ∃ out, h.place = .reading out ∨ h.place = .waiting out

structure Told (h : Host) : Prop where
  good : ∀ f ∈ h.finished, ∀ r, f.ran = some r → r.Good f.result (h.pipes r.pipe)
  sorted : (pipesOf h.finished).Pairwise (· < ·)
  le : ∀ p ∈ pipesOf h.finished, p ≤ h.current
  lt : h.Open → ∀ p ∈ pipesOf h.finished, p < h.current
  now : match h.place with
    | .piped | .cloned => (h.pipes h.current).taken = []
    | .reading out => out.Fits (h.pipes h.current)
    | .waiting out => out.Fits (h.pipes h.current) ∧ (out.failed = false → (h.pipes h.current).Over)
    | _ => True

theorem Output.Fits.congr {out : Output} {p p' : Pipe} (h : out.Fits p) (htaken : p'.taken = p.taken) : out.Fits p' :=
  ⟨h.stdout, h.lines, htaken.trans h.taken⟩

/-- A child's pipe may be written to afterwards only where a `read` has failed. -/
theorem Ran.Good.outside {r : Ran} {result : ExecResult} {p p' : Pipe} (h : r.Good result p) (hp : p.Outside p') :
    r.Good result p' :=
  ⟨h.stdout, h.exitCode, h.fits.congr hp.taken, fun hfailed => absurd (h.ended hfailed) hp.not_over⟩

theorem mem_pipesOf {fs : List Finished} {f : Finished} {r : Ran} (hf : f ∈ fs) (hr : f.ran = some r) :
    r.pipe ∈ pipesOf fs := by
  rw [pipesOf, List.mem_filterMap]
  exact ⟨f, hf, by rw [hr, Option.map_some]⟩

/-- A step that has no result of a child. -/
theorem Told.next {h h' : Host} (ht : Told h) (hfin : ∀ f ∈ h'.finished, f ∈ h.finished ∨ f.ran = none)
    (hsame : pipesOf h'.finished = pipesOf h.finished)
    (hkept : ∀ p ∈ pipesOf h.finished, h'.pipes p = h.pipes p ∨ (h.pipes p).Outside (h'.pipes p))
    (hle : h.current ≤ h'.current) (hopen : h'.Open → h.Open ∨ h.current < h'.current)
    (hnow : match h'.place with
      | .piped | .cloned => (h'.pipes h'.current).taken = []
      | .reading out => out.Fits (h'.pipes h'.current)
      | .waiting out => out.Fits (h'.pipes h'.current) ∧ (out.failed = false → (h'.pipes h'.current).Over)
      | _ => True) : Told h' := by
  refine ⟨?_, by rw [hsame]; exact ht.sorted, ?_, ?_, hnow⟩
  · intro f hf r hr
    rcases hfin f hf with hold | hnone
    · have hgood := ht.good f hold r hr
      rcases hkept _ (mem_pipesOf hold hr) with heq | hout
      · rwa [heq]
      · exact hgood.outside hout
    · rw [hr] at hnone
      cases hnone
  · intro p hp
    rw [hsame] at hp
    exact (ht.le p hp).trans hle
  · intro hop p hp
    rw [hsame] at hp
    rcases hopen hop with hop | hlt
    · exact (ht.lt hop p hp).trans_le hle
    · exact (ht.le p hp).trans_lt hlt

theorem Told.quiet {h h' : Host} (ht : Told h) (hfin : h'.finished = h.finished)
    (hkept : ∀ p ∈ pipesOf h.finished, h'.pipes p = h.pipes p ∨ (h.pipes p).Outside (h'.pipes p))
    (hle : h.current ≤ h'.current) (hopen : h'.Open → h.Open ∨ h.current < h'.current)
    (hnow : match h'.place with
      | .piped | .cloned => (h'.pipes h'.current).taken = []
      | .reading out => out.Fits (h'.pipes h'.current)
      | .waiting out => out.Fits (h'.pipes h'.current) ∧ (out.failed = false → (h'.pipes h'.current).Over)
      | _ => True) : Told h' :=
  ht.next (fun f hf => .inl (hfin ▸ hf)) (by rw [hfin]) hkept hle hopen hnow

theorem Host.Open.of_closing {h : Host} (hop : h.Open) {next : After}
    (hat : h.place = .closingRead next ∨ h.place = .closingWrite next) : h.pipeFd.2 ≠ none := by
  rcases hop with hw | ⟨out, hout | hout⟩
  · exact hw
  all_goals
    rw [hout] at hat
    rcases hat with hat | hat <;> cases hat

theorem Told.own {h h' : Host} (hi : Owns h) (ht : Told h) (hstep : Own h h') : Told h' := by
  have hnow := ht.now
  have hfds := hi.fds
  cases hstep with
  | @pipe r w hat hr hw hne =>
    refine ht.quiet (by simp [Host.finished, hat]) ?_ (Nat.le_succ _) (fun _ => .inr (Nat.lt_succ_self _)) ?_
    · intro p hp
      have hle := ht.le p hp
      exact .inl (Function.update_of_ne (by omega) _ _)
    · simp [Pipe.empty]
  | clone hat =>
    simp only [Host.Fds, hat] at hfds hnow
    obtain ⟨r, w, hpipe, -⟩ := hfds
    have hop : h.Open := .inl (by rw [hpipe]; exact Option.some_ne_none w)
    refine ht.quiet (by simp [Host.finished, hat]) ?_ le_rfl (fun _ => .inl hop) ?_
    · intro p hp
      exact .inl (Function.update_of_ne (ht.lt hop p hp).ne _ _)
    · simpa [Host.passOn] using hnow
  | closesWrite hat =>
    simp only [Host.Fds, hat] at hfds hnow
    obtain ⟨r, w, hpipe, -⟩ := hfds
    have hop : h.Open := .inl (by rw [hpipe]; exact Option.some_ne_none w)
    exact ht.quiet (by simp [Host.finished, hat]) (fun p _ => .inl rfl) le_rfl (fun _ => .inl hop) ⟨rfl, by simp, hnow⟩
  | @reads fd p rest out chunk hat hfd hobj hdata hne hlen =>
    simp only [hat] at hnow
    have hp : p = h.current := hi.readEnd (by rw [hat]; rfl) hfd hobj
    subst hp
    have hop : h.Open := .inr ⟨out, .inl hat⟩
    refine ht.quiet (by simp [Host.finished, hat]) ?_ le_rfl (fun _ => .inl hop) ?_
    · intro p hp
      exact .inl (Function.update_of_ne (ht.lt hop p hp).ne _ _)
    · refine ⟨by simp [hnow.stdout], ?_, by simp [hnow.taken]⟩
      intro line hline
      rcases List.mem_append.1 hline with hline | hline
      · exact hnow.lines line hline
      · rw [List.mem_singleton.1 hline]
        exact ⟨hne, hlen⟩
  | @eof fd p out hat hfd hobj hover hown =>
    simp only [hat] at hnow
    have hp : p = h.current := hi.readEnd (by rw [hat]; rfl) hfd hobj
    subst hp
    exact ht.quiet (by simp [Host.finished, hat]) (fun p _ => .inl rfl) le_rfl (fun _ => .inl (.inr ⟨out, .inl hat⟩))
      ⟨hnow, fun _ => hover⟩
  | @waits out e hat hchild =>
    simp only [Host.Fds, hat] at hfds hnow
    obtain ⟨r, hpipe⟩ := hfds
    have hlt := ht.lt (.inr ⟨out, .inr hat⟩)
    have hold : h.finished = h.returned := by simp [Host.finished, hat]
    rw [hold] at hlt
    have hgood := ht.good
    have hsorted := ht.sorted
    rw [hold] at hgood hsorted
    refine ⟨?_, ?_, ?_, ?_, trivial⟩
    · intro f hf r hr
      simp only [Host.finished, List.mem_append, List.mem_singleton] at hf
      rcases hf with hf | rfl
      · exact hgood f hf r hr
      · cases hr
        exact ⟨rfl, exitCodeOf_status e, hnow.1, hnow.2⟩
    · simp only [Host.finished, pipesOf, List.filterMap_append]
      refine List.pairwise_append.2 ⟨hsorted, by simp, ?_⟩
      intro p hp q hq
      simp only [List.filterMap_cons, List.filterMap_nil, Option.map_some, List.mem_singleton] at hq
      rw [hq]
      exact hlt p hp
    · intro p hp
      simp only [Host.finished, pipesOf, List.filterMap_append, List.mem_append] at hp
      rcases hp with hp | hp
      · exact (hlt p hp).le
      · simp at hp
        exact hp.le
    · exact fun hop => absurd (by rw [hpipe]) (hop.of_closing (.inl rfl))
  | destroyed hat =>
    refine ht.quiet (by simp [Host.finished, hat]) (fun p _ => .inl rfl) le_rfl (fun hop => ?_) trivial
    exact .inl (.inl (hop.of_closing (.inl rfl)))
  | @closesRead next hat =>
    have hfin : Host.finished { h with table := closeFd h.table h.pipeFd.1, place := .closingWrite next } = h.finished := by
      cases next <;> simp [Host.finished, hat]
    exact ht.quiet hfin (fun p _ => .inl rfl) le_rfl (fun hop => .inl (.inl (hop.of_closing (.inr rfl)))) trivial
  | @closesBoth next hat =>
    have hclosed : ¬ (Host.finish { h with table := closeFd h.table h.pipeFd.2, pipeFd := (none, none) } next).Open := by
      rintro (hw | ⟨out, hout⟩) <;> cases next <;> simp_all [Host.finish]
    have hfin : (Host.finish { h with table := closeFd h.table h.pipeFd.2, pipeFd := (none, none) } next).finished =
        h.finished := by
      cases next <;> simp [Host.finish, Host.finished, hat]
    cases next <;> exact ht.quiet hfin (fun p _ => .inl rfl) le_rfl (fun hop => absurd hop hclosed) trivial

theorem Told.fault {h h' : Host} (ht : Told h) (hstep : Fault h h') : Told h' := by
  have hnow := ht.now
  cases hstep with
  | pipeFails hat =>
    refine ht.next ?_ ?_ (fun p _ => .inl rfl) le_rfl .inl ?_
    · intro f hf
      simp only [Host.finished, hat, List.append_nil, List.mem_append, List.mem_singleton] at hf ⊢
      exact hf.imp id fun heq => by rw [heq]
    · simp [Host.finished, hat, pipesOf]
    · simp only [hat]
  | cloneFails _ hat =>
    refine ht.next ?_ ?_ (fun p _ => .inl rfl) le_rfl ?_ trivial
    · intro f hf
      simp only [Host.finished, hat, List.append_nil, List.mem_append, List.mem_singleton] at hf ⊢
      exact hf.imp id fun heq => by rw [heq]
    · simp [Host.finished, hat, pipesOf]
    · exact fun hop => .inl (.inl (hop.of_closing (.inl rfl)))
  | @readFails out hat =>
    simp only [hat] at hnow
    exact ht.quiet (by simp [Host.finished, hat]) (fun p _ => .inl rfl) le_rfl (fun _ => .inl (.inr ⟨out, .inl hat⟩))
      ⟨⟨hnow.stdout, hnow.lines, hnow.taken⟩, fun hfalse => by cases hfalse⟩
  | @throws out hat =>
    exact ht.quiet (by simp [Host.finished, hat]) (fun p _ => .inl rfl) le_rfl (fun _ => .inl (.inr ⟨out, .inl hat⟩)) trivial

theorem Told.env {h h' : Host} (hi : Owns h) (ht : Told h) (hstep : Env h h') : Told h' := by
  have hnow := ht.now
  cases hstep with
  | opens | closes | ends => exact ht.quiet rfl (fun p _ => .inl rfl) le_rfl .inl hnow
  | @forks fd p hfd =>
    obtain ⟨rfl, hw⟩ := hi.writeEnd hfd
    have hop : h.Open := .inl (by rw [hw]; exact Option.some_ne_none fd)
    refine ht.quiet rfl ?_ le_rfl .inl ?_
    · intro p hp
      exact .inl (Function.update_of_ne (ht.lt hop p hp).ne _ _)
    · have hnone : ∀ out, ¬ (h.place = .reading out ∨ h.place = .waiting out) := by
        have hfds := hi.fds
        rintro out (hat | hat)
        all_goals
          simp only [Host.Fds, hat] at hfds
          obtain ⟨r, hpipe⟩ := hfds
          rw [hpipe] at hw
          cases hw
      simp only [Host.passOn, Function.update_self]
      split at hnow
      · rename_i hat
        simpa only [hat] using hnow
      · rename_i hat
        simpa only [hat] using hnow
      · exact absurd (.inl ‹_›) (hnone _)
      · exact absurd (.inr ‹_›) (hnone _)
      · simp_all
  | @outside p q hp =>
    refine ht.quiet rfl ?_ le_rfl .inl ?_
    · intro p' hp'
      by_cases heq : p' = p
      · subst heq
        exact .inr (by simpa using hp)
      · exact .inl (Function.update_of_ne heq _ _)
    · by_cases heq : h.current = p
      · subst heq
        simp only [Function.update_self]
        split at hnow
        · exact hp.taken.trans hnow
        · exact hp.taken.trans hnow
        · exact hnow.congr hp.taken
        · exact ⟨hnow.1.congr hp.taken, fun hfailed => absurd (hnow.2 hfailed) hp.not_over⟩
        · trivial
      · simpa [heq] using hnow

theorem Reachable.told {h : Host} (hr : Reachable h) : Told h := by
  induction hr with
  | start => exact ⟨by simp [Host.start, Host.finished], by simp [Host.start, Host.finished, pipesOf],
      by simp [Host.start, Host.finished, pipesOf], by simp [Host.start, Host.finished, pipesOf], trivial⟩
  | next hr hstep ih =>
    rcases hstep with hstep | hstep | hstep
    · exact ih.own hr.owns hstep
    · exact ih.fault hstep
    · exact ih.env hr.owns hstep

def Host.Running (h : Host) : Prop := h.place ≠ .idle ∧ h.place ≠ .gone

/-- A step of a `run` that is not over, or of `~Sandbox`. -/
def Goes (h h' : Host) : Prop := h.Running ∧ Own h h'

/-- The places still to come. -/
def Place.left : Place → Nat
  | .piped => 6
  | .cloned => 5
  | .reading _ => 4
  | .waiting _ => 3
  | .closingRead _ => 2
  | .closingWrite _ => 1
  | .idle | .gone => 0

theorem Goes.measure {h h' : Host} (hi : Owns h) (hgo : Goes h h') : h'.place.left < h.place.left ∨
    h'.place.left = h.place.left ∧ (h'.pipes h'.current).data.length < (h.pipes h.current).data.length := by
  obtain ⟨hrun, hstep⟩ := hgo
  cases hstep with
  | pipe hat => exact absurd hat hrun.1
  | destroyed hat => exact absurd hat hrun.1
  | @reads fd p rest out chunk hat hfd hobj hdata hne hlen =>
    have hp : p = h.current := hi.readEnd (by rw [hat]; rfl) hfd hobj
    subst hp
    have hpos := List.length_pos_of_ne_nil hne
    refine .inr ⟨by rw [hat]; rfl, ?_⟩
    simp only [Function.update_self, hdata, List.length_append]
    omega
  | @closesBoth next hat =>
    left
    cases next <;> simp [Host.finish, hat, Place.left]
  | clone hat | closesWrite hat | eof hat | waits hat | closesRead hat =>
    left
    simp [hat, Place.left]

/-- The others do something, and nobody gets the write end by it. -/
def Calm (h h' : Host) : Prop := Env h h' ∧ (h'.pipes h'.current).outside = 0

/-- The child is gone, and so is whoever could have written after it. -/
structure Host.Quiet (h : Host) : Prop where
  running : h.Running
  cloned : h.place ≠ .piped
  child : h.child ≠ none
  outside : (h.pipes h.current).outside = 0

/-- Where a `run` gets to that began with `base`. -/
def Toward (base : List Finished) (h : Host) : Prop :=
  h.Quiet ∧ h.returned = base ∨ (h.place = .idle ∧ ∃ f, h.returned = base ++ [f]) ∨ (h.place = .gone ∧ h.returned = base)

theorem Toward.goes {base : List Finished} {h h' : Host} (hi : Owns h) (ht : Toward base h) (hgo : Goes h h') :
    Toward base h' := by
  obtain ⟨hrun, hstep⟩ := hgo
  obtain ⟨⟨-, hcloned, hchild, hout⟩, hbase⟩ : h.Quiet ∧ h.returned = base := by
    rcases ht with hquiet | ⟨hat, -⟩ | ⟨hat, -⟩
    · exact hquiet
    · exact absurd hat hrun.1
    · exact absurd hat hrun.2
  cases hstep with
  | pipe hat => exact absurd hat hrun.1
  | destroyed hat => exact absurd hat hrun.1
  | clone hat => exact absurd hat hcloned
  | @reads fd p rest out chunk hat hfd hobj =>
    have hp : p = h.current := hi.readEnd (by rw [hat]; rfl) hfd hobj
    subst hp
    exact .inl ⟨⟨⟨nofun, nofun⟩, nofun, hchild, by simpa using hout⟩, hbase⟩
  | @closesBoth next hat =>
    cases next with
    | returns f => exact .inr (.inl ⟨rfl, f, by rw [← hbase]; rfl⟩)
    | destroyed => exact .inr (.inr ⟨rfl, hbase⟩)
  | closesWrite | eof | waits | closesRead => exact .inl ⟨⟨⟨nofun, nofun⟩, nofun, hchild, hout⟩, hbase⟩

theorem Toward.quiet {base : List Finished} {h : Host} (ht : Toward base h) (hrun : h.Running) : h.Quiet := by
  rcases ht with ⟨hquiet, -⟩ | ⟨hat, -⟩ | ⟨hat, -⟩
  · exact hquiet
  · exact absurd hat hrun.1
  · exact absurd hat hrun.2

theorem Host.Quiet.progress {h : Host} (hi : Owns h) (hq : h.Quiet) : ∃ h', Goes h h' := by
  have hrun := hq.running
  cases hat : h.place with
  | idle => exact absurd hat hrun.1
  | gone => exact absurd hat hrun.2
  | piped => exact absurd hat hq.cloned
  | cloned => exact ⟨_, hrun, .closesWrite hat⟩
  | waiting out =>
    obtain ⟨e, he⟩ := Option.ne_none_iff_exists'.1 hq.child
    exact ⟨_, hrun, .waits hat he⟩
  | closingRead next => exact ⟨_, hrun, .closesRead hat⟩
  | closingWrite next => exact ⟨_, hrun, .closesBoth hat⟩
  | reading out =>
    have hfds := hi.fds
    simp only [Host.Fds, hat] at hfds
    obtain ⟨r, hpipe⟩ := hfds
    have hr : h.table r = some (.readEnd h.current) :=
      (hi.has r (.readEnd h.current) trivial).2 (by simp [Host.ends, hat, Place.readClosed, hpipe])
    have hfd : h.pipeFd.1 = some r := by rw [hpipe]
    cases hdata : (h.pipes h.current).data with
    | cons b rest => exact ⟨_, hrun, .reads [b] hat hfd hr hdata (by simp) (by simp [BUF])⟩
    | nil =>
      refine ⟨_, hrun, .eof hat hfd hr ⟨hdata, hq.outside⟩ ?_⟩
      intro fd' hfd'
      obtain ⟨-, hw⟩ := hi.writeEnd hfd'
      rw [hpipe] at hw
      cases hw

/-- What the others do brings `run` no further, and does not hold it up. -/
theorem Toward.calm {base : List Finished} {h h' : Host} (ht : Toward base h) (hcalm : Calm h h') :
    Toward base h' ∧ h'.place = h.place ∧ (h.Quiet → (h'.pipes h'.current).data = (h.pipes h.current).data) := by
  obtain ⟨henv, hout⟩ := hcalm
  obtain ⟨hplace, hreturned, hchild⟩ : h'.place = h.place ∧ h'.returned = h.returned ∧ (h.child ≠ none → h'.child ≠ none) := by
    cases henv with
    | ends e => exact ⟨rfl, rfl, fun _ => Option.some_ne_none e⟩
    | opens | closes | forks | outside => exact ⟨rfl, rfl, id⟩
  refine ⟨?_, hplace, ?_⟩
  · rcases ht with ⟨⟨hrun, hcloned, hdead, -⟩, hbase⟩ | hdone | hdone
    · exact .inl ⟨⟨by rwa [Host.Running, hplace], by rwa [hplace], hchild hdead, hout⟩, by rw [hreturned, hbase]⟩
    · exact .inr (.inl (by rwa [hplace, hreturned]))
    · exact .inr (.inr (by rwa [hplace, hreturned]))
  · intro hquiet
    cases henv with
    | @forks fd p hfd =>
      by_cases hp : p = h.current
      · subst hp
        simp [Host.passOn] at hout
      · simp [Host.passOn, Ne.symm hp]
    | @outside p q hp =>
      by_cases heq : p = h.current
      · subst heq
        have hzero := hquiet.outside
        cases hp <;> omega
      · simp [Ne.symm heq]
    | opens | closes | ends => rfl

/-- Whatever the others do, and then a step of `run`. -/
def Onward (h h' : Host) : Prop := ∃ m, Relation.ReflTransGen Calm h m ∧ Goes m h'

theorem Toward.calms {base : List Finished} {h h' : Host} (hi : Owns h) (ht : Toward base h)
    (hcalm : Relation.ReflTransGen Calm h h') : Owns h' ∧ Toward base h' ∧ h'.place = h.place ∧
      (h.Running → (h'.pipes h'.current).data = (h.pipes h.current).data) := by
  induction hcalm with
  | refl => exact ⟨hi, ht, rfl, fun _ => rfl⟩
  | @tail m h' _ hstep ih =>
    obtain ⟨hi₁, ht₁, hplace₁, hdata₁⟩ := ih
    obtain ⟨ht₂, hplace₂, hdata₂⟩ := ht₁.calm hstep
    refine ⟨hi₁.env hstep.1, ht₂, hplace₂.trans hplace₁, fun hrun => ?_⟩
    have hrun₁ : m.Running := by rwa [Host.Running, hplace₁]
    exact (hdata₂ (ht₁.quiet hrun₁)).trans (hdata₁ hrun)

theorem Toward.acc {base : List Finished} {h : Host} (hi : Owns h) (ht : Toward base h) :
    Acc (fun h₂ h₁ => Onward h₁ h₂) h := by
  have hwf : WellFounded fun h₂ h₁ : Host => (Owns h₁ ∧ Toward base h₁) ∧ Onward h₁ h₂ := by
    have hlex := WellFounded.prod_lex Nat.lt_wfRel.wf Nat.lt_wfRel.wf
    refine Subrelation.wf ?_ (InvImage.wf (fun h => (h.place.left, (h.pipes h.current).data.length)) hlex)
    rintro h₂ h₁ ⟨⟨hi, ht⟩, m, hcalm, hgo⟩
    obtain ⟨him, htm, hplace, hdata⟩ := ht.calms hi hcalm
    have hrun : h₁.Running := by rw [Host.Running, ← hplace]; exact hgo.1
    change Prod.Lex _ _ (h₂.place.left, _) (h₁.place.left, _)
    rw [← hplace, ← hdata hrun]
    rcases hgo.measure him with hlt | ⟨heq, hlt⟩
    · exact Prod.Lex.left _ _ hlt
    · rw [heq]
      exact Prod.Lex.right _ hlt
  induction hwf.apply h with
  | intro h _ ih =>
    refine Acc.intro h fun h' hgo => ?_
    obtain ⟨m, hcalm, hstep⟩ := hgo
    obtain ⟨him, htm, -, -⟩ := ht.calms hi hcalm
    exact ih h' ⟨⟨hi, ht⟩, m, hcalm, hstep⟩ (him.own hstep.2) (htm.goes him hstep)

/-- **The end.** When the child has ended and no other process has the write end, then, whatever the others do as long as none of
    them gets it by a fork, `run` takes only so many more steps, and where it can take none it has returned one result, or the
    sandbox has been destroyed. The write end of `run` itself does not keep it waiting. -/
theorem run_returns {h : Host} (hr : Reachable h) (hquiet : h.Quiet) :
    Acc (fun h₂ h₁ => Onward h₁ h₂) h ∧
    ∀ h', Relation.ReflTransGen (fun h₁ h₂ => Goes h₁ h₂ ∨ Calm h₁ h₂) h h' → (¬ ∃ h'', Goes h' h'') →
      (h'.place = .idle ∧ ∃ f, h'.returned = h.returned ++ [f]) ∨ (h'.place = .gone ∧ h'.returned = h.returned) := by
  have htoward : Toward h.returned h := .inl ⟨hquiet, rfl⟩
  refine ⟨htoward.acc hr.owns, ?_⟩
  intro h' hrun hend
  have hinv : Owns h' ∧ Toward h.returned h' := by
    clear hend
    induction hrun with
    | refl => exact ⟨hr.owns, htoward⟩
    | tail _ hstep ih =>
      rcases hstep with hgo | hcalm
      · exact ⟨ih.1.own hgo.2, ih.2.goes ih.1 hgo⟩
      · exact ⟨ih.1.env hcalm.1, (ih.2.calm hcalm).1⟩
  rcases hinv.2 with ⟨hq, -⟩ | hdone
  · exact absurd (hq.progress hinv.1) hend
  · exact hdone

theorem run_returns_exited : ∃ h, Reachable h ∧ h.Quiet ∧ Acc (fun h₂ h₁ => Onward h₁ h₂) h ∧
    ∀ h', Relation.ReflTransGen (fun h₁ h₂ => Goes h₁ h₂ ∨ Calm h₁ h₂) h h' → (¬ ∃ h'', Goes h' h'') →
      (h'.place = .idle ∧ ∃ f, h'.returned = h.returned ++ [f]) ∨ (h'.place = .gone ∧ h'.returned = h.returned) := by
  obtain ⟨h, hr, hat, hchild, -, -, hcurrent, -, hpipe⟩ := exited
  have hq : h.Quiet := by
    refine ⟨⟨?_, ?_⟩, ?_, ?_, ?_⟩ <;> simp [hat, hchild, hcurrent, hpipe]
  exact ⟨h, hr, hq, run_returns hr hq⟩

end RedisOps.Sandbox
