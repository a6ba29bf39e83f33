import Mathlib.Logic.Relation
import RedisOps.Lib.Bytes

/-!
# Two programs and the two directions of a connection

A program writes a text, reads a number of bytes, or waits for an input of its surroundings. Nothing of this happens at
once on a connection: `write_all` and `read_exact` are loops over calls that transfer any part of what is left, and the
calls of the two ends come in any order.

`Link` has the loops and their calls. In `Whole` a text is written in one step and read in one step. `Link.Step.whole`
says that the difference is not seen: the bytes under way are what one end has got, what is in the connection and what the
other end has left to write, and a call moves none of them past another. The calls in between come to an end (`Link.wf`),
and where they get no further neither does `Whole` (`Link.stuck`). So safety, termination and freedom from deadlock are
all questions about `Whole`.
-/

namespace RedisOps.Lib

namespace Wire

/-- What a program does next. -/
inductive Need (σ ι : Type) where
  | write (text : Bytes) (next : σ)
  | read (n : Nat) (next : Bytes → σ)
  | take (next : ι → Option σ)

/-- `writing`, with what is left of the text; `reading`, with what has come of the bytes. -/
inductive End (σ : Type) where
  | ready (c : σ)
  | writing (c : σ) (rest : Bytes)
  | reading (c : σ) (got : Bytes)

section Ends
variable {σ ι : Type} (need : σ → Need σ ι)

/-- One step of an end on its inbox and its outbox. -/
inductive End.Step : End σ → Bytes → Bytes → Option ι → End σ → Bytes → Bytes → Prop
  | startWrite {c text next} (inb outb) (h : need c = .write text next) :
      Step (.ready c) inb outb none (.writing c text) inb outb
  | send {c} (chunk rest inb outb) (h : chunk ≠ []) :
      Step (.writing c (chunk ++ rest)) inb outb none (.writing c rest) inb (outb ++ chunk)
  | sent {c text next} (inb outb) (h : need c = .write text next) :
      Step (.writing c []) inb outb none (.ready next) inb outb
  | startRead {c n next} (inb outb) (h : need c = .read n next) :
      Step (.ready c) inb outb none (.reading c []) inb outb
  | recv {c n next got} (chunk inb outb) (h : need c = .read n next) (hchunk : chunk ≠ [])
      (hn : got.length + chunk.length ≤ n) :
      Step (.reading c got) (chunk ++ inb) outb none (.reading c (got ++ chunk)) inb outb
  | received {c n next got} (inb outb) (h : need c = .read n next) (hn : got.length = n) :
      Step (.reading c got) inb outb none (.ready (next got)) inb outb
  | take {c next a c'} (inb outb) (h : need c = .take next) (ha : next a = some c') :
      Step (.ready c) inb outb (some a) (.ready c') inb outb

/-- A whole text at a time. -/
inductive WholeStep : σ → Bytes → Bytes → Option ι → σ → Bytes → Bytes → Prop
  | write {c text next} (inb outb) (h : need c = .write text next) : WholeStep c inb outb none next inb (outb ++ text)
  | read {c n next text} (inb outb) (h : need c = .read n next) (hn : text.length = n) :
      WholeStep c (text ++ inb) outb none (next text) inb outb
  | take {c next a c'} (inb outb) (h : need c = .take next) (ha : next a = some c') :
      WholeStep c inb outb (some a) c' inb outb

/-! ## What an end has under way -/

namespace End

def rest : End σ → Bytes
  | .writing _ rest => rest
  | _ => []

def got : End σ → Bytes
  | .reading _ got => got
  | _ => []

/-- Where the program is when what is left to write counts as written. -/
def control : End σ → σ
  | .ready c => c
  | .writing c _ => match need c with
    | .write _ next => next
    | _ => c
  | .reading c _ => c

/-- Bytes still to be moved, and loops to be entered or left. -/
def work (e : End σ) : Nat :=
  2 * e.rest.length + match e with
    | .writing _ _ => 2
    | .ready _ => 1
    | .reading _ _ => 0

def Sound : End σ → Prop
  | .ready _ => True
  | .writing c _ => ∃ text next, need c = .write text next
  | .reading c got => ∃ n next, need c = .read n next ∧ got.length ≤ n

@[simp] theorem rest_ready (c : σ) : (End.ready c).rest = [] := rfl
@[simp] theorem rest_writing (c : σ) (rest : Bytes) : (End.writing c rest).rest = rest := rfl
@[simp] theorem rest_reading (c : σ) (got : Bytes) : (End.reading c got).rest = [] := rfl
@[simp] theorem got_ready (c : σ) : (End.ready c).got = [] := rfl
@[simp] theorem got_writing (c : σ) (rest : Bytes) : (End.writing c rest).got = [] := rfl
@[simp] theorem got_reading (c : σ) (got : Bytes) : (End.reading c got).got = got := rfl
@[simp] theorem control_ready (c : σ) : (End.ready c).control need = c := rfl
@[simp] theorem control_reading (c : σ) (got : Bytes) : (End.reading c got).control need = c := rfl

theorem control_writing {c next : σ} {text : Bytes} (h : need c = .write text next) (rest : Bytes) :
    (End.writing c rest).control need = next := by
  simp only [control, h]

end End

variable {need}

theorem WholeStep.frame {c c' : σ} {inb outb inb' outb' : Bytes} {a : Option ι}
    (h : WholeStep need c inb outb a c' inb' outb') (behind before : Bytes) :
    WholeStep need c (inb ++ behind) (before ++ outb) a c' (inb' ++ behind) (before ++ outb') := by
  cases h with
  | write _ _ h =>
    rw [← List.append_assoc]
    exact .write _ _ h
  | read _ _ h hn =>
    rw [List.append_assoc]
    exact .read _ _ h hn
  | take _ _ h ha => exact .take _ _ h ha

/-- What a program does in one step. -/
theorem WholeStep.cases {c c' : σ} {inb outb inb' outb' : Bytes} {a : Option ι}
    (h : WholeStep need c inb outb a c' inb' outb') : match need c with
      | .write text next => a = none ∧ c' = next ∧ inb' = inb ∧ outb' = outb ++ text
      | .read n next => a = none ∧ ∃ text, text.length = n ∧ inb = text ++ inb' ∧ c' = next text ∧ outb' = outb
      | .take next => ∃ i, a = some i ∧ next i = some c' ∧ inb' = inb ∧ outb' = outb := by
  cases h with
  | write _ _ h => simp [h]
  | read _ _ h hn => simp [h, hn]
  | take _ _ h ha => simp [h, ha]

/-- A step of an end is a whole step of its program, or it only moves bytes that were under way already. -/
theorem End.Step.whole {e e' : End σ} {inb outb inb' outb' : Bytes} {a : Option ι}
    (h : e.Step need inb outb a e' inb' outb') :
    WholeStep need (e.control need) (e.got ++ inb) (outb ++ e.rest) a (e'.control need) (e'.got ++ inb')
        (outb' ++ e'.rest) ∨
      (a = none ∧ e'.control need = e.control need ∧ e'.got ++ inb' = e.got ++ inb ∧
        outb' ++ e'.rest = outb ++ e.rest ∧
        e'.work + inb'.length + outb'.length < e.work + inb.length + outb.length) := by
  cases h with
  | startWrite _ _ h =>
    left
    rw [End.control_writing need h]
    simpa using WholeStep.write inb outb h
  | send chunk rest _ _ h =>
    right
    have hpos := List.length_pos_of_ne_nil h
    refine ⟨rfl, rfl, rfl, by simp, ?_⟩
    simp only [End.work, End.rest_writing, List.length_append]
    omega
  | sent _ _ h =>
    right
    refine ⟨rfl, ?_, rfl, rfl, ?_⟩
    · rw [End.control_writing need h, End.control_ready]
    · simp [End.work]
  | startRead _ _ h =>
    right
    refine ⟨rfl, rfl, rfl, rfl, ?_⟩
    simp [End.work]
  | recv chunk _ _ h hchunk hn =>
    right
    have hpos := List.length_pos_of_ne_nil hchunk
    refine ⟨rfl, rfl, by simp, rfl, ?_⟩
    simp only [End.work, End.rest_reading, List.length_append]
    omega
  | received _ _ h hn =>
    left
    simpa using WholeStep.read inb outb h hn
  | take _ _ h ha =>
    left
    simpa using WholeStep.take inb outb h ha

theorem End.Step.sound {e e' : End σ} {inb outb inb' outb' : Bytes} {a : Option ι}
    (h : e.Step need inb outb a e' inb' outb') (he : e.Sound need) : e'.Sound need := by
  cases h with
  | startWrite _ _ h => exact ⟨_, _, h⟩
  | send => exact he
  | sent => trivial
  | startRead _ _ h => exact ⟨_, _, h, Nat.zero_le _⟩
  | recv _ _ _ h _ hn =>
    refine ⟨_, _, h, ?_⟩
    rwa [List.length_append]
  | received => trivial
  | take => trivial

/-- An end that cannot move has nothing left to write, and its program could not move either on what has come. -/
theorem End.stuck {e : End σ} {inb outb : Bytes} {P : Option ι → Prop} (hP : P none) (he : e.Sound need)
    (h : ∀ a, P a → ∀ e' inb' outb', ¬ e.Step need inb outb a e' inb' outb') :
    e.rest = [] ∧ ∀ a, P a → ∀ before c' inb' outb',
      ¬ WholeStep need (e.control need) (e.got ++ inb) before a c' inb' outb' := by
  cases e with
  | writing c rest =>
    obtain ⟨text, next, hc⟩ := he
    cases rest with
    | nil => exact absurd (.sent inb outb hc) (h none hP _ _ _)
    | cons b rest => exact absurd (.send [b] rest inb outb (by simp)) (h none hP _ _ _)
  | ready c =>
    refine ⟨rfl, ?_⟩
    intro a ha before c' inb' outb' hw
    cases hw with
    | write _ _ hc => exact h none hP _ _ _ (.startWrite inb outb hc)
    | read _ _ hc => exact h none hP _ _ _ (.startRead _ outb hc)
    | take _ _ hc hnext => exact h _ ha _ _ _ (.take inb outb hc hnext)
  | reading c got =>
    refine ⟨rfl, ?_⟩
    obtain ⟨n, next, hc, hle⟩ := he
    have hlt : got.length < n := by
      rcases Nat.lt_or_eq_of_le hle with hlt | heq
      · exact hlt
      · exact absurd (.received inb outb hc heq) (h none hP _ _ _)
    have hempty : inb = [] := by
      cases inb with
      | nil => rfl
      | cons b inb =>
        have hroom : got.length + [b].length ≤ n := hlt
        exact absurd (.recv [b] inb outb hc (by simp) hroom) (h none hP _ _ _)
    subst hempty
    intro a ha before c' inb' outb' hw
    rw [End.control_reading, End.got_reading, List.append_nil] at hw
    generalize hcontrol : c = d at hw
    generalize htext : got = text at hw
    cases hw with
    | write _ _ hd =>
      rw [← hcontrol, hc] at hd
      cases hd
    | read _ _ hd hn =>
      rw [← hcontrol, hc] at hd
      cases hd
      have hlen := congrArg List.length htext
      rw [List.length_append] at hlen
      omega
    | take _ _ hd _ =>
      rw [← hcontrol, hc] at hd
      cases hd

end Ends

/-! ## Two ends -/

/-- `none` is a step that takes no input. -/
inductive Event (ι κ : Type) where
  | left (a : Option ι)
  | right (b : Option κ)

structure Link (σ τ : Type) where
  left : End σ
  right : End τ
  toRight : Bytes
  toLeft : Bytes

structure Whole (σ τ : Type) where
  left : σ
  right : τ
  toRight : Bytes
  toLeft : Bytes

section Links
variable {σ τ ι κ : Type} (needL : σ → Need σ ι) (needR : τ → Need τ κ)

inductive Link.Step : Link σ τ → Event ι κ → Link σ τ → Prop
  | left {e e' r toRight toRight' toLeft toLeft' a} (h : End.Step needL e toLeft toRight a e' toLeft' toRight') :
      Step ⟨e, r, toRight, toLeft⟩ (.left a) ⟨e', r, toRight', toLeft'⟩
  | right {e r r' toRight toRight' toLeft toLeft' b} (h : End.Step needR r toRight toLeft b r' toRight' toLeft') :
      Step ⟨e, r, toRight, toLeft⟩ (.right b) ⟨e, r', toRight', toLeft'⟩

inductive Whole.Step : Whole σ τ → Event ι κ → Whole σ τ → Prop
  | left {c c' d toRight toRight' toLeft toLeft' a} (h : WholeStep needL c toLeft toRight a c' toLeft' toRight') :
      Step ⟨c, d, toRight, toLeft⟩ (.left a) ⟨c', d, toRight', toLeft'⟩
  | right {c d d' toRight toRight' toLeft toLeft' b} (h : WholeStep needR d toRight toLeft b d' toRight' toLeft') :
      Step ⟨c, d, toRight, toLeft⟩ (.right b) ⟨c, d', toRight', toLeft'⟩

/-- The state of the two programs with everything that is under way in the connection. -/
def Link.whole (l : Link σ τ) : Whole σ τ where
  left := l.left.control needL
  right := l.right.control needR
  toRight := l.right.got ++ l.toRight ++ l.left.rest
  toLeft := l.left.got ++ l.toLeft ++ l.right.rest

def Link.work (l : Link σ τ) : Nat := l.left.work + l.right.work + l.toRight.length + l.toLeft.length

def Link.Sound (l : Link σ τ) : Prop := l.left.Sound needL ∧ l.right.Sound needR

variable {needL needR}

theorem Link.Step.sound {l l' : Link σ τ} {ev : Event ι κ} (h : l.Step needL needR ev l') (hl : l.Sound needL needR) :
    l'.Sound needL needR := by
  cases h with
  | left h => exact ⟨h.sound hl.1, hl.2⟩
  | right h => exact ⟨hl.1, h.sound hl.2⟩

/-- **Simulation.** -/
theorem Link.Step.whole {l l' : Link σ τ} {ev : Event ι κ} (h : l.Step needL needR ev l') :
    Whole.Step needL needR (l.whole needL needR) ev (l'.whole needL needR) ∨
      l'.whole needL needR = l.whole needL needR ∧ l'.work < l.work := by
  cases h with
  | @left e e' r toRight toRight' toLeft toLeft' a h =>
    rcases h.whole with hw | ⟨-, hc, hin, hout, hwork⟩
    · left
      have hframe := hw.frame r.rest r.got
      simp only [← List.append_assoc] at hframe
      exact .left hframe
    · right
      constructor
      · simp only [Link.whole, hc, hin]
        rw [List.append_assoc r.got, hout, ← List.append_assoc]
      · simp only [Link.work]
        omega
  | @right e r r' toRight toRight' toLeft toLeft' b h =>
    rcases h.whole with hw | ⟨-, hc, hin, hout, hwork⟩
    · left
      have hframe := hw.frame e.rest e.got
      simp only [← List.append_assoc] at hframe
      exact .right hframe
    · right
      constructor
      · simp only [Link.whole, hc, hin]
        rw [List.append_assoc e.got, hout, ← List.append_assoc]
      · simp only [Link.work]
        omega

/-! ## Runs on some of the events -/

section Runs
variable (needL needR) (P : Event ι κ → Prop)

def Link.Moves (l l' : Link σ τ) : Prop := ∃ ev, P ev ∧ l.Step needL needR ev l'

def Whole.Moves (w w' : Whole σ τ) : Prop := ∃ ev, P ev ∧ w.Step needL needR ev w'

variable {needL needR P}

theorem Link.Moves.sound {l l' : Link σ τ} (h : Relation.ReflTransGen (Link.Moves needL needR P) l l')
    (hl : l.Sound needL needR) : l'.Sound needL needR := by
  induction h with
  | refl => exact hl
  | tail _ hstep ih =>
    obtain ⟨ev, -, hstep⟩ := hstep
    exact hstep.sound ih

theorem Link.Moves.whole {l l' : Link σ τ} (h : Relation.ReflTransGen (Link.Moves needL needR P) l l') :
    Relation.ReflTransGen (Whole.Moves needL needR P) (l.whole needL needR) (l'.whole needL needR) := by
  induction h with
  | refl => exact .refl
  | tail _ hstep ih =>
    obtain ⟨ev, hev, hstep⟩ := hstep
    rcases hstep.whole with hw | ⟨heq, -⟩
    · exact ih.tail ⟨ev, hev, hw⟩
    · rwa [heq]

/-- **Termination.** The calls that only move bytes come to an end. -/
theorem Link.wf (h : WellFounded fun w' w => Whole.Moves needL needR P w w') :
    WellFounded fun l' l => Link.Moves needL needR P l l' := by
  have hlex := WellFounded.prod_lex h Nat.lt_wfRel.wf
  refine Subrelation.wf ?_ (InvImage.wf (fun l => (l.whole needL needR, l.work)) hlex)
  rintro l' l ⟨ev, hev, hstep⟩
  rcases hstep.whole with hw | ⟨heq, hwork⟩
  · exact Prod.Lex.left _ _ ⟨ev, hev, hw⟩
  · change Prod.Lex _ _ (l'.whole needL needR, l'.work) (l.whole needL needR, l.work)
    rw [heq]
    exact Prod.Lex.right _ hwork

/-- **Deadlock.** Where no call gets any further, neither does a step with whole texts. -/
theorem Link.stuck (hL : P (.left none)) (hR : P (.right none)) {l : Link σ τ} (hl : l.Sound needL needR)
    (h : ¬ ∃ l', Link.Moves needL needR P l l') : ¬ ∃ w', Whole.Moves needL needR P (l.whole needL needR) w' := by
  obtain ⟨e, r, toRight, toLeft⟩ := l
  have hleft := @End.stuck _ _ needL e toLeft toRight (fun a => P (.left a)) hL hl.1
    fun a ha e' inb' outb' hs => h ⟨_, _, ha, .left hs⟩
  have hright := @End.stuck _ _ needR r toRight toLeft (fun b => P (.right b)) hR hl.2
    fun b hb r' inb' outb' hs => h ⟨_, _, hb, .right hs⟩
  rintro ⟨w', ev, hev, hw⟩
  simp only [Link.whole, hleft.1, hright.1, List.append_nil] at hw
  cases hw with
  | left hw => exact hleft.2 _ hev _ _ _ _ hw
  | right hw => exact hright.2 _ hev _ _ _ _ hw

end Runs

end Links

end Wire

end RedisOps.Lib
