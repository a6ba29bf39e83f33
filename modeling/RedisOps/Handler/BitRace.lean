import RedisOps.Handler.BitField
import RedisOps.Lib.Par

/-!
# Two `BFSET`s at the same time

`Store::bitfield_set` gives the lock back after every bit (`store/mod.rs:513-519`), unlike `bitfield_get`, which holds it
for the whole field. Two `BFSET`s of one field may therefore mix their values, and a `BFGET` in between may read part
of one.

`bfset_atomic_iff` — when neither can be seen, over every interleaving: the old value, `v₁` and `v₂` disagree at one
bit of the field at most, or at two, of which the lower one is to be written the same by both and only the upper one
differently (`Calm`). On a key of another type nothing is written and every `BFGET` answers 0, so one of the values
has to be 0.
-/

namespace RedisOps.Handler

open Lib Store Proto Zset

/-! ## Fields half written -/

section Torn
variable {width m n : Nat} {o a b x : Nat → Bool}

/-- One writer has written the first `m` bits and the other the first `n`; a bit that both have written is that of
    either. -/
def Torn (width : Nat) (o a b : Nat → Bool) (m n : Nat) (x : Nat → Bool) : Prop :=
  ∀ i < width, (i < m ∧ x i = a i) ∨ (i < n ∧ x i = b i) ∨ (m ≤ i ∧ n ≤ i ∧ x i = o i)

/-- The three values are not all the same at this bit. -/
def Differ (o a b : Nat → Bool) (i : Nat) : Prop := ¬(o i = a i ∧ o i = b i)

/-- Where the three values differ: nowhere, at one bit, or at two of which only the upper one is in dispute. -/
def Calm (width : Nat) (o a b : Nat → Bool) : Prop :=
  ∀ i j, i < j → j < width → Differ o a b i → Differ o a b j → a i = b i ∧ a j ≠ b j

theorem Torn.start (width : Nat) (o a b : Nat → Bool) : Torn width o a b 0 0 o :=
  fun i _ => .inr (.inr ⟨by omega, by omega, rfl⟩)

theorem Torn.symm (h : Torn width o a b m n x) : Torn width o b a n m x := by
  intro i hi
  rcases h i hi with h | h | ⟨hm, hn, h⟩
  · exact .inr (.inl h)
  · exact .inl h
  · exact .inr (.inr ⟨hn, hm, h⟩)

/-- **Step.** The first writer writes its next bit. -/
theorem Torn.write (h : Torn width o a b m n x) {x' : Nat → Bool} (hx' : ∀ i, x' i = if i = m then a i else x i) :
    Torn width o a b (m + 1) n x' := by
  intro i hi
  rw [hx']
  by_cases him : i = m
  · rw [if_pos him]
    exact .inl ⟨by omega, rfl⟩
  · rw [if_neg him]
    rcases h i hi with ⟨hm, h⟩ | h | ⟨hm, hn, h⟩
    · exact .inl ⟨by omega, h⟩
    · exact .inr (.inl h)
    · exact .inr (.inr ⟨by omega, hn, h⟩)

theorem Torn.mem (h : Torn width o a b m n x) {i : Nat} (hi : i < width) : x i = o i ∨ x i = a i ∨ x i = b i := by
  rcases h i hi with ⟨-, h⟩ | ⟨-, h⟩ | ⟨-, -, h⟩
  · exact .inr (.inl h)
  · exact .inr (.inr h)
  · exact .inl h

/-- The two values are the same field. -/
def SameOn (width : Nat) (x y : Nat → Bool) : Prop := ∀ i < width, x i = y i

/-- Where the three values agree there is nothing to tear. -/
theorem Torn.eq_of_not_differ (h : Torn width o a b m n x) {i : Nat} (hi : i < width) (hd : ¬Differ o a b i) :
    x i = o i ∧ x i = a i ∧ x i = b i := by
  obtain ⟨ha, hb⟩ := not_not.1 hd
  rcases h.mem hi with hx | hx | hx
  · exact ⟨hx, hx.trans ha, hx.trans hb⟩
  · exact ⟨hx.trans ha.symm, hx, hx.trans (ha.symm.trans hb)⟩
  · exact ⟨hx.trans hb.symm, hx.trans (hb.symm.trans ha), hx⟩

/-- A field that agrees with one of the values where they differ is that value. -/
theorem sameOn_of_differ {y : Nat → Bool} (hagree : ∀ i < width, ¬Differ o a b i → x i = y i)
    (hdiffer : ∀ i < width, Differ o a b i → x i = y i) : SameOn width x y := by
  intro i hi
  by_cases hd : Differ o a b i
  · exact hdiffer i hi hd
  · exact hagree i hi hd

/-- Calm values differ at two bits at most. -/
theorem Calm.eq_or_eq (hcalm : Calm width o a b) {p q : Nat} (hpq : p < q) (hq : q < width) (hdp : Differ o a b p)
    (hdq : Differ o a b q) {i : Nat} (hi : i < width) (hdi : Differ o a b i) : i = p ∨ i = q := by
  obtain ⟨hp, hdispute⟩ := hcalm p q hpq hq hdp hdq
  by_contra hne
  rcases lt_trichotomy i p with hip | rfl | hip
  · exact (hcalm i p hip (by omega) hdi hdp).2 hp
  · exact hne (.inl rfl)
  · rcases lt_trichotomy i q with hiq | rfl | hiq
    · exact (hcalm p i hip hi hdp hdi).2 (hcalm i q hiq hq hdi hdq).1
    · exact hne (.inr rfl)
    · exact hdispute (hcalm q i hiq hi hdq hdi).1

/-- At two bits: the lower one decides whether the field is still the old one. -/
theorem Torn.two (h : Torn width o a b m n x) {p q : Nat} (hpq : p < q) (hq : q < width) (hp : a p = b p)
    (hdispute : a q ≠ b q) :
    (x p = o p ∧ x q = o q) ∨ (x p = a p ∧ x q = a q) ∨ (x p = b p ∧ x q = b q) := by
  by_cases hxp : x p = a p
  · -- the lower bit is written, the upper one is that of either
    have hxq : x q = a q ∨ x q = b q := by
      cases hx : x q <;> cases ha : a q <;> cases hb : b q <;> simp_all
    rcases hxq with hxq | hxq
    · exact .inr (.inl ⟨hxp, hxq⟩)
    · exact .inr (.inr ⟨hxp.trans hp, hxq⟩)
  · -- neither writer has come to the lower bit
    have hnot : m ≤ p ∧ n ≤ p ∧ x p = o p := by
      rcases h p (by omega) with ⟨-, hx⟩ | ⟨-, hx⟩ | hx
      · exact absurd hx hxp
      · exact absurd (hx.trans hp.symm) hxp
      · exact hx
    have hxq : x q = o q := by
      rcases h q hq with ⟨hm, -⟩ | ⟨hn, -⟩ | ⟨-, -, hx⟩
      · omega
      · omega
      · exact hx
    exact .inl ⟨hnot.2.2, hxq⟩

/-- When the values are calm, a field half written is one of them. -/
theorem Torn.sameOn (h : Torn width o a b m n x) (hcalm : Calm width o a b) :
    SameOn width x o ∨ SameOn width x a ∨ SameOn width x b := by
  have hold := sameOn_of_differ fun i hi hd => (h.eq_of_not_differ hi hd).1
  have hfirst := sameOn_of_differ fun i hi hd => (h.eq_of_not_differ hi hd).2.1
  have hsecond := sameOn_of_differ fun i hi hd => (h.eq_of_not_differ hi hd).2.2
  by_cases hpair : ∃ p q, p < q ∧ q < width ∧ Differ o a b p ∧ Differ o a b q
  · obtain ⟨p, q, hpq, hq, hdp, hdq⟩ := hpair
    obtain ⟨hp, hdispute⟩ := hcalm p q hpq hq hdp hdq
    -- enough to agree at these two
    have hboth : ∀ {y : Nat → Bool}, x p = y p ∧ x q = y q → ∀ i < width, Differ o a b i → x i = y i := by
      intro y hy i hi hdi
      rcases hcalm.eq_or_eq hpq hq hdp hdq hi hdi with rfl | rfl
      · exact hy.1
      · exact hy.2
    rcases h.two hpq hq hp hdispute with hx | hx | hx
    · exact .inl (hold (hboth hx))
    · exact .inr (.inl (hfirst (hboth hx)))
    · exact .inr (.inr (hsecond (hboth hx)))
  · by_cases hone : ∃ p < width, Differ o a b p
    · obtain ⟨p, hp, hdp⟩ := hone
      have honly : ∀ i < width, Differ o a b i → i = p := by
        intro i hi hdi
        by_contra hne
        rcases lt_or_gt_of_ne hne with hlt | hlt
        · exact hpair ⟨i, p, hlt, hp, hdi, hdp⟩
        · exact hpair ⟨p, i, hlt, hi, hdp, hdi⟩
      rcases h.mem hp with hx | hx | hx
      · exact .inl (hold fun i hi hdi => by rw [honly i hi hdi, hx])
      · exact .inr (.inl (hfirst fun i hi hdi => by rw [honly i hi hdi, hx]))
      · exact .inr (.inr (hsecond fun i hi hdi => by rw [honly i hi hdi, hx]))
    · exact .inl (hold fun i hi hdi => absurd ⟨i, hi, hdi⟩ hone)

/-- When both are done it is one of theirs. -/
theorem Torn.sameOn_done (h : Torn width o a b width width x) (hcalm : Calm width o a b) :
    SameOn width x a ∨ SameOn width x b := by
  have hmem : ∀ i < width, x i = a i ∨ x i = b i := by
    intro i hi
    rcases h i hi with ⟨-, hx⟩ | ⟨-, hx⟩ | ⟨hm, -, -⟩
    · exact .inl hx
    · exact .inr hx
    · omega
  by_contra hnone
  simp only [SameOn, not_or, not_forall] at hnone
  obtain ⟨⟨i, hi, hxi⟩, ⟨j, hj, hxj⟩⟩ := hnone
  have hxi' := (hmem i hi).resolve_left hxi
  have hxj' := (hmem j hj).resolve_right hxj
  have hdi : a i ≠ b i := fun heq => hxi (hxi'.trans heq.symm)
  have hdj : a j ≠ b j := fun heq => hxj (hxj'.trans heq)
  have differ : ∀ {k}, a k ≠ b k → Differ o a b k := fun hk hd => hk (hd.1.symm.trans hd.2)
  rcases lt_trichotomy i j with hij | rfl | hij
  · exact hdi (hcalm i j hij hj (differ hdi) (differ hdj)).1
  · exact hxi hxj'
  · exact hdj (hcalm j i hij hi (differ hdj) (differ hdi)).1

end Torn

/-! ## The two commands -/

variable {F : Type} {key : String} {now : Nat} {f : Field} {v : Fin 2 → UInt64} {w : World F}

/-- The value modulo `2^width`. -/
def Field.low (f : Field) (v : UInt64) : UInt64 := UInt64.ofNat (v.toNat % 2 ^ f.width.toNat)

def bitsOfWord (v : UInt64) (i : Nat) : Bool := v.toNat.testBit i

/-- The bits of the field. -/
def fieldOf (f : Field) (key : String) (w : World F) (i : Nat) : Bool := bitAt (bytesAt w.store key) (f.offset.toNat + i)

/-- Two `BFSET`s and a `BFGET` of one field. -/
def race (key offset width : String) (val : Fin 2 → String) : Option (Fin 2) → Cmd F Response
  | some i => bfset [key, offset, width, val i]
  | none => bfget [key, offset, width]

/-- `BFSET` with `n` bits left. -/
def writing (key : String) (f : Field) (v : UInt64) (n : Nat) : Cmd F Response := do
  bitfieldSet key f.offset v f.width.toNat n
  pure (.int 1)

def reading (key : String) (f : Field) : Cmd F Response := do
  let val ← await (.bitfieldGet key f.offset f.width)
  pure (.int val.toInt64)

theorem gather_bitsOfWord (f : Field) (v : UInt64) : gather (bitsOfWord v) f.width.toNat = f.low v := by
  have hmod : (gather (bitsOfWord v) f.width.toNat).toNat = v.toNat % 2 ^ f.width.toNat :=
    gather_eq_mod f.narrow fun i _ => rfl
  rw [Field.low, ← hmod, UInt64.ofNat_toNat]

theorem gather_inj {n : Nat} (hn : n ≤ 64) {x y : Nat → Bool} : gather x n = gather y n ↔ SameOn n x y := by
  constructor
  · intro h i hi
    have hbit := congrArg (fun r : UInt64 => r.toNat.testBit i) h
    simpa [testBit_gather _ hn, hi] using hbit
  · exact gather_congr

theorem bitfieldGet_fieldOf (f : Field) (h : StrOrBytes now w.store key) :
    bitfieldGet now w.store key f.offset f.width = gather (fieldOf f key w) f.width.toNat :=
  bitfieldGet_field f h

/-- One more bit of a field whose first `d` bits are written. -/
def writeNext (key : String) (f : Field) (v : UInt64) (d : Nat) (w : World F) : World F :=
  { w with store := setBit w.store key (f.offset + UInt32.ofNat d) (fieldBit v d) }

/-- The next operation of a `BFSET` that has written `d` bits. -/
theorem writing_eq (v : UInt64) {d : Nat} (hd : d < f.width.toNat) :
    (writing key f v (f.width.toNat - d) : Cmd F Response) =
      .op (.setBit key (f.offset + UInt32.ofNat d) (fieldBit v d)) fun _ => writing key f v (f.width.toNat - (d + 1)) := by
  obtain ⟨n, hn⟩ : ∃ n, f.width.toNat - d = n + 1 := ⟨f.width.toNat - d - 1, by omega⟩
  have hn' : f.width.toNat - (d + 1) = n := by omega
  have hi : d = f.width.toNat - (n + 1) := by omega
  rw [hn, hn', hi]
  rfl

theorem fieldOf_writeNext (h : StrOrBytes now w.store key) (v : UInt64) {d : Nat} (hd : d < f.width.toNat) :
    StrOrBytes now (writeNext key f v d w).store key ∧
      ∀ i, fieldOf f key (writeNext key f v d w) i = if i = d then bitsOfWord v i else fieldOf f key w i := by
  have hnarrow := f.narrow
  obtain ⟨h', -, hbits⟩ := setBit_spec h (f.offset + UInt32.ofNat d) (fieldBit v d)
  refine ⟨h', ?_⟩
  intro i
  change bitAt (bytesAt (setBit w.store key _ _) key) _ = _
  rw [hbits, f.toNat_position hd, fieldBit_eq v (by omega)]
  by_cases hi : i = d
  · rw [if_pos (by omega), if_pos hi, hi]
    rfl
  · rw [if_neg (by omega), if_neg hi]
    rfl

/-- What `BFSET` finds of another type, or expired, it leaves so. -/
theorem not_strOrBytes_setBit {s : Data F} (h : ¬StrOrBytes now s key) (bit : UInt32) (on : Bool) :
    ¬StrOrBytes now (setBit s key bit on) key := by
  intro h'
  apply h
  intro e he
  obtain ⟨typ, exp⟩ := e
  cases typ with
  | str v =>
    have hl : (setBit s key bit on).lookup key = some ⟨.bytes (writeBit (utf8 v) bit on), exp⟩ := by
      simp only [setBit, he]
      exact AList.lookup_insert _
    exact ⟨(h' _ hl).1, .inl ⟨v, rfl⟩⟩
  | bytes b =>
    have hl : (setBit s key bit on).lookup key = some ⟨.bytes (writeBit b bit on), exp⟩ := by
      simp only [setBit, he]
      exact AList.lookup_insert _
    exact ⟨(h' _ hl).1, .inr ⟨b, rfl⟩⟩
  | zset z => exact h' _ (by simp only [setBit, he])
  | list l => exact h' _ (by simp only [setBit, he])

/-- And reads nothing. -/
theorem bitfieldGet_of_not {s : Data F} (h : ¬StrOrBytes now s key) (offset width : UInt32) :
    bitfieldGet now s key offset width = 0 := by
  have hnone : bitsOf now s key = none := by
    unfold bitsOf
    cases he : s.lookup key with
    | none => rfl
    | some e =>
      by_contra hsome
      apply h
      intro e' he'
      rw [he, Option.some.injEq] at he'
      subst he'
      cases hx : e.expired now with
      | true => simp [hx] at hsome
      | false => cases ht : e.typ <;> simp_all
  simp only [bitfieldGet, hnone]

/-! ## Every interleaving -/

variable [Score F]

theorem exec_writeNext (now : Nat) (key : String) (f : Field) (v : UInt64) (d : Nat) (w : World F) :
    exec now (.setBit key (f.offset + UInt32.ofNat d) (fieldBit v d)) w = some ((), writeNext key f v d w) := rfl

/-- What holds in the middle of a race: `Q` of the number of bits each writer has written and of the state, and `L` of
    the answer the reader has got. -/
def InRace (key : String) (f : Field) (v : Fin 2 → UInt64) (Q : (Fin 2 → Nat) → World F → Prop) (L : Response → Prop)
    (ps : Option (Fin 2) → Cmd F Response) (w : World F) : Prop :=
  ∃ d : Fin 2 → Nat, (∀ i, d i ≤ f.width.toNat ∧ ps (some i) = writing key f (v i) (f.width.toNat - d i)) ∧ Q d w ∧
    (ps none = reading key f ∨ ∃ r, ps none = .ret r ∧ L r)

section Race
variable {Q : (Fin 2 → Nat) → World F → Prop} {L : Response → Prop}

/-- **Step.** Each operation writes the next bit of one of the values, or reads. -/
theorem inRace_step
    (hwrite : ∀ d w i, Q d w → d i < f.width.toNat → Q (Function.update d i (d i + 1)) (writeNext key f (v i) (d i) w))
    (hread : ∀ d w, Q d w → L (.int (bitfieldGet now w.store key f.offset f.width).toInt64))
    (ps : Option (Fin 2) → Cmd F Response) (who : Option (Fin 2)) (o : Op F) (k : o.Ret → Cmd F Response) (w : World F)
    (r : o.Ret) (w' : World F) (h : InRace key f v Q L ps w) (hp : ps who = .op o k) (hx : exec now o w = some (r, w')) :
    InRace key f v Q L (Function.update ps who (k r)) w' := by
  obtain ⟨d, hd, hQ, hreader⟩ := h
  cases who with
  | some i =>
    obtain ⟨hle, hpi⟩ := hd i
    have hlt : d i < f.width.toNat := by
      by_contra hge
      rw [show f.width.toNat - d i = 0 by omega] at hpi
      rw [hpi] at hp
      cases hp
    rw [writing_eq (v i) hlt, hp] at hpi
    cases hpi
    rw [exec_writeNext] at hx
    cases hx
    refine ⟨Function.update d i (d i + 1), ?_, hwrite d w i hQ hlt, ?_⟩
    · intro j
      by_cases hj : j = i
      · subst hj
        rw [Function.update_self, Function.update_self]
        exact ⟨hlt, rfl⟩
      · have hj' : some j ≠ some i := fun he => hj (Option.some.inj he)
        rw [Function.update_of_ne hj, Function.update_of_ne hj']
        exact hd j
    · rwa [Function.update_of_ne (by simp)]
  | none =>
    rcases hreader with hreader | ⟨r', hreader, -⟩
    · rw [hp] at hreader
      cases hreader
      cases hx
      refine ⟨d, ?_, hQ, .inr ⟨_, Function.update_self .., hread d w hQ⟩⟩
      intro j
      rw [Function.update_of_ne (by simp)]
      exact hd j
    · rw [hp] at hreader
      cases hreader

/-- **Run.** -/
theorem inRace_run
    (hwrite : ∀ d w i, Q d w → d i < f.width.toNat → Q (Function.update d i (d i + 1)) (writeNext key f (v i) (d i) w))
    (hread : ∀ d w, Q d w → L (.int (bitfieldGet now w.store key f.offset f.width).toInt64))
    {ps : Option (Fin 2) → Cmd F Response} (hps : ∀ i, ps (some i) = writing key f (v i) f.width.toNat)
    (hreader : ps none = reading key f) (hQ : Q (fun _ => 0) w)
    {turns : List (Prog.Turn (Option (Fin 2)) (Op F) Op.Ret (World F))} {answers : Option (Fin 2) → Response} {w' : World F}
    (h : Prog.Interleaved (exec now) ps w turns answers w') : Q (fun _ => f.width.toNat) w' ∧ L (answers none) := by
  have hstart : InRace key f v Q L ps w := ⟨fun _ => 0, fun i => ⟨Nat.zero_le _, hps i⟩, hQ, .inl hreader⟩
  obtain ⟨d, hd, hQ', hreader' | ⟨r, hr, hL⟩⟩ := h.inv (inRace_step hwrite hread) hstart
  · cases hreader'
  · cases hr
    have hall : d = fun _ => f.width.toNat := by
      funext i
      obtain ⟨hle, hi⟩ := hd i
      by_contra hne
      rw [writing_eq (v i) (by omega)] at hi
      cases hi
    rw [hall] at hQ'
    exact ⟨hQ', hL⟩

end Race

/-! ## Some interleavings -/

/-- A stretch of one `BFSET`, from `d` bits written to `e`. -/
theorem runs_writing (now : Nat) (v : UInt64) {d : Nat} : ∀ {e : Nat}, d ≤ e → e ≤ f.width.toNat → ∀ w : World F, ∃ w',
    Prog.Runs (exec now) (writing key f v (f.width.toNat - d)) w (writing key f v (f.width.toNat - e)) w' ∧
      (StrOrBytes now w.store key → StrOrBytes now w'.store key ∧
        ∀ i, fieldOf f key w' i = if d ≤ i ∧ i < e then bitsOfWord v i else fieldOf f key w i) := by
  intro e hde
  induction e, hde using Nat.le_induction with
  | base =>
    intro _ w
    refine ⟨w, .refl _ _, fun h => ⟨h, ?_⟩⟩
    intro i
    rw [if_neg (by omega)]
  | succ e hde ih =>
    intro he w
    obtain ⟨w', hruns, hbits⟩ := ih (by omega) w
    refine ⟨writeNext key f v e w', ?_, ?_⟩
    · apply hruns.trans
      rw [writing_eq v (by omega)]
      exact .step (exec_writeNext ..) (.refl _ _)
    · intro h
      obtain ⟨h', hbits'⟩ := hbits h
      obtain ⟨h'', hnext⟩ := fieldOf_writeNext (f := f) h' v (d := e) (by omega)
      refine ⟨h'', ?_⟩
      intro i
      rw [hnext, hbits']
      by_cases hi : i = e
      · rw [if_pos hi, if_pos (by omega)]
      · have hcond : d ≤ i ∧ i < e + 1 ↔ d ≤ i ∧ i < e := by omega
        rw [if_neg hi]
        simp only [hcond]

theorem runs_reading (now : Nat) (key : String) (f : Field) (w : World F) : Prog.Runs (exec now) (reading key f) w
    (.ret (.int (bitfieldGet now w.store key f.offset f.width).toInt64)) w :=
  .step rfl (.refl _ _)

/-- Both writers can go on to their ends, one after the other. -/
theorem exists_rest (now : Nat) {ps : Option (Fin 2) → Cmd F Response} {d : Fin 2 → Nat}
    (hps : ∀ i, d i ≤ f.width.toNat ∧ ps (some i) = writing key f (v i) (f.width.toNat - d i)) {r : Response}
    (hr : ps none = .ret r) (w : World F) : ∃ turns answers w',
      Prog.Interleaved (exec now) ps w turns answers w' ∧ answers none = r := by
  obtain ⟨w₁, hfirst, -⟩ := runs_writing now (v 0) (hps 0).1 (le_refl _) w
  obtain ⟨w₂, hsecond, -⟩ := runs_writing now (v 1) (hps 1).1 (le_refl _) w₁
  have hdone : Prog.Interleaved (exec now)
      (Function.update (Function.update ps (some 0) (writing key f (v 0) (f.width.toNat - f.width.toNat))) (some 1)
        (writing key f (v 1) (f.width.toNat - f.width.toNat))) w₂ [] (fun who => who.elim r fun _ => .int 1) w₂ := by
    apply Prog.Interleaved.done
    intro who
    match who with
    | none => simpa using hr
    | some 0 => simp [writing, bitfieldSet]
    | some 1 => simp [writing, bitfieldSet]
  obtain ⟨turns₁, h₁⟩ := hsecond.interleaved _ (by simpa using (hps 1).2) hdone
  obtain ⟨turns₂, h₂⟩ := hfirst.interleaved _ (hps 0).2 h₁
  exact ⟨turns₂, _, w₂, h₂, rfl⟩

section Schedules
variable {ps : Option (Fin 2) → Cmd F Response} (hps : ∀ i, ps (some i) = writing key f (v i) f.width.toNat)
  (hreader : ps none = reading key f)
include hps hreader

/-- The reader may come first. -/
theorem exists_interleaved (now : Nat) (w : World F) :
    ∃ turns answers w', Prog.Interleaved (exec now) ps w turns answers w' := by
  have hleft : ∀ i : Fin 2, 0 ≤ f.width.toNat ∧ Function.update ps none
      (.ret (.int (bitfieldGet now w.store key f.offset f.width).toInt64)) (some i) =
      writing key f (v i) (f.width.toNat - 0) := by
    intro i
    simpa using hps i
  obtain ⟨turns, answers, w', hrest, -⟩ := exists_rest now hleft (Function.update_self ..) w
  obtain ⟨turns', hrun⟩ := (runs_reading now key f w).interleaved _ hreader hrest
  exact ⟨turns', answers, w', hrun⟩

/-- The reader comes when one `BFSET` has written its first `e` bits. -/
theorem exists_torn_read (h : StrOrBytes now w.store key) (c : Fin 2) {e : Nat} (he : e ≤ f.width.toNat) :
    ∃ turns answers w' x, Prog.Interleaved (exec now) ps w turns answers w' ∧
      answers none = .int (gather x f.width.toNat).toInt64 ∧
      ∀ i, x i = if i < e then bitsOfWord (v c) i else fieldOf f key w i := by
  obtain ⟨w₁, hwrite, hbits⟩ := runs_writing now (v c) (Nat.zero_le e) he w
  obtain ⟨h₁, hbits⟩ := hbits h
  have hread := runs_reading now key f w₁
  rw [bitfieldGet_fieldOf f h₁] at hread
  have hleft : ∀ i : Fin 2, (if i = c then e else 0) ≤ f.width.toNat ∧
      Function.update (Function.update ps (some c) (writing key f (v c) (f.width.toNat - e))) none
        (.ret (.int (gather (fieldOf f key w₁) f.width.toNat).toInt64)) (some i) =
      writing key f (v i) (f.width.toNat - if i = c then e else 0) := by
    intro i
    by_cases hic : i = c
    · subst hic
      simpa using he
    · simp [hic, hps]
  obtain ⟨turns, answers, w', hrest, hanswer⟩ := exists_rest now hleft (Function.update_self ..) w₁
  obtain ⟨turns₁, hturns₁⟩ := hread.interleaved _ (by simpa using hreader) hrest
  obtain ⟨turns₂, hturns₂⟩ := hwrite.interleaved _ (hps c) hturns₁
  refine ⟨turns₂, answers, w', fieldOf f key w₁, hturns₂, hanswer, ?_⟩
  intro i
  rw [hbits]
  simp

/-- The second writes `e` bits, the first all of its own, and the second the rest: the first keeps the lower `e` bits. -/
theorem exists_mixed (h : StrOrBytes now w.store key) {e : Nat} (he : e ≤ f.width.toNat) :
    ∃ turns answers w', Prog.Interleaved (exec now) ps w turns answers w' ∧ StrOrBytes now w'.store key ∧
      ∀ i < f.width.toNat, fieldOf f key w' i = if i < e then bitsOfWord (v 0) i else bitsOfWord (v 1) i := by
  obtain ⟨w₁, hwrite₁, hbits₁⟩ := runs_writing now (v 1) (Nat.zero_le e) he w
  obtain ⟨h₁, hbits₁⟩ := hbits₁ h
  obtain ⟨w₂, hwrite₂, hbits₂⟩ := runs_writing now (v 0) (Nat.zero_le _) (le_refl f.width.toNat) w₁
  obtain ⟨h₂, hbits₂⟩ := hbits₂ h₁
  obtain ⟨w₃, hwrite₃, hbits₃⟩ := runs_writing now (v 1) he (le_refl f.width.toNat) w₂
  obtain ⟨h₃, hbits₃⟩ := hbits₃ h₂
  -- the reader comes last
  obtain ⟨r, hread⟩ : ∃ r, Prog.Runs (exec now) (reading key f) w₃ (.ret r) w₃ := ⟨_, runs_reading now key f w₃⟩
  have hdone : Prog.Interleaved (exec now)
      (Function.update (Function.update (Function.update (Function.update ps (some 1) (writing key f (v 1) (f.width.toNat - e)))
        (some 0) (writing key f (v 0) (f.width.toNat - f.width.toNat))) (some 1)
        (writing key f (v 1) (f.width.toNat - f.width.toNat))) none (.ret r)) w₃ []
      (fun who => who.elim r fun _ => .int 1) w₃ := by
    apply Prog.Interleaved.done
    intro who
    match who with
    | none => simp
    | some 0 => simp [writing, bitfieldSet]
    | some 1 => simp [writing, bitfieldSet]
  obtain ⟨_, hturns⟩ := hread.interleaved _ (by simpa using hreader) hdone
  obtain ⟨_, hturns₃⟩ := hwrite₃.interleaved _ (by simp) hturns
  obtain ⟨_, hturns₂⟩ := hwrite₂.interleaved _ (by simpa using hps 0) hturns₃
  obtain ⟨turns, hturns₁⟩ := hwrite₁.interleaved _ (hps 1) hturns₂
  refine ⟨turns, _, w₃, hturns₁, h₃, ?_⟩
  intro i hi
  rw [hbits₃, hbits₂]
  by_cases hie : i < e
  · rw [if_neg (by omega), if_pos ⟨Nat.zero_le _, hi⟩, if_pos hie]
  · rw [if_pos (by omega), if_neg hie]

end Schedules

/-! ## When the race cannot be seen -/

/-- The answer is one of the two values. -/
def OneOf (f : Field) (v : Fin 2 → UInt64) (r : Response) : Prop := ∃ i, r = .int (f.low (v i)).toInt64

/-- Or the old value. -/
def OldOrOneOf (now : Nat) (key : String) (f : Field) (v : Fin 2 → UInt64) (w : World F) (r : Response) : Prop :=
  r = .int (bitfieldGet now w.store key f.offset f.width).toInt64 ∨ OneOf f v r

/-- Whatever the order, a `BFGET` afterwards answers one of the two values, and the one in between one of them or the
    old value. -/
def BfsetAtomic (now : Nat) (key offset width : String) (val : Fin 2 → String) (f : Field) (v : Fin 2 → UInt64)
    (w : World F) : Prop :=
  ∀ turns answers w', Prog.Interleaved (exec now) (race key offset width val) w turns answers w' →
    (∃ r, (bfget [key, offset, width]).run (exec now) w' = (some r, w') ∧ OneOf f v r) ∧
      OldOrOneOf now key f v w (answers none)

theorem int_word_inj {x y : UInt64} : Response.int x.toInt64 = .int y.toInt64 ↔ x = y := by
  constructor
  · intro h
    have hword : x.toInt64 = y.toInt64 := Response.int.inj h
    simpa using congrArg Int64.toUInt64 hword
  · rintro rfl
    rfl

theorem gather_eq_low {x : Nat → Bool} {v : UInt64} :
    gather x f.width.toNat = f.low v ↔ SameOn f.width.toNat x (bitsOfWord v) := by
  rw [← gather_bitsOfWord, gather_inj f.narrow]

/-- Between a `BFSET` and the next the field is torn between the old value and the two. -/
def HalfWritten (now : Nat) (key : String) (f : Field) (v : Fin 2 → UInt64) (w : World F) (d : Fin 2 → Nat)
    (w' : World F) : Prop :=
  StrOrBytes now w'.store key ∧
    Torn f.width.toNat (fieldOf f key w) (bitsOfWord (v 0)) (bitsOfWord (v 1)) (d 0) (d 1) (fieldOf f key w')

omit [Score F] in
theorem halfWritten_write (d : Fin 2 → Nat) (w' : World F) (i : Fin 2) (h : HalfWritten now key f v w d w')
    (hlt : d i < f.width.toNat) :
    HalfWritten now key f v w (Function.update d i (d i + 1)) (writeNext key f (v i) (d i) w') := by
  obtain ⟨hw', htorn⟩ := h
  obtain ⟨hnext, hbits⟩ := fieldOf_writeNext hw' (v i) hlt
  refine ⟨hnext, ?_⟩
  match i with
  | 0 => simpa using htorn.write hbits
  | 1 => simpa using (htorn.symm.write hbits).symm

omit [Score F] in
theorem halfWritten_read (h : StrOrBytes now w.store key)
    (hcalm : Calm f.width.toNat (fieldOf f key w) (bitsOfWord (v 0)) (bitsOfWord (v 1))) (d : Fin 2 → Nat) (w' : World F)
    (hhalf : HalfWritten now key f v w d w') :
    OldOrOneOf now key f v w (.int (bitfieldGet now w'.store key f.offset f.width).toInt64) := by
  obtain ⟨hw', htorn⟩ := hhalf
  rw [OldOrOneOf, bitfieldGet_fieldOf f hw', bitfieldGet_fieldOf f h]
  rcases htorn.sameOn hcalm with hsame | hsame | hsame
  · exact .inl (by rw [gather_congr hsame])
  · exact .inr ⟨0, by rw [gather_eq_low.2 hsame]⟩
  · exact .inr ⟨1, by rw [gather_eq_low.2 hsame]⟩

section Atomic
variable {offset width : String} {val : Fin 2 → String} (ho : parseU32 offset = some f.offset)
  (hn : parseU32 width = some f.width) (hv : ∀ i, parseU64 (val i) = some (v i))
include ho hn

omit [Score F] in
theorem bfget_eq : (bfget [key, offset, width] : Cmd F Response) = reading key f := by
  simp only [bfget, parsed, ho, hn]
  rfl

theorem run_bfget (w : World F) : (bfget [key, offset, width]).run (exec now) w =
    (some (.int (bitfieldGet now w.store key f.offset f.width).toInt64), w) := by
  rw [bfget_eq ho hn]
  rfl

include hv

omit [Score F] in
theorem race_some (i : Fin 2) :
    (race key offset width val (some i) : Cmd F Response) = writing key f (v i) f.width.toNat := by
  simp only [race, bfset, parsed, ho, hn, hv]
  rfl

/-- **Calm races.** At every point the field is torn, and a torn field is one of the three values. -/
theorem atomic_of_calm (h : StrOrBytes now w.store key)
    (hcalm : Calm f.width.toNat (fieldOf f key w) (bitsOfWord (v 0)) (bitsOfWord (v 1))) :
    BfsetAtomic now key offset width val f v w := by
  intro turns answers w' hrun
  obtain ⟨⟨h', htorn⟩, hanswer⟩ := inRace_run (halfWritten_write (w := w)) (halfWritten_read h hcalm)
    (race_some ho hn hv) (bfget_eq ho hn) ⟨h, .start _ _ _ _⟩ hrun
  refine ⟨⟨_, run_bfget ho hn w', ?_⟩, hanswer⟩
  rw [bitfieldGet_fieldOf f h']
  rcases htorn.sameOn_done hcalm with hsame | hsame
  · exact ⟨0, by rw [gather_eq_low.2 hsame]⟩
  · exact ⟨1, by rw [gather_eq_low.2 hsame]⟩

/-- **Other races.** Some order shows, after the two or in between. -/
theorem calm_of_atomic (h : StrOrBytes now w.store key) (hatomic : BfsetAtomic now key offset width val f v w) :
    Calm f.width.toNat (fieldOf f key w) (bitsOfWord (v 0)) (bitsOfWord (v 1)) := by
  intro i j hij hj hdi hdj
  -- an answer that is one of the two values
  have honeOf : ∀ x, OneOf f v (.int (gather x f.width.toNat).toInt64) → ∃ c, SameOn f.width.toNat x (bitsOfWord (v c)) := by
    rintro x ⟨c, hc⟩
    exact ⟨c, gather_eq_low.1 (int_word_inj.1 hc)⟩
  have hagree : bitsOfWord (v 0) j ≠ bitsOfWord (v 1) j := by
    intro heq
    -- one of the values changes the lower bit; the reader comes between the two bits
    obtain ⟨c, hc⟩ : ∃ c, fieldOf f key w i ≠ bitsOfWord (v c) i := by
      by_contra hnone
      push Not at hnone
      exact hdi ⟨hnone 0, hnone 1⟩
    obtain ⟨turns, answers, w', x, hrun, hanswer, hx⟩ :=
      exists_torn_read (race_some ho hn hv) (bfget_eq ho hn) h c (e := i + 1) (by omega)
    have hxi : x i = bitsOfWord (v c) i := by rw [hx, if_pos (by omega)]
    have hxj : x j = fieldOf f key w j := by rw [hx, if_neg (by omega)]
    have hlegal := (hatomic turns answers w' hrun).2
    rw [hanswer, OldOrOneOf, bitfieldGet_fieldOf f h, int_word_inj, gather_inj f.narrow] at hlegal
    rcases hlegal with hold | hone
    · exact hc ((hold i (by omega)).symm.trans hxi)
    · obtain ⟨c', hsame⟩ := honeOf x hone
      have hboth : fieldOf f key w j = bitsOfWord (v c') j := hxj.symm.trans (hsame j hj)
      match c' with
      | 0 => exact hdj ⟨hboth, hboth.trans heq⟩
      | 1 => exact hdj ⟨hboth.trans heq.symm, hboth⟩
  refine ⟨?_, hagree⟩
  by_contra hne
  -- the first keeps the lower bit, the second the upper one
  obtain ⟨turns, answers, w', hrun, h', hbits⟩ :=
    exists_mixed (race_some ho hn hv) (bfget_eq ho hn) h (e := i + 1) (by omega)
  obtain ⟨⟨r, hget, hone⟩, -⟩ := hatomic turns answers w' hrun
  rw [run_bfget ho hn, bitfieldGet_fieldOf f h'] at hget
  cases hget
  obtain ⟨c, hsame⟩ := honeOf _ hone
  have hi := (hbits i (by omega)).symm.trans (hsame i (by omega))
  have hj' := (hbits j hj).symm.trans (hsame j hj)
  rw [if_pos (by omega)] at hi
  rw [if_neg (by omega)] at hj'
  match c with
  | 0 => exact hagree hj'.symm
  | 1 => exact hne hi

/-- On a key of another type, or expired, every `BFGET` answers 0. -/
theorem atomic_iff_of_not (h : ¬StrOrBytes now w.store key) :
    BfsetAtomic now key offset width val f v w ↔ ∃ i, f.low (v i) = 0 := by
  have hzero : ∀ {w' : World F}, ¬StrOrBytes now w'.store key →
      (OneOf f v (.int (bitfieldGet now w'.store key f.offset f.width).toInt64) ↔ ∃ i, f.low (v i) = 0) := by
    intro w' h'
    rw [bitfieldGet_of_not h', OneOf]
    simp only [int_word_inj, eq_comm]
  have hrace : ∀ {turns answers w'}, Prog.Interleaved (exec now) (race key offset width val) w turns answers w' →
      ¬StrOrBytes now w'.store key ∧ answers none = .int (bitfieldGet now w.store key f.offset f.width).toInt64 := by
    intro turns answers w' hrun
    refine inRace_run (L := fun r => r = .int (bitfieldGet now w.store key f.offset f.width).toInt64)
      (fun _ w₁ i (h₁ : ¬StrOrBytes now w₁.store key) _ => not_strOrBytes_setBit h₁ _ _) ?_ (race_some ho hn hv)
      (bfget_eq ho hn) h hrun
    intro _ w₁ h₁
    rw [bitfieldGet_of_not h₁, bitfieldGet_of_not h]
  constructor
  · intro hatomic
    obtain ⟨turns, answers, w', hrun⟩ := exists_interleaved (race_some ho hn hv) (bfget_eq ho hn) now w
    obtain ⟨⟨r, hget, hone⟩, -⟩ := hatomic turns answers w' hrun
    rw [run_bfget ho hn] at hget
    cases hget
    exact (hzero (hrace hrun).1).1 hone
  · intro hsome turns answers w' hrun
    obtain ⟨h', hanswer⟩ := hrace hrun
    exact ⟨⟨_, run_bfget ho hn w', (hzero h').2 hsome⟩, .inl hanswer⟩

/-- **When `BFSET` is atomic.** -/
theorem bfset_atomic_iff : BfsetAtomic now key offset width val f v w ↔
    (StrOrBytes now w.store key ∧ Calm f.width.toNat (fieldOf f key w) (bitsOfWord (v 0)) (bitsOfWord (v 1))) ∨
      (¬StrOrBytes now w.store key ∧ ∃ i, f.low (v i) = 0) := by
  by_cases h : StrOrBytes now w.store key
  · simp only [h, true_and, not_true_eq_false, false_and, or_false]
    exact ⟨calm_of_atomic ho hn hv h, atomic_of_calm ho hn hv h⟩
  · simp only [h, not_false_eq_true, true_and, false_and, false_or]
    exact atomic_iff_of_not ho hn hv h

end Atomic

/-- The two lowest bits. -/
def twoBits : Field := ⟨0, 2, by decide, by decide⟩

/-- `3` and `1` on an absent key: both set the lower bit. -/
theorem bfset_atomic_iff_calm : BfsetAtomic 0 "k" "0" "2" ![ "3", "1"] twoBits ![3, 1] (⟨∅, {}⟩ : World ℚ) := by
  apply (bfset_atomic_iff (f := twoBits) (by decide) (by decide) (by decide)).2
  refine .inl ⟨strOrBytes_empty 0 "k", ?_⟩
  intro i j hij hj _ _
  have hij' : i = 0 ∧ j = 1 := by
    change j < 2 at hj
    omega
  obtain ⟨rfl, rfl⟩ := hij'
  exact ⟨by decide, by decide⟩

/-- `1` and `2` on an absent key leave `3`. -/
theorem bfset_mixes :
    ¬BfsetAtomic 0 "k" "0" "2" ![ "1", "2"] twoBits ![1, 2] (⟨∅, {}⟩ : World ℚ) ∧
      ∃ turns answers w', Prog.Interleaved (exec 0) (race "k" "0" "2" ![ "1", "2"]) (⟨∅, {}⟩ : World ℚ) turns answers w' ∧
        (bfget ["k", "0", "2"]).run (exec 0) w' = (some (.int 3), w') := by
  have ho : parseU32 "0" = some twoBits.offset := by decide
  have hn : parseU32 "2" = some twoBits.width := by decide
  have hv : ∀ i, parseU64 ((![ "1", "2"] : Fin 2 → String) i) = some ((![1, 2] : Fin 2 → UInt64) i) := by decide
  obtain ⟨turns, answers, w', hrun, h', hbits⟩ := exists_mixed (w := (⟨∅, {}⟩ : World ℚ)) (race_some ho hn hv)
    (bfget_eq ho hn) (strOrBytes_empty 0 "k") (e := 1) (by decide)
  have hthree : gather (fieldOf twoBits "k" w') 2 = gather (fun _ => true) 2 := by
    apply gather_congr
    intro i hi
    rw [hbits i hi]
    match i with
    | 0 => decide
    | 1 => decide
  have hget : (bfget ["k", "0", "2"]).run (exec 0) w' = (some (.int 3), w') := by
    rw [run_bfget ho hn, bitfieldGet_fieldOf twoBits h']
    change (some (Response.int (gather (fieldOf twoBits "k" w') 2).toInt64), w') = _
    rw [hthree]
    rfl
  refine ⟨?_, turns, answers, w', hrun, hget⟩
  intro hatomic
  obtain ⟨⟨r, hr, i, hone⟩, -⟩ := hatomic turns answers w' hrun
  rw [hget] at hr
  cases hr
  have hword := Response.int.inj hone
  match i with
  | 0 => exact absurd hword (by decide)
  | 1 => exact absurd hword (by decide)

end RedisOps.Handler
