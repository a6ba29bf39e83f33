import RedisOps.ZSet.Invariant
import Mathlib.Data.Prod.Lex
import Mathlib.Data.List.Sort

/-!
# Queries over added members, and the scores they are stored with

`query_fresh` — after any additions of distinct names, in any order, `query` answers what it is asked for out of the
list of all pairs in order of (score, name): nothing else of the two indexes shows. The `i64` and `usize` arithmetic
on `offset` and `limit` may wrap, but only where the answer is empty anyway.

`add_within` — a member that is added again keeps its score when the new one is within `f64::EPSILON` of it. The
comparison is with the score that is stored, so small steps do not add up: what is stored is never further than that
from the score added last.
-/

namespace RedisOps.Zset

open Lib

variable {F : Type} [Score F]

/-- `add` of one pair after another. -/
def addAll (z : ZSet F) (pairs : List (Entry F)) : ZSet F := pairs.foldl (fun z e => (z.add e.name e.score).2) z

section Exact
variable [LinearOrder F]

/-- What entries are ordered by. -/
def rank (e : Entry F) : F ×ₗ List Char := toLex (e.score, e.name.toList)

/-- All pairs in order. -/
def inOrder (pairs : List (Entry F)) : List (Entry F) := pairs.insertionSort fun a b => rank a ≤ rank b

/-- How many pairs are below a key. -/
def below (pairs : List (Entry F)) (key : Entry F) : Nat := pairs.countP fun e => rank e < rank key

omit [Score F] [LinearOrder F] in
theorem rank_injective : Function.Injective (rank (F := F)) := by
  rintro ⟨n, s⟩ ⟨n', s'⟩ h
  obtain ⟨hs, hn⟩ := Prod.mk.inj (toLex_inj.1 h)
  simp only [Entry.mk.injEq]
  exact ⟨String.toList_inj.1 hn, hs⟩

variable [ExactScore F]

theorem less_iff_rank {a b : Entry F} : less a b = true ↔ rank a < rank b := by
  rw [less_iff, rank, rank, Prod.Lex.toLex_lt_toLex]

/-! ## The list of all members -/

/-- A new member goes to the place of the split. -/
theorem perm_put {z : ZSet F} (h : Rep z) (n : String) (s : F) : (z.put n s).sorted.Perm (⟨n, s⟩ :: z.sorted) := by
  obtain ⟨A, B, hAB, hA, hB⟩ := sorted_split h.sorted ⟨n, s⟩
  simp only [ZSet.put]
  apply List.perm_insertIdx
  rw [hAB, position_split hA hB, List.length_append]
  omega

omit [LinearOrder F] [ExactScore F] in
theorem lookup_put_ne {z : ZSet F} {n n' : String} (h : n' ≠ n) (s : F) :
    (z.put n s).byName.lookup n' = z.byName.lookup n' := AList.lookup_insert_ne h

/-- **Run.** Additions of new names keep the invariant, and the members are those added. -/
theorem rep_addAll : ∀ {pairs : List (Entry F)} {z : ZSet F}, Rep z → (pairs.map Entry.name).Nodup →
    (∀ e ∈ pairs, z.byName.lookup e.name = none) →
    Rep (addAll z pairs) ∧ (addAll z pairs).sorted.Perm (pairs ++ z.sorted)
  | [], z, h, _, _ => ⟨h, .refl _⟩
  | e :: pairs, z, h, hnames, hnew => by
    obtain ⟨hne, hnames⟩ := List.nodup_cons.1 hnames
    have hn := hnew e (by simp)
    have hadd : (z.add e.name e.score).2 = z.put e.name e.score := by simp only [ZSet.add, hn]
    have hnew' : ∀ e' ∈ pairs, (z.put e.name e.score).byName.lookup e'.name = none := by
      intro e' he'
      have hname : e'.name ≠ e.name := fun heq => hne (heq ▸ List.mem_map_of_mem he')
      rw [lookup_put_ne hname]
      exact hnew e' (by simp [he'])
    obtain ⟨hrep, hperm⟩ := rep_addAll (rep_put h hn e.score) hnames hnew'
    rw [addAll, List.foldl_cons, hadd]
    refine ⟨hrep, hperm.trans ?_⟩
    exact ((perm_put h e.name e.score).append_left pairs).trans List.perm_middle

omit [Score F] [ExactScore F] in
/-- There is one way to put the pairs in order. -/
theorem eq_inOrder {l pairs : List (Entry F)} (hl : l.Pairwise (rank · ≤ rank ·)) (hperm : l.Perm pairs) :
    l = inOrder pairs := by
  have hinOrder : (inOrder pairs).Pairwise (rank · ≤ rank ·) := List.pairwise_insertionSort _ pairs
  refine List.Perm.eq_of_pairwise ?_ hl hinOrder (hperm.trans (List.perm_insertionSort _ pairs).symm)
  intro a b _ _ hab hba
  exact rank_injective (le_antisymm hab hba)

/-! ## The query -/

omit [LinearOrder F] [ExactScore F] in
/-- With a vector that fits in memory the sums only wrap behind its end. -/
theorem query_eq {z : ZSet F} (hlen : z.sorted.length < 2 ^ 63) (minScore : F) (minName : String) {p : Nat}
    (hp : position z.sorted ⟨minName, minScore⟩ = p) (hple : p ≤ z.sorted.length) (offset limit : Int64) :
    z.query minScore minName offset limit =
      (z.sorted.drop (max 0 (p + offset.toInt)).toNat).take limit.toInt.toNat := by
  have hoffset := Int64.toInt_lt offset
  have hlimit := Int64.toInt_lt limit
  unfold ZSet.query
  by_cases hneg : limit ≤ 0
  · have hneg' : limit.toInt ≤ 0 := Int64.le_iff_toInt_le.1 hneg
    rw [if_pos hneg, Int.toNat_of_nonpos hneg', List.take_zero]
  · have hpos : saturatingAddSigned p offset = (max 0 (p + offset.toInt)).toNat := by
      unfold saturatingAddSigned
      omega
    rw [if_neg hneg, hp, hpos]
    generalize (max 0 (p + offset.toInt)).toNat = pos at hpos ⊢
    have hpos' : pos < 2 ^ 64 := by
      rw [← hpos]
      unfold saturatingAddSigned
      omega
    dsimp only
    split
    · rw [eq_comm, List.take_eq_nil_iff, List.drop_eq_nil_iff]
      omega
    · rw [slice, List.take_eq_take_iff, List.length_drop]
      omega

/-- The search finds the number of entries below the key. -/
theorem position_eq {sorted : List (Entry F)} (h : sorted.Pairwise (less · · = true)) (key : Entry F) :
    position sorted key = below sorted key := by
  obtain ⟨A, B, rfl, hA, hB⟩ := sorted_split h key
  have hbelow : ∀ e, decide (rank e < rank key) = less e key := by
    intro e
    rw [Bool.eq_iff_iff, less_iff_rank, decide_eq_true_eq]
  have hAcount : A.countP (less · key) = A.length := List.countP_eq_length.2 hA
  have hBcount : B.countP (less · key) = 0 := List.countP_eq_zero.2 fun b hb => by simp [hB b hb]
  rw [position_split hA hB, below]
  simp only [hbelow, List.countP_append, hAcount, hBcount, Nat.add_zero]

/-- **`ZQUERY`.** Over members added once each, in any order. -/
theorem query_fresh {pairs : List (Entry F)} (hnames : (pairs.map Entry.name).Nodup) (hlen : pairs.length < 2 ^ 63)
    (minScore : F) (minName : String) (offset limit : Int64) :
    (addAll .new pairs).query minScore minName offset limit =
        ((inOrder pairs).drop (max 0 (below pairs ⟨minName, minScore⟩ + offset.toInt)).toNat).take limit.toInt.toNat ∧
      (limit ≤ 0 → (addAll .new pairs).query minScore minName offset limit = []) ∧
      ∀ pairs' : List (Entry F), pairs'.Perm pairs →
        (addAll .new pairs').query minScore minName offset limit =
          (addAll .new pairs).query minScore minName offset limit := by
  -- for every order of the additions
  have key : ∀ {ps : List (Entry F)}, ps.Perm pairs → (addAll .new ps).query minScore minName offset limit =
      ((inOrder pairs).drop (max 0 (below pairs ⟨minName, minScore⟩ + offset.toInt)).toNat).take limit.toInt.toNat := by
    intro ps hperm
    have hnames' : (ps.map Entry.name).Nodup := ((hperm.map Entry.name).nodup_iff).2 hnames
    obtain ⟨hrep, hadded⟩ := rep_addAll rep_new hnames' (by simp [ZSet.new])
    rw [show (ZSet.new : ZSet F).sorted = [] from rfl, List.append_nil] at hadded
    have hsorted : (addAll .new ps).sorted = inOrder pairs :=
      eq_inOrder (hrep.sorted.imp fun h => (less_iff_rank.1 h).le) (hadded.trans hperm)
    have hlength : (inOrder pairs).length = pairs.length := List.length_insertionSort _ pairs
    have hposition : position (addAll .new ps).sorted ⟨minName, minScore⟩ = below pairs ⟨minName, minScore⟩ := by
      rw [position_eq hrep.sorted, hsorted]
      exact (List.perm_insertionSort _ pairs).countP_eq _
    rw [query_eq (by rw [hsorted, hlength]; exact hlen) minScore minName hposition
      (by rw [hsorted, hlength]; exact List.countP_le_length) offset limit, hsorted]
  refine ⟨key (.refl _), ?_, ?_⟩
  · intro hlimit
    rw [ZSet.query, if_pos hlimit]
  · intro pairs' hperm
    rw [key hperm, key (.refl _)]

end Exact

/-- Three members, the two of least score from `b` on. -/
theorem query_fresh_three :
    (([⟨"c", 1⟩, ⟨"a", 2⟩, ⟨"b", 1⟩] : List (Entry ℚ)).map Entry.name).Nodup ∧
      inOrder [⟨"c", 1⟩, ⟨"a", 2⟩, ⟨"b", (1 : ℚ)⟩] = [⟨"b", 1⟩, ⟨"c", 1⟩, ⟨"a", 2⟩] ∧
      (addAll .new [⟨"c", 1⟩, ⟨"a", 2⟩, ⟨"b", (1 : ℚ)⟩]).query 1 "b" 0 2 =
        ((inOrder [⟨"c", 1⟩, ⟨"a", 2⟩, ⟨"b", 1⟩]).drop
          (max 0 (below [⟨"c", 1⟩, ⟨"a", 2⟩, ⟨"b", 1⟩] ⟨"b", 1⟩ + (0 : Int64).toInt)).toNat).take 2 := by
  have h : (([⟨"c", 1⟩, ⟨"a", 2⟩, ⟨"b", 1⟩] : List (Entry ℚ)).map Entry.name).Nodup := by decide
  exact ⟨h, by decide, (query_fresh h (by decide) 1 "b" 0 2).1⟩

/-! ## Scores -/

/-- `f64::EPSILON`. -/
def epsilon : ℚ := 1 / 2 ^ 52

theorem nearly_iff {a b : ℚ} : Score.nearly a b = true ↔ |a - b| < epsilon := by
  simp only [Score.nearly, decide_eq_true_eq, epsilon]

/-- Either the stored score is close and stays, or the new one is stored. -/
theorem add_cases (z : ZSet ℚ) (name : String) (s : ℚ) :
    (∃ old, z.score name = some old ∧ |old - s| < epsilon ∧ z.add name s = (false, z)) ∨
      ((∀ old, z.score name = some old → epsilon ≤ |old - s|) ∧ (z.add name s).1 = true ∧
        (z.add name s).2.score name = some s) := by
  cases hlookup : z.byName.lookup name with
  | none =>
    refine .inr ⟨by simp [ZSet.score, hlookup], by simp [ZSet.add, hlookup], ?_⟩
    simp [ZSet.add, hlookup, ZSet.score, ZSet.put]
  | some old =>
    by_cases hnear : |old - s| < epsilon
    · refine .inl ⟨old, hlookup, hnear, ?_⟩
      simp [ZSet.add, hlookup, nearly_iff.2 hnear]
    · have hnear' : ¬Score.nearly old s = true := fun h => hnear (nearly_iff.1 h)
      refine .inr ⟨?_, by simp [ZSet.add, hlookup, hnear'], ?_⟩
      · intro old' h
        obtain rfl := Option.some.inj (hlookup.symm.trans h)
        exact not_lt.1 hnear
      · simp [ZSet.add, hlookup, hnear', ZSet.score, ZSet.put]

theorem score_add_ne {z : ZSet ℚ} {name name' : String} (h : name' ≠ name) (s : ℚ) :
    (z.add name s).2.score name' = z.score name' := by
  unfold ZSet.add
  split
  · rename_i old hlookup
    split
    · rfl
    · simp only [ZSet.score, remove_of_some hlookup, lookup_put_ne h, AList.lookup_erase_ne h]
  · simp only [ZSet.score, lookup_put_ne h]

/-- The score a name was last added with. -/
def lastScore (pairs : List (Entry ℚ)) (name : String) : Option ℚ :=
  (pairs.reverse.find? fun e => e.name = name).map Entry.score

theorem lastScore_concat (pairs : List (Entry ℚ)) (e : Entry ℚ) (name : String) :
    lastScore (pairs ++ [e]) name = if e.name = name then some e.score else lastScore pairs name := by
  unfold lastScore
  rw [List.reverse_concat, List.find?_cons]
  by_cases h : e.name = name <;> simp [h]

theorem addAll_concat (z : ZSet ℚ) (pairs : List (Entry ℚ)) (e : Entry ℚ) :
    addAll z (pairs ++ [e]) = ((addAll z pairs).add e.name e.score).2 := by
  rw [addAll, List.foldl_append]
  rfl

/-- **Run.** A name has a score once it has been added, and the stored one is close to the last one given. -/
theorem score_addAll (pairs : List (Entry ℚ)) (name : String) :
    ((addAll .new pairs).score name).isSome = (lastScore pairs name).isSome ∧
      ∀ stored last, (addAll .new pairs).score name = some stored → lastScore pairs name = some last →
        |stored - last| < epsilon := by
  -- the last addition decides, whatever was there before
  induction pairs using List.reverseRecOn with
  | nil => simp [addAll, ZSet.new, ZSet.score, lastScore]
  | append_singleton pairs e ih =>
    rw [lastScore_concat, addAll_concat]
    by_cases hname : e.name = name
    · subst hname
      rw [if_pos rfl]
      obtain ⟨old, hold, hnear, hadd⟩ | ⟨-, -, hscore⟩ := add_cases (addAll .new pairs) e.name e.score
      · rw [hadd, hold]
        refine ⟨rfl, ?_⟩
        intro stored last hstored hlast
        cases hstored
        cases hlast
        exact hnear
      · rw [hscore]
        refine ⟨rfl, ?_⟩
        intro stored last hstored hlast
        cases hstored
        cases hlast
        simp [epsilon]
    · rw [if_neg hname, score_add_ne (Ne.symm hname)]
      exact ih

/-- **`ZADD`.** In every set reached by additions: the score given is stored unless the one that is there is within
    `epsilon` of it; then the answer is `false` and nothing changes. So no stored score is ever further than `epsilon`
    from the one added last. -/
theorem add_within (pairs : List (Entry ℚ)) (name : String) (s : ℚ) :
    ((addAll .new pairs).add name s = (false, addAll .new pairs) ∧
        (∃ old, (addAll .new pairs).score name = some old ∧ |old - s| < epsilon) ∨
      ((addAll .new pairs).add name s).1 = true ∧ ((addAll .new pairs).add name s).2.score name = some s ∧
        ∀ old, (addAll .new pairs).score name = some old → epsilon ≤ |old - s|) ∧
    ∀ name', ((addAll .new pairs).score name').isSome = (lastScore pairs name').isSome ∧
      ∀ stored last, (addAll .new pairs).score name' = some stored → lastScore pairs name' = some last →
        |stored - last| < epsilon := by
  refine ⟨?_, score_addAll pairs⟩
  obtain ⟨old, hold, hnear, hadd⟩ | ⟨hfar, htrue, hscore⟩ := add_cases (addAll .new pairs) name s
  · exact .inl ⟨hadd, old, hold, hnear⟩
  · exact .inr ⟨htrue, hscore, hfar⟩

/-- `ZADD z 0 a` and then `ZADD z 1.1102230246251565e-16 a`. -/
theorem close_score_dropped : ¬ ∀ (pairs : List (Entry ℚ)) (name : String) (s : ℚ),
    ((addAll .new pairs).add name s).2.score name = some s ∧
      (((addAll .new pairs).add name s).1 = false → (addAll .new pairs).score name = some s) := by
  intro h
  have hs := (h [⟨"a", 0⟩] "a" (1 / 2 ^ 53)).1
  obtain ⟨old, hold, -, hadd⟩ | ⟨hfar, -, -⟩ := add_cases (addAll .new [⟨"a", 0⟩]) "a" (1 / 2 ^ 53)
  · rw [hadd] at hs
    have h0 : (addAll (.new : ZSet ℚ) [⟨"a", 0⟩]).score "a" = some 0 := rfl
    rw [h0] at hs
    norm_num at hs
  · have := hfar 0 rfl
    norm_num [epsilon, abs_of_pos] at this

end RedisOps.Zset
