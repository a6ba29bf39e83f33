import RedisOps.Lib.Search
import RedisOps.Lib.Bytes
import Mathlib.Data.List.AList
import Mathlib.Data.List.Lex
import Mathlib.Data.Char

/-!
# Sorted sets (`redisdb/src/zset/mod.rs`)

A `ZSet` keeps its members twice: `byName` maps a name to its score, `sorted` lists the entries by
(score, name). Both `add` and `remove` look positions up with `binary_search_by` and a comparator that
answers `Less` or `Greater` only.

Scores are `f64` in the source. The model takes any type with the three comparisons the code makes
(`Score`); `ExactScore` says that they are those of exact, totally ordered values.
-/

namespace RedisOps.Zset

open Lib

/-- The comparisons `zset/mod.rs` makes on scores. -/
class Score (F : Type) where
  /-- `a < b` -/
  lt : F → F → Bool
  /-- `a != b` -/
  ne : F → F → Bool
  /-- `(a - b).abs() < f64::EPSILON` -/
  nearly : F → F → Bool

/-- Scores without NaN, infinities or rounding. -/
class ExactScore (F : Type) [Score F] [LinearOrder F] : Prop where
  lt_iff : ∀ a b : F, Score.lt a b = true ↔ a < b
  ne_iff : ∀ a b : F, Score.ne a b = true ↔ a ≠ b
  nearly_self : ∀ a : F, Score.nearly a a = true

instance : Score ℚ where
  lt a b := decide (a < b)
  ne a b := decide (a ≠ b)
  nearly a b := decide (|a - b| < 1 / 2 ^ 52)

instance : ExactScore ℚ where
  lt_iff a b := by simp [Score.lt]
  ne_iff a b := by simp [Score.ne]
  nearly_self a := by simp [Score.nearly]

structure Entry (F : Type) where
  name : String
  score : F
  deriving DecidableEq

structure ZSet (F : Type) where
  byName : AList (fun _ : String => F)
  sorted : List (Entry F)

variable {F : Type} [Score F]

/-- `less` (`zset/mod.rs:7-12`). Rust compares strings byte by byte, which for UTF-8 is the order of the
    characters. -/
def less (a b : Entry F) : Bool :=
  if Score.ne a.score b.score then Score.lt a.score b.score else decide (a.name.toList < b.name.toList)

/-- The closure every search passes: never `Equal`. -/
def probe (key e : Entry F) : Ordering := if less e key then .lt else .gt

def ZSet.new : ZSet F := ⟨∅, []⟩

/-- `Ok(i) | Err(i) => i`. -/
def position (sorted : List (Entry F)) (key : Entry F) : Nat :=
  match binarySearchBy sorted (probe key) with
  | .ok i => i
  | .error i => i

/-- `ZSet::remove` (`:53-75`). -/
def ZSet.remove (z : ZSet F) (name : String) : Bool × ZSet F :=
  match z.byName.lookup name with
  | some score =>
    let byName := z.byName.erase name
    let sorted := match binarySearchBy z.sorted (probe ⟨name, score⟩) with
      | .ok i => if z.sorted[i]?.map Entry.name = some name then z.sorted.eraseIdx i else z.sorted
      | .error _ => z.sorted
    (true, ⟨byName, sorted⟩)
  | none => (false, z)

/-- The second half of `ZSet::add` (`:38-50`): both indexes get the member. -/
def ZSet.put (z : ZSet F) (name : String) (score : F) : ZSet F :=
  let e : Entry F := ⟨name, score⟩
  ⟨z.byName.insert name score, z.sorted.insertIdx (position z.sorted e) e⟩

/-- `ZSet::add` (`:31-51`). -/
def ZSet.add (z : ZSet F) (name : String) (score : F) : Bool × ZSet F :=
  match z.byName.lookup name with
  | some old =>
    if Score.nearly old score then (false, z) else (true, (z.remove name).2.put name score)
  | none => (true, z.put name score)

/-- `ZSet::score` (`:77-79`). -/
def ZSet.score (z : ZSet F) (name : String) : Option F := z.byName.lookup name

/-- `usize::saturating_add_signed` on a 64-bit host. -/
def saturatingAddSigned (n : Nat) (k : Int64) : Nat := (max 0 (min (2 ^ 64 - 1) (n + k.toInt))).toNat

/-- `ZSet::query` (`:81-104`), `usize` additions wrapping as in the release profile. -/
def ZSet.query (z : ZSet F) (minScore : F) (minName : String) (offset limit : Int64) : List (Entry F) :=
  if limit ≤ 0 then [] else
  let pos := saturatingAddSigned (position z.sorted ⟨minName, minScore⟩) offset
  let last := min ((pos + limit.toInt.toNat) % 2 ^ 64) z.sorted.length
  if pos ≥ last then [] else slice z.sorted pos (last - pos)

/-! ## Searching -/

theorem probe_ne_eq (key e : Entry F) : probe key e ≠ .eq := by
  unfold probe; split <;> simp

/-- The comparator never answers `Equal`, so the search in `remove` never finds the entry: only
    `byName` changes. -/
theorem remove_of_some {z : ZSet F} {n : String} {s : F} (h : z.byName.lookup n = some s) :
    z.remove n = (true, ⟨z.byName.erase n, z.sorted⟩) := by
  obtain ⟨i, hi⟩ := binarySearchBy_of_ne_eq z.sorted (probe_ne_eq ⟨n, s⟩)
  simp [ZSet.remove, h, hi]

theorem remove_of_none {z : ZSet F} {n : String} (h : z.byName.lookup n = none) :
    z.remove n = (false, z) := by
  simp [ZSet.remove, h]

theorem mem_query {z : ZSet F} {ms : F} {mn : String} {off lim : Int64} {e : Entry F}
    (h : e ∈ z.query ms mn off lim) : e ∈ z.sorted := by
  unfold ZSet.query at h
  split at h
  · simp at h
  · simp only at h
    split at h
    · simp at h
    · exact List.mem_of_mem_drop (List.mem_of_mem_take h)

theorem query_sublist (z : ZSet F) (ms : F) (mn : String) (off lim : Int64) :
    (z.query ms mn off lim).Sublist z.sorted := by
  unfold ZSet.query
  split
  · exact List.nil_sublist _
  · simp only
    split
    · exact List.nil_sublist _
    · exact (List.take_sublist _ _).trans (List.drop_sublist _ _)

section Exact
variable [LinearOrder F] [ExactScore F]

theorem less_iff {a b : Entry F} :
    less a b = true ↔ a.score < b.score ∨ (a.score = b.score ∧ a.name.toList < b.name.toList) := by
  unfold less
  by_cases h : a.score = b.score
  · have hn : Score.ne a.score b.score = false := by
      rw [Bool.eq_false_iff, ne_eq, ExactScore.ne_iff]; simpa using h
    rw [hn, h]
    simp
  · have hn : Score.ne a.score b.score = true := (ExactScore.ne_iff _ _).2 h
    simp [h, hn, ExactScore.lt_iff]

theorem less_irrefl (a : Entry F) : less a a = false := by
  rw [Bool.eq_false_iff, ne_eq, less_iff]; simp

theorem less_trans {a b c : Entry F} (h1 : less a b = true) (h2 : less b c = true) :
    less a c = true := by
  rw [less_iff] at *
  rcases h1 with h1 | ⟨h1, h1'⟩ <;> rcases h2 with h2 | ⟨h2, h2'⟩
  · exact Or.inl (h1.trans h2)
  · exact Or.inl (h2 ▸ h1)
  · exact Or.inl (h1 ▸ h2)
  · exact Or.inr ⟨h1.trans h2, h1'.trans h2'⟩

theorem less_total {a b : Entry F} (h : a ≠ b) : less a b = true ∨ less b a = true := by
  rw [less_iff, less_iff]
  rcases lt_trichotomy a.score b.score with hs | hs | hs
  · exact Or.inl (Or.inl hs)
  · rcases lt_trichotomy a.name.toList b.name.toList with hn | hn | hn
    · exact Or.inl (Or.inr ⟨hs, hn⟩)
    · have hname : a.name = b.name := String.toList_inj.1 hn
      exact absurd (by cases a; cases b; simp_all) h
    · exact Or.inr (Or.inr ⟨hs.symm, hn⟩)
  · exact Or.inr (Or.inl hs)

/-- A sorted vector splits at a key: the entries below it come first. -/
theorem sorted_split {sorted : List (Entry F)} (h : sorted.Pairwise (less · · = true)) (key : Entry F) :
    ∃ A B, sorted = A ++ B ∧ (∀ a ∈ A, less a key = true) ∧ ∀ b ∈ B, less b key = false := by
  induction sorted with
  | nil => exact ⟨[], [], by simp⟩
  | cons x xs ih =>
    obtain ⟨hx, hxs⟩ := List.pairwise_cons.1 h
    cases hk : less x key with
    | true =>
      obtain ⟨A, B, rfl, hA, hB⟩ := ih hxs
      exact ⟨x :: A, B, rfl, by simpa [hk] using hA, hB⟩
    | false =>
      refine ⟨[], x :: xs, rfl, by simp, ?_⟩
      intro b hb
      rcases List.mem_cons.1 hb with rfl | hb
      · exact hk
      · by_contra hc
        rw [less_trans (hx b hb) (by simpa using hc)] at hk
        exact absurd hk (by simp)

omit [LinearOrder F] [ExactScore F] in
/-- The position the search finds is where the vector splits. -/
theorem position_split {A B : List (Entry F)} {key : Entry F} (hA : ∀ a ∈ A, less a key = true)
    (hB : ∀ b ∈ B, less b key = false) : position (A ++ B) key = A.length := by
  have hp : binarySearchBy (A ++ B) (probe key) = .error A.length := by
    refine binarySearchBy_partition (by simp) (fun i hi hip => ?_) (fun i hi hpi => ?_)
    · rw [List.getElem_append_left hip]
      simp [probe, hA _ (List.getElem_mem hip)]
    · rw [List.getElem_append_right hpi]
      simp [probe, hB _ (List.getElem_mem _)]
  simp [position, hp]

end Exact

end RedisOps.Zset
