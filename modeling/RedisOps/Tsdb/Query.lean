import RedisOps.Lib.StableSort
import RedisOps.Tsdb.Series

/-!
# Queries

| here | there |
| --- | --- |
| `TimeRange`, `Aggregation`, `QueryResult` | `redisdb/src/tsdb/query.rs:1-24` |
| `query`, `listSeries`, `pointCount` | `TimeSeriesDB::query`, `list_series`, `point_count` (`series.rs:96-137`, `:148-156`) |
| `Arith` | what `query` uses of `f64` |

`add` pushes a point and sorts; `query` filters. `query_addEach`: after any adds to any series, whatever the storage answered,
a series without retention holds the stable sort of its points, and a query reads exactly the range from it.
-/

namespace RedisOps.Tsdb

open Lib

class Arith (F : Type) where
  zero : F
  /-- `Iterator::sum` -/
  sum : List F → F
  div : F → F → F
  /-- `usize as f64` -/
  ofLen : Nat → F
  min : F → F → F
  max : F → F → F
  infinity : F
  negInfinity : F

/-- `stop` is `end` there. -/
structure TimeRange where
  start : UInt64
  stop : UInt64

inductive Aggregation where
  | sum | avg | min | max | count | last

structure QueryResult (F : Type) where
  name : String
  range : TimeRange
  aggregation : Aggregation
  value : F
  points : List (DataPoint F)

def Aggregation.eval {F : Type} [Arith F] (values : List F) : Aggregation → F
  | .sum => Arith.sum values
  | .avg => if values.isEmpty then Arith.zero else Arith.div (Arith.sum values) (Arith.ofLen values.length)
  | .min => values.foldl Arith.min Arith.infinity
  | .max => values.foldl Arith.max Arith.negInfinity
  | .count => Arith.ofLen values.length
  | .last => values.getLast?.getD Arith.zero

/-- `format!("series '{}' not found", name)` -/
def notFound (name : String) : String := "series '" ++ name ++ "' not found"

section Reads
variable {σ F : Type} (db : TimeSeriesDB σ F)

def query [Arith F] (name : String) (range : TimeRange) (aggregation : Aggregation) :
    Except String (QueryResult F) :=
  match db.series.lookup name with
  | none => .error (notFound name)
  | some s =>
    let points := s.points.filter fun p => range.start ≤ p.timestamp ∧ p.timestamp ≤ range.stop
    .ok ⟨name, range, aggregation, aggregation.eval (points.map (·.value)), points⟩

/-- In the order of the hash map, which nothing fixes. -/
def listSeries : List String := db.series.keys

def pointCount (name : String) : Nat := ((db.series.lookup name).map (·.points.length)).getD 0

end Reads

/-! ## What one add does to the series -/

section Add
variable {σ F : Type} {S : Storage σ} {serde : Serde F} {db : TimeSeriesDB σ F} {name name' : String}
  {point : DataPoint F} {s : Series F}

/-- The points of a series, none where there is no series. -/
def storedPoints (db : TimeSeriesDB σ F) (name : String) : List (DataPoint F) :=
  ((db.series.lookup name).map (·.points)).getD []

/-- The series `add` works on. -/
def seriesOf (db : TimeSeriesDB σ F) (name : String) : Series F := (db.series.lookup name).getD ⟨name, [], none⟩

theorem seriesOf_points : (seriesOf db name).points = storedPoints db name := by
  unfold seriesOf storedPoints
  cases db.series.lookup name <;> rfl

/-- In memory the point is added whether or not the storage takes it. -/
theorem add_series : (add S serde db name point).2.series = db.series.insert name (push (seriesOf db name) point) :=
  rfl

theorem lookup_add_self :
    (add S serde db name point).2.series.lookup name = some (push (seriesOf db name) point) := by
  rw [add_series, AList.lookup_insert]

theorem lookup_add_of_ne (h : name' ≠ name) :
    (add S serde db name point).2.series.lookup name' = db.series.lookup name' := by
  rw [add_series, AList.lookup_insert_ne h]

/-- `sort_by_key(|p| p.timestamp)` -/
def sortByTime (points : List (DataPoint F)) : List (DataPoint F) :=
  points.mergeSort fun p q => p.timestamp ≤ q.timestamp

theorem stablySorted_sortByTime (points : List (DataPoint F)) :
    StablySorted (fun p => p.timestamp.toNat) points (sortByTime points) := by
  have h : StablySorted (fun p : DataPoint F => p.timestamp.toNat) points _ := stablySorted_mergeSort points
  simp only [← UInt64.le_iff_toNat_le] at h
  exact h

theorem push_of_no_retention (h : s.retention = none) :
    push s point = { s with points := sortByTime (s.points ++ [point]) } := by
  unfold push applyRetention
  simp only [h]
  rfl

end Add

/-! ## Runs of adds -/

section Runs
variable {σ F : Type} (S : Storage σ) (serde : Serde F)

/-- Calls of `add`, one after another, whatever they return. -/
def addEach (db : TimeSeriesDB σ F) (adds : List (String × DataPoint F)) : TimeSeriesDB σ F :=
  adds.foldl (fun db a => (add S serde db a.1 a.2).2) db

/-- The points added to one series, in the order of the calls. -/
def pointsOf (name : String) (adds : List (String × DataPoint F)) : List (DataPoint F) :=
  (adds.filter fun a => a.1 = name).map (·.2)

theorem pointsOf_concat (name : String) (adds : List (String × DataPoint F)) (a : String × DataPoint F) :
    pointsOf name (adds ++ [a]) = pointsOf name adds ++ if a.1 = name then [a.2] else [] := by
  by_cases h : a.1 = name <;> simp [pointsOf, h]

/-- **Run lemma.** A series is there once a point has been added to it, and holds the stable sort of its points. -/
theorem lookup_addEach (storage : σ) (name : String) (adds : List (String × DataPoint F)) :
    (addEach S serde (.new storage) adds).series.lookup name =
      if pointsOf name adds = [] then none else some ⟨name, sortByTime (pointsOf name adds), none⟩ := by
  induction adds using List.reverseRecOn with
  | nil => rfl
  | append_singleton adds a ih =>
    obtain ⟨name', point⟩ := a
    simp only [addEach, List.foldl_append, List.foldl_cons, List.foldl_nil, pointsOf_concat]
    by_cases h : name' = name
    · subst h
      have hseries : seriesOf (addEach S serde (.new storage) adds) name' =
          ⟨name', sortByTime (pointsOf name' adds), none⟩ := by
        unfold seriesOf
        rw [ih]
        split
        · rename_i hnil
          simp [hnil, sortByTime]
        · rfl
      have hsorted : sortByTime (sortByTime (pointsOf name' adds) ++ [point]) =
          sortByTime (pointsOf name' adds ++ [point]) :=
        ((stablySorted_sortByTime _).concat (stablySorted_sortByTime _)).unique (stablySorted_sortByTime _)
      rw [lookup_add_self, ← addEach, hseries, push_of_no_retention rfl, hsorted]
      simp
    · rw [lookup_add_of_ne (Ne.symm h), ← addEach, ih]
      simp [h]

/-- **Queries.** After any adds to any series the points of a series are the stable sort of those added to it, and a query
    answers exactly those of its range in that order, `last` with the value of the last one. -/
theorem query_addEach [Arith F] (storage : σ) (adds : List (String × DataPoint F)) (name : String) :
    let db := addEach S serde (.new storage) adds
    StablySorted (fun p => p.timestamp.toNat) (pointsOf name adds) (storedPoints db name) ∧
    ∀ range aggregation,
      (pointsOf name adds = [] → query db name range aggregation = .error (notFound name)) ∧
      (pointsOf name adds ≠ [] → ∃ result, query db name range aggregation = .ok result ∧
        result.points = ((storedPoints db name).filter fun p => range.start ≤ p.timestamp ∧ p.timestamp ≤ range.stop) ∧
        (aggregation = .last → result.value = (result.points.getLast?.map (·.value)).getD Arith.zero)) := by
  intro db
  have hlookup := lookup_addEach S serde storage name adds
  by_cases hnil : pointsOf name adds = []
  · rw [if_pos hnil] at hlookup
    refine ⟨?_, fun range aggregation => ⟨fun _ => ?_, fun h => absurd hnil h⟩⟩
    · unfold storedPoints
      rw [hlookup, hnil]
      exact .nil
    · unfold query
      rw [hlookup]
  · rw [if_neg hnil] at hlookup
    have hstored : storedPoints db name = sortByTime (pointsOf name adds) := by
      unfold storedPoints
      rw [hlookup]
      rfl
    rw [hstored]
    refine ⟨stablySorted_sortByTime _, fun range aggregation => ⟨fun h => absurd h hnil, fun _ => ?_⟩⟩
    unfold query
    rw [hlookup]
    refine ⟨_, rfl, rfl, ?_⟩
    rintro rfl
    simp only [Aggregation.eval, List.getLast?_map]

end Runs

end RedisOps.Tsdb
