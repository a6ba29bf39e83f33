import RedisOps.Tsdb.Query

/-!
# A failed add

`add` (`redisdb/src/tsdb/series.rs:58-94`) changes the series in memory and then writes it to the storage; when the write fails
it answers the error and leaves the series as it has made it. The readers look at the memory only, so they always show that:
retention drops what is older than the new point allows, never a point of the same time.
-/

namespace RedisOps.Tsdb

section Failure
variable {σ F : Type}

/-- The readers answer the same, for every series. -/
structure SameAnswers [Arith F] (before after : TimeSeriesDB σ F) : Prop where
  list : ∀ name, name ∈ listSeries after ↔ name ∈ listSeries before
  count : ∀ name, pointCount after name = pointCount before name
  query : ∀ name range aggregation, query after name range aggregation = query before name range aggregation

theorem saturatingSub_le (a b : UInt64) : saturatingSub a b ≤ a := by
  unfold saturatingSub
  split
  · rename_i hle
    rw [UInt64.le_iff_toNat_le, UInt64.toNat_sub_of_le _ _ hle]
    omega
  · exact UInt64.zero_le

theorem query_points [Arith F] {db : TimeSeriesDB σ F} {name : String} {range : TimeRange} {aggregation : Aggregation}
    {result : QueryResult F} (h : query db name range aggregation = .ok result) :
    result.points =
      (storedPoints db name).filter fun p => range.start ≤ p.timestamp ∧ p.timestamp ≤ range.stop := by
  unfold query at h
  unfold storedPoints
  cases hlookup : db.series.lookup name with
  | none =>
    rw [hlookup] at h
    cases h
  | some s =>
    rw [hlookup] at h
    cases h
    rfl

/-- Whatever the retention, one more point of the time of the new one. -/
theorem countP_push (s : Series F) (point : DataPoint F) :
    ((push s point).points.countP fun p => point.timestamp ≤ p.timestamp ∧ p.timestamp ≤ point.timestamp) =
      (s.points.countP fun p => point.timestamp ≤ p.timestamp ∧ p.timestamp ≤ point.timestamp) + 1 := by
  have hsorted : ((sortByTime (s.points ++ [point])).countP fun p =>
      point.timestamp ≤ p.timestamp ∧ p.timestamp ≤ point.timestamp) =
      (s.points.countP fun p => point.timestamp ≤ p.timestamp ∧ p.timestamp ≤ point.timestamp) + 1 := by
    rw [(stablySorted_sortByTime (s.points ++ [point])).perm.countP_eq]
    simp [List.countP_append]
  rw [← hsorted]
  unfold push applyRetention
  cases hretention : s.retention with
  | none => rfl
  | some policy =>
    simp only [List.countP_filter]
    apply List.countP_congr
    intro p _
    simp only [Bool.decide_and, Bool.and_eq_true, decide_eq_true_eq, and_iff_left_iff_imp]
    intro htime
    exact UInt64.le_trans (saturatingSub_le _ _) htime.1

variable (S : Storage σ) (serde : Serde F)

/-- **A failed add is seen.** When the write fails `add` answers the error, and a query for the time of the point answers
    something else than before. -/
theorem failed_add_seen [Arith F] (db : TimeSeriesDB σ F) (name : String) (point : DataPoint F) {err : String}
    (hput : (S.put db.storage (metaKey name) ((serde.toVec (push (seriesOf db name) point).points).getD [])).1 = .error err) :
    (add S serde db name point).1 = .error err ∧ ¬SameAnswers db (add S serde db name point).2 := by
  refine ⟨hput, fun hsame => ?_⟩
  · let range : TimeRange := ⟨point.timestamp, point.timestamp⟩
    obtain ⟨after, hafter⟩ : ∃ after, query (add S serde db name point).2 name range .last = .ok after := by
      unfold query
      rw [lookup_add_self]
      exact ⟨_, rfl⟩
    have hbefore : query db name range .last = .ok after := by
      rw [← hsame.query, hafter]
    have hpoints : ((push (seriesOf db name) point).points.countP fun p =>
        point.timestamp ≤ p.timestamp ∧ p.timestamp ≤ point.timestamp) =
        ((seriesOf db name).points.countP fun p => point.timestamp ≤ p.timestamp ∧ p.timestamp ≤ point.timestamp) := by
      have hstored : storedPoints (add S serde db name point).2 name = (push (seriesOf db name) point).points := by
        unfold storedPoints
        rw [lookup_add_self]
        rfl
      have heq := (query_points hafter).symm.trans (query_points hbefore)
      rw [hstored, ← seriesOf_points] at heq
      rw [List.countP_eq_length_filter, List.countP_eq_length_filter]
      exact congrArg List.length heq
    rw [countP_push] at hpoints
    omega

end Failure

/-! ## A full disk -/

/-- A storage that refuses every write and holds nothing. -/
def fullStorage : Storage Unit where
  put _ _ _ := (.error "No space left on device (os error 28)", ())
  scan _ _ _ := .ok []

theorem failed_add_seen_full : ∃ serde : Serde Nat, serde.toVec [cpuPoint] = some cpuJson ∧ ∀ _ : Arith Nat,
    (add fullStorage serde (.new ()) "cpu" cpuPoint).1 = .error "No space left on device (os error 28)" ∧
    ¬SameAnswers (.new ()) (add fullStorage serde (.new ()) "cpu" cpuPoint).2 := by
  obtain ⟨serde, -, hjson⟩ := exists_serde
  exact ⟨serde, hjson, fun _ => failed_add_seen fullStorage serde (.new ()) "cpu" cpuPoint rfl⟩

/-- The write fails, and there is a series with a point. -/
theorem failed_add_stays : ∃ serde : Serde Nat, serde.toVec [cpuPoint] = some cpuJson ∧
    (add fullStorage serde (.new ()) "cpu" cpuPoint).1 = .error "No space left on device (os error 28)" ∧
    listSeries (.new () : TimeSeriesDB Unit Nat) = [] ∧
    listSeries (add fullStorage serde (.new ()) "cpu" cpuPoint).2 = ["cpu"] ∧
    pointCount (.new () : TimeSeriesDB Unit Nat) "cpu" = 0 ∧
    pointCount (add fullStorage serde (.new ()) "cpu" cpuPoint).2 "cpu" = 1 := by
  obtain ⟨serde, -, hjson⟩ := exists_serde
  refine ⟨serde, hjson, rfl, rfl, rfl, rfl, ?_⟩
  unfold pointCount
  rw [lookup_add_self, push_of_no_retention rfl]
  simp [seriesOf, TimeSeriesDB.new, sortByTime]

end RedisOps.Tsdb
