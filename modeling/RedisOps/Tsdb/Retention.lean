import RedisOps.Lib.Steps
import RedisOps.Tsdb.Query

/-!
# Retention

| here | there |
| --- | --- |
| `setRetention` | `TimeSeriesDB::set_retention` (`redisdb/src/tsdb/series.rs:139-146`) |
| `SeriesCall` | a call of `add` or `set_retention` |

A policy has two limits, and `add` looks at one of them: it drops what is older than `max_age_secs`, counted back from the
point that comes in, and never counts the points against `max_points`. `retention_enforced_iff` is the condition under which
the policy is kept all the same.
-/

namespace RedisOps.Tsdb

open Lib

section Policy
variable {F : Type}

/-- The largest timestamp. -/
def newest (points : List (DataPoint F)) : Nat := (points.map fun p => p.timestamp.toNat).foldr max 0

theorem newest_le_iff {points : List (DataPoint F)} {n : Nat} :
    newest points ≤ n ↔ ∀ p ∈ points, p.timestamp.toNat ≤ n := by
  induction points with
  | nil => simp [newest]
  | cons p points ih =>
    have hcons : newest (p :: points) = max p.timestamp.toNat (newest points) := rfl
    rw [hcons, max_le_iff, ih, List.forall_mem_cons]

/-- What the policy promises of the stored points. -/
structure RetentionPolicy.Holds (policy : RetentionPolicy) (points : List (DataPoint F)) : Prop where
  age : ∀ p ∈ points, (newest points : Int) - policy.maxAgeSecs.toNat * 1000 ≤ p.timestamp.toNat
  count : points.length ≤ policy.maxPoints.toNat

/-- With the new point, nothing that is inside the age counted back from it is outside the age counted back from the newest
    point, and not too many points are inside. The age in milliseconds is a `u64` when it comes to counting. -/
def RetentionPolicy.Fits (policy : RetentionPolicy) (points : List (DataPoint F)) (point : DataPoint F) : Prop :=
  (∀ p ∈ points ++ [point], point.timestamp.toNat ≤ p.timestamp.toNat + policy.maxAgeSecs.toNat * 1000 →
    newest (points ++ [point]) ≤ p.timestamp.toNat + policy.maxAgeSecs.toNat * 1000) ∧
  ((points ++ [point]).countP fun p =>
    point.timestamp.toNat ≤ p.timestamp.toNat + policy.maxAgeSecs.toNat * 1000 % 2 ^ 64) ≤ policy.maxPoints.toNat

/-- The cutoff test of `add`, without subtraction. -/
theorem cutoff_le_iff (age timestamp t : UInt64) :
    saturatingSub timestamp (age * 1000) ≤ t ↔ timestamp.toNat ≤ t.toNat + age.toNat * 1000 % 2 ^ 64 := by
  have hmul : (age * 1000).toNat = age.toNat * 1000 % 2 ^ 64 := UInt64.toNat_mul age 1000
  unfold saturatingSub
  split
  · rename_i hle
    rw [UInt64.le_iff_toNat_le, UInt64.toNat_sub_of_le _ _ hle, ← hmul]
    omega
  · rename_i hlt
    rw [UInt64.le_iff_toNat_le, hmul] at hlt
    rw [UInt64.le_iff_toNat_le, UInt64.toNat_zero]
    omega

theorem mem_push {s : Series F} {policy : RetentionPolicy} {point p : DataPoint F} (h : s.retention = some policy) :
    p ∈ (push s point).points ↔ p ∈ s.points ++ [point] ∧
      point.timestamp.toNat ≤ p.timestamp.toNat + policy.maxAgeSecs.toNat * 1000 % 2 ^ 64 := by
  unfold push applyRetention
  simp only [h, List.mem_filter, List.mem_mergeSort, decide_eq_true_eq, cutoff_le_iff]

theorem length_push {s : Series F} {policy : RetentionPolicy} {point : DataPoint F} (h : s.retention = some policy) :
    (push s point).points.length = (s.points ++ [point]).countP fun p =>
      point.timestamp.toNat ≤ p.timestamp.toNat + policy.maxAgeSecs.toNat * 1000 % 2 ^ 64 := by
  unfold push applyRetention
  simp only [h, ← List.countP_eq_length_filter, cutoff_le_iff]
  exact (List.mergeSort_perm _ _).countP_eq _

/-- **Step lemma.** -/
theorem push_holds_iff {s : Series F} {policy : RetentionPolicy} (point : DataPoint F) (h : s.retention = some policy) :
    policy.Holds (push s point).points ↔ policy.Fits s.points point := by
  have hage : (∀ p ∈ (push s point).points,
      (newest (push s point).points : Int) - policy.maxAgeSecs.toNat * 1000 ≤ p.timestamp.toNat) ↔
      ∀ p ∈ s.points ++ [point], point.timestamp.toNat ≤ p.timestamp.toNat + policy.maxAgeSecs.toNat * 1000 →
        newest (s.points ++ [point]) ≤ p.timestamp.toNat + policy.maxAgeSecs.toNat * 1000 := by
    have hmod := Nat.mod_le (policy.maxAgeSecs.toNat * 1000) (2 ^ 64)
    constructor
    · intro hkept p hp hle
      rw [newest_le_iff]
      intro q hq
      have hsmall := q.timestamp.toNat_lt
      by_cases hbig : 2 ^ 64 ≤ policy.maxAgeSecs.toNat * 1000
      · omega
      · rw [Nat.mod_eq_of_lt (not_le.1 hbig)] at *
        by_cases hqkept : point.timestamp.toNat ≤ q.timestamp.toNat + policy.maxAgeSecs.toNat * 1000
        · have hmemp : p ∈ (push s point).points := (mem_push h).2 ⟨hp, by rwa [Nat.mod_eq_of_lt (not_le.1 hbig)]⟩
          have hmemq : q ∈ (push s point).points := (mem_push h).2 ⟨hq, by rwa [Nat.mod_eq_of_lt (not_le.1 hbig)]⟩
          have hnewest := newest_le_iff.1 le_rfl q hmemq
          have hp' := hkept p hmemp
          omega
        · omega
    · intro hfits p hp
      obtain ⟨hmem, hle⟩ := (mem_push h).1 hp
      have hnewest := newest_le_iff.1 (hfits p hmem (by omega))
      have hkept : newest (push s point).points ≤ p.timestamp.toNat + policy.maxAgeSecs.toNat * 1000 := by
        rw [newest_le_iff]
        intro q hq
        exact hnewest q ((mem_push h).1 hq).1
      omega
  constructor
  · rintro ⟨hold, hcount⟩
    rw [length_push h] at hcount
    exact ⟨hage.1 hold, hcount⟩
  · rintro ⟨hfits, hcount⟩
    rw [← length_push h] at hcount
    exact ⟨hage.2 hfits, hcount⟩

/-- A point that is the newest one, of a series in time: the age looks after itself. -/
theorem RetentionPolicy.fits_of_newest {policy : RetentionPolicy} {points : List (DataPoint F)} {point : DataPoint F}
    (hnewest : newest points ≤ point.timestamp.toNat) (hcount : points.length < policy.maxPoints.toNat) :
    policy.Fits points point := by
  refine ⟨?_, ?_⟩
  · intro p hp hle
    rw [newest_le_iff]
    intro q hq
    rcases List.mem_append.1 hq with hq | hq
    · exact (newest_le_iff.1 hnewest q hq).trans hle
    · rw [List.mem_singleton] at hq
      rwa [hq]
  · calc _ ≤ (points ++ [point]).length := List.countP_le_length
      _ ≤ policy.maxPoints.toNat := by simpa using hcount

end Policy

/-! ## Runs -/

inductive SeriesCall (F : Type) where
  | add (name : String) (point : DataPoint F)
  | setRetention (name : String) (policy : RetentionPolicy)

section Runs
variable {σ F : Type} (S : Storage σ) (serde : Serde F)

def setRetention (db : TimeSeriesDB σ F) (name : String) (policy : RetentionPolicy) :
    Except String Unit × TimeSeriesDB σ F :=
  match db.series.lookup name with
  | none => (.error (notFound name), db)
  | some s => (.ok (), { db with series := db.series.insert name { s with retention := some policy } })

/-- Errors leave the caller where it is. -/
def runCall (db : TimeSeriesDB σ F) : SeriesCall F → Option (TimeSeriesDB σ F)
  | .add name point => some (add S serde db name point).2
  | .setRetention name policy => some (setRetention db name policy).2

/-- After an `add` to a series with a policy the policy holds. -/
def Enforced (calls : List (SeriesCall F)) (db : TimeSeriesDB σ F) : Prop :=
  ∀ name point s policy, calls.getLast? = some (.add name point) → db.series.lookup name = some s →
    s.retention = some policy → policy.Holds s.points

/-- The new point fits into the series and its policy. -/
def SeriesCall.Fits (db : TimeSeriesDB σ F) : SeriesCall F → Prop
  | .add name point => ∀ s policy, db.series.lookup name = some s → s.retention = some policy →
      policy.Fits s.points point
  | .setRetention _ _ => True

theorem retention_push {s : Series F} {point : DataPoint F} : (push s point).retention = s.retention := by
  unfold push applyRetention
  dsimp only
  split <;> rfl

theorem enforced_add_iff {calls : List (SeriesCall F)} {db : TimeSeriesDB σ F} {name : String} {point : DataPoint F} :
    Enforced (calls ++ [.add name point]) (add S serde db name point).2 ↔ (SeriesCall.add name point).Fits db := by
  have hlast : (calls ++ [SeriesCall.add name point]).getLast? = some (.add name point) := List.getLast?_concat
  constructor
  · intro h s policy hs hpolicy
    have hof : seriesOf db name = s := by
      unfold seriesOf
      rw [hs]
      rfl
    refine (push_holds_iff point hpolicy).1 (h name point _ policy hlast ?_ ?_)
    · rw [lookup_add_self, hof]
    · rw [retention_push, hpolicy]
  · intro h name' point' s policy hcall hs hpolicy
    rw [hlast] at hcall
    cases hcall
    rw [lookup_add_self, Option.some.injEq] at hs
    subst hs
    rw [retention_push] at hpolicy
    refine (push_holds_iff point hpolicy).2 (h _ policy ?_ hpolicy)
    unfold seriesOf at hpolicy ⊢
    cases hlookup : db.series.lookup name with
    | none =>
      rw [hlookup] at hpolicy
      cases hpolicy
    | some s => rfl

theorem runAll_run (calls : List (SeriesCall F)) (db : TimeSeriesDB σ F) :
    ∃ db', runAll (runCall S serde) db calls = some db' := by
  induction calls generalizing db with
  | nil => exact ⟨db, rfl⟩
  | cons call calls ih =>
    cases call with
    | add name point => exact ih _
    | setRetention name policy => exact ih _

/-- **Retention.** In a run of `add` and `set_retention` calls the policy holds after every `add` exactly when every point
    that is added fits. -/
theorem retention_enforced_iff (db : TimeSeriesDB σ F) (calls : List (SeriesCall F)) :
    Always (runCall S serde) db calls Enforced ↔
      Each (runCall S serde) db calls SeriesCall.Fits := by
  obtain ⟨final, hrun⟩ := runAll_run S serde calls db
  refine always_iff_each (fun _ => True) (fun _ _ _ _ _ => trivial) ?_ trivial ?_ hrun
  · intro pre db call db' _ _ hcall
    cases call with
    | add name point =>
      cases hcall
      exact enforced_add_iff S serde
    | setRetention name policy =>
      refine iff_of_true ?_ trivial
      intro name' point s policy' hlast
      rw [List.getLast?_concat] at hlast
      cases hlast
  · intro name point s policy hlast
    cases hlast

end Runs

/-! ## One point too many -/

/-- Two points, and a policy that keeps one. -/
def cpuCalls : List (SeriesCall Nat) :=
  [.add "cpu" cpuPoint, .setRetention "cpu" ⟨60, 1⟩, .add "cpu" ⟨2, 3, ∅⟩]

theorem max_points_ignored : ∃ serde : Serde Nat, serde.toVec [cpuPoint] = some cpuJson ∧
    ¬Always (runCall mapStorage serde) (.new ∅) cpuCalls Enforced := by
  obtain ⟨serde, -, hjson⟩ := exists_serde
  refine ⟨serde, hjson, fun halways => ?_⟩
  have hpush : push (seriesOf (.new ∅ : TimeSeriesDB (AList fun _ : Bytes => Bytes) Nat) "cpu") cpuPoint =
      ⟨"cpu", [cpuPoint], none⟩ := by
    rw [push_of_no_retention rfl]
    simp [seriesOf, TimeSeriesDB.new, sortByTime]
  obtain ⟨db, hdb, hseries⟩ : ∃ db, runAll (runCall mapStorage serde) (.new ∅) [.add "cpu" cpuPoint, .setRetention "cpu" ⟨60, 1⟩] =
      some db ∧ seriesOf db "cpu" = ⟨"cpu", [cpuPoint], some ⟨60, 1⟩⟩ := by
    refine ⟨_, rfl, ?_⟩
    unfold setRetention seriesOf
    rw [lookup_add_self, hpush]
    simp
  have hrun : runAll (runCall mapStorage serde) (.new ∅) cpuCalls = some (add mapStorage serde db "cpu" ⟨2, 3, ∅⟩).2 := by
    have hsplit : cpuCalls = [.add "cpu" cpuPoint, .setRetention "cpu" ⟨60, 1⟩] ++ [.add "cpu" ⟨2, 3, ∅⟩] := rfl
    rw [hsplit, runAll_concat, hdb]
    rfl
  have henforced := halways cpuCalls _ List.prefix_rfl hrun "cpu" ⟨2, 3, ∅⟩ _ ⟨60, 1⟩ rfl lookup_add_self
    (by rw [retention_push, hseries])
  have hcount := henforced.count
  rw [length_push (by rw [hseries]), hseries] at hcount
  exact absurd hcount (by decide)

end RedisOps.Tsdb
