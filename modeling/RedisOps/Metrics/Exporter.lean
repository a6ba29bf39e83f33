import RedisOps.Metrics.Labels

/-!
# The metrics exporter (`sandbox/src/metrics.cpp:18-77`)

| here | there |
| --- | --- |
| `Metric`, `MetricsExporter` | `sandbox/include/devops/metrics.hpp:11-35` |
| `counter`, `gauge`, `histogram` | `sandbox/src/metrics.cpp:18-31` |
| `grouped`, `groupLines`, `renderPrometheus` | `render_prometheus` (`:56-77`), line by line |

Every call is kept, and every call becomes a sample of its own: `samples_perm`. `samples_aggregated_iff`: so the samples are the
sums of the counters and the last values of the gauges exactly when no name is used twice with the same labels.

A value is an exact integer here; `display` is how a stream prints it as a `double`, on which nothing depends. That a stream
prints six digits only, so that a sum may be rounded in the text, is left out.
-/

namespace RedisOps.Metrics

open Lib

inductive MetricType | counter | gauge | histogram
  deriving DecidableEq, Repr

structure Metric where
  name : Bytes
  type : MetricType
  value : Int
  labels : LabelMap
  deriving DecidableEq

structure MetricsExporter where
  metrics : List Metric := []

namespace MetricsExporter
variable (exporter : MetricsExporter) (name : Bytes) (value : Int) (labels : LabelMap)

def counter : MetricsExporter := ⟨exporter.metrics ++ [⟨name, .counter, value, labels⟩]⟩

def gauge : MetricsExporter := ⟨exporter.metrics ++ [⟨name, .gauge, value, labels⟩]⟩

def histogram : MetricsExporter := ⟨exporter.metrics ++ [⟨name, .histogram, value, labels⟩]⟩

end MetricsExporter

/-! ## Rendering -/

def typeStr : MetricType → Bytes
  | .counter => ascii "counter"
  | .gauge => ascii "gauge"
  | .histogram => ascii "histogram"

/-- `grouped[m.name].push_back(&m)`, on a `std::map`. -/
def pushGroup : List (Bytes × List Metric) → Metric → List (Bytes × List Metric)
  | [], m => [(m.name, [m])]
  | (name, metrics) :: groups, m =>
    if m.name < name then (m.name, [m]) :: (name, metrics) :: groups
    else if m.name = name then (name, metrics ++ [m]) :: groups
    else (name, metrics) :: pushGroup groups m

def grouped (metrics : List Metric) : List (Bytes × List Metric) := metrics.foldl pushGroup []

inductive Line
  | help (name : Bytes)
  | type (name : Bytes) (t : MetricType)
  | sample (m : Metric)
  | blank

def Line.text (display : Int → Bytes) : Line → Bytes
  | .help name => ascii "# HELP " ++ name ++ ascii " redisops metric\n"
  | .type name t => ascii "# TYPE " ++ name ++ ascii " " ++ typeStr t ++ ascii "\n"
  | .sample m => m.name ++ renderLabels m.labels ++ ascii " " ++ display m.value ++ ascii "\n"
  | .blank => ascii "\n"

def groupLines (group : Bytes × List Metric) : List Line :=
  (match group.2 with
    | [] => []
    | m :: _ => [.help group.1, .type group.1 m.type]) ++ group.2.map .sample ++ [.blank]

def renderLines (exporter : MetricsExporter) : List Line := (grouped exporter.metrics).flatMap groupLines

def renderPrometheus (display : Int → Bytes) (exporter : MetricsExporter) : Bytes :=
  (renderLines exporter).flatMap (Line.text display)

/-! ## The samples -/

def Line.sample? : Line → Option Metric
  | .sample m => some m
  | _ => none

def samples (exporter : MetricsExporter) : List Metric := (renderLines exporter).filterMap Line.sample?

theorem samples_groupLines (group : Bytes × List Metric) : (groupLines group).filterMap Line.sample? = group.2 := by
  obtain ⟨name, metrics⟩ := group
  have hsamples : (metrics.map Line.sample).filterMap Line.sample? = metrics := by
    rw [List.filterMap_map]
    exact List.filterMap_some
  cases metrics with
  | nil => rfl
  | cons m metrics =>
    change ([Line.help name, Line.type name m.type] ++ (m :: metrics).map Line.sample ++ [Line.blank]).filterMap Line.sample? = _
    rw [List.filterMap_append, List.filterMap_append, hsamples]
    exact List.append_nil _

theorem samples_eq (exporter : MetricsExporter) : samples exporter = (grouped exporter.metrics).flatMap Prod.snd := by
  rw [samples, renderLines, List.filterMap_flatMap]
  congr 1
  funext group
  exact samples_groupLines group

theorem pushGroup_perm (m : Metric) (groups : List (Bytes × List Metric)) :
    ((pushGroup groups m).flatMap Prod.snd).Perm (groups.flatMap Prod.snd ++ [m]) := by
  induction groups with
  | nil => exact .refl _
  | cons group groups ih =>
    obtain ⟨name, metrics⟩ := group
    rw [pushGroup]
    split
    · exact @List.perm_append_comm _ [m] _
    · split
      · simp only [List.flatMap_cons, List.append_assoc]
        exact (List.perm_append_comm).append_left metrics
      · simp only [List.flatMap_cons, List.append_assoc]
        exact ih.append_left metrics

/-- Every call is a sample. -/
theorem samples_perm (exporter : MetricsExporter) : (samples exporter).Perm exporter.metrics := by
  rw [samples_eq, grouped]
  induction exporter.metrics using List.reverseRecOn with
  | nil => exact .refl _
  | append_singleton metrics m ih =>
    rw [List.foldl_concat]
    exact (pushGroup_perm m _).trans (ih.append_right [m])

/-! ## Aggregation -/

/-- The calls that are aggregated. -/
inductive MetricCall
  | counter (name : Bytes) (value : Int) (labels : LabelMap)
  | gauge (name : Bytes) (value : Int) (labels : LabelMap)

def MetricCall.perform (exporter : MetricsExporter) : MetricCall → MetricsExporter
  | .counter name value labels => exporter.counter name value labels
  | .gauge name value labels => exporter.gauge name value labels

def exportAll (calls : List MetricCall) : MetricsExporter := calls.foldl MetricCall.perform {}

def MetricCall.type : MetricCall → MetricType
  | .counter .. => .counter
  | .gauge .. => .gauge

def MetricCall.value : MetricCall → Int
  | .counter _ value _ => value
  | .gauge _ value _ => value

/-- A time series: a name and a set of labels. -/
abbrev Series := Bytes × LabelMap

def MetricCall.series : MetricCall → Series
  | .counter name _ labels => (name, labels)
  | .gauge name _ labels => (name, labels)

def Metric.series (m : Metric) : Series := (m.name, m.labels)

/-- The values given for a series by the calls of one type, in their order. -/
def given (calls : List MetricCall) (type : MetricType) (s : Series) : List Int :=
  (calls.filter fun c => c.type = type ∧ c.series = s).map MetricCall.value

/-- At most one sample of a series: the sum of a counter, the last value of a gauge. -/
def Aggregated (calls : List MetricCall) (samples : List Metric) : Prop :=
  (∀ s, (samples.map Metric.series).count s ≤ 1) ∧
    ∀ m ∈ samples, (m.type = .counter → m.value = (given calls .counter m.series).sum) ∧
      (m.type = .gauge → some m.value = (given calls .gauge m.series).getLast?)

def MetricCall.metric (c : MetricCall) : Metric := ⟨c.series.1, c.type, c.value, c.series.2⟩

theorem exportAll_metrics (calls : List MetricCall) : (exportAll calls).metrics = calls.map MetricCall.metric := by
  rw [exportAll]
  induction calls using List.reverseRecOn with
  | nil => rfl
  | append_singleton calls c ih =>
    rw [List.foldl_concat, List.map_append, ← ih]
    cases c <;> rfl

/-- In a list without repetitions a series is given once. -/
theorem given_of_nodup {calls : List MetricCall} (h : (calls.map MetricCall.series).Nodup) {c : MetricCall} (hc : c ∈ calls) :
    given calls c.type c.series = [c.value] := by
  have hfilter : calls.filter (fun x => x.type = c.type ∧ x.series = c.series) = [c] := by
    induction calls with
    | nil => cases hc
    | cons x calls ih =>
      rw [List.map_cons, List.nodup_cons] at h
      obtain ⟨hx, hnodup⟩ := h
      rcases List.mem_cons.1 hc with rfl | hc
      · rw [List.filter_cons_of_pos (by simp), List.filter_eq_nil_iff.2]
        intro y hy hsame
        rw [decide_eq_true_eq] at hsame
        exact hx (List.mem_map.2 ⟨y, hy, hsame.2⟩)
      · have hne : x.series ≠ c.series := fun heq => hx (List.mem_map.2 ⟨c, hc, heq.symm⟩)
        rw [List.filter_cons_of_neg (by simp [hne]), ih hnodup hc]
  rw [given, hfilter]
  rfl

/-- **Exported metrics.** After any calls, each series has at most one sample, with the sum or the last value, exactly when no
    two calls are for the same series. It is about the values of the samples, not about their rounding in the text. -/
theorem samples_aggregated_iff (calls : List MetricCall) :
    Aggregated calls (samples (exportAll calls)) ↔ (calls.map MetricCall.series).Nodup := by
  have hperm := samples_perm (exportAll calls)
  rw [exportAll_metrics] at hperm
  have hseries : ((samples (exportAll calls)).map Metric.series).Perm (calls.map MetricCall.series) := by
    have hmap := hperm.map Metric.series
    rwa [List.map_map] at hmap
  constructor
  · rintro ⟨hone, -⟩
    rw [← hseries.nodup_iff, List.nodup_iff_count_le_one]
    exact hone
  · intro hnodup
    refine ⟨?_, ?_⟩
    · exact List.nodup_iff_count_le_one.1 (hseries.nodup_iff.2 hnodup)
    · intro m hm
      obtain ⟨c, hc, rfl⟩ := List.mem_map.1 (hperm.mem_iff.1 hm)
      have hgiven := given_of_nodup hnodup hc
      refine ⟨?_, ?_⟩
      · intro htype
        have htype' : c.type = .counter := htype
        rw [htype'] at hgiven
        change c.value = (given calls .counter c.series).sum
        rw [hgiven, List.sum_singleton]
      · intro htype
        have htype' : c.type = .gauge := htype
        rw [htype'] at hgiven
        change some c.value = (given calls .gauge c.series).getLast?
        rw [hgiven]
        rfl

/-- **Two jobs, two samples.** The worker counts each job with 1. -/
theorem two_jobs_two_samples :
    let started : MetricCall := .counter (ascii "sandbox.jobs_started_total") 1 (.single (ascii "target") (ascii "local"))
    ¬Aggregated [started, started] (samples (exportAll [started, started])) ∧
      renderPrometheus (fun value => toDecimal value.toNat) (exportAll [started, started]) =
        ascii "# HELP sandbox.jobs_started_total redisops metric\n" ++
        ascii "# TYPE sandbox.jobs_started_total counter\n" ++
        ascii "sandbox.jobs_started_total\x7btarget=\"local\"\x7d 1\n" ++
        ascii "sandbox.jobs_started_total\x7btarget=\"local\"\x7d 1\n\n" := by
  intro started
  refine ⟨?_, by decide +kernel⟩
  rintro ⟨hone, -⟩
  exact absurd (hone started.series) (by decide)

end RedisOps.Metrics
