import RedisOps.Handler.Sandbox
import RedisOps.Lib.Digits
import RedisOps.Lib.Fields
import RedisOps.Store.ListSpec

/-!
# Metrics by name (`handler.rs:514-561`)

`metric record` stores time, name, value and labels with bars between them; `metric query` takes the newest records and keeps
those with the name between two bars somewhere. `contains_text_iff` says what that finds: the fields of the name in a row
among those of the stored name, the value and the labels but for the last. `metric_query_iff`: so only records of the name are
answered exactly when no other record is such.
-/

namespace RedisOps.Handler

open Lib Store Proto

variable {F : Type}

/-! ## Records -/

/-- `value` is the printed value, `labels` the labels with commas between them. -/
structure MetricRecord where
  ts : Nat
  name : String
  value : String
  labels : String

def MetricRecord.text (r : MetricRecord) : String :=
  toString r.ts ++ "|" ++ r.name ++ "|" ++ r.value ++ "|" ++ r.labels

/-- The record a request makes, when it has the arguments for it. -/
def recordOf (F : Type) [F64 F] (q : Request) : Option MetricRecord :=
  match q.args.tail with
  | name :: value :: labels =>
    (F64.parse (F := F) value).map fun value => ⟨q.ts, name, F64.display value, join "," labels⟩
  | _ => none

/-- The records of a run, newest first. -/
def recordsOf (F : Type) [F64 F] (cmds : List (Nat × Request)) : List MetricRecord :=
  (cmds.filterMap fun c => recordOf F c.2).reverse

/-- The fields of `name` are in a row among those of the record's name, its value and its labels, the last one aside. -/
def Mentions (name : String) (r : MetricRecord) : Prop :=
  fields name <:+: fields r.name ++ (fields r.value ++ (fields r.labels).dropLast)

/-- What the search for `|name|` finds. -/
theorem contains_text_iff (name : String) (r : MetricRecord) :
    contains r.text ("|" ++ name ++ "|") = true ↔ Mentions name r := by
  have hts : fields (toString r.ts) = [(toString r.ts).toList] :=
    List.splitOn_eq_singleton (not_mem_toString (by decide) r.ts)
  have hfields : fields r.text =
      (toString r.ts).toList :: (fields r.name ++ (fields r.value ++ fields r.labels)) := by
    rw [MetricRecord.text, fields_append, fields_append, fields_append, hts]
    simp
  have hne : fields r.labels ≠ [] := List.splitOn_ne_nil _ _
  rw [contains_bars_iff, hfields, List.tail_cons, List.dropLast_append_of_ne_nil (by simp [hne]),
    List.dropLast_append_of_ne_nil hne]
  exact Iff.rfl

/-! ## The commands -/

/-- The records `metric query` looks at. -/
def reach (limit : Int64) (records : List MetricRecord) : List MetricRecord :=
  if limit = Int64.minValue then [] else records.take (Store.norm records.length (limit - 1).toInt + 1).toNat

/-- The records it answers. -/
def returned (name : String) (limit : Int64) (records : List MetricRecord) : List MetricRecord :=
  (reach limit records).filter fun r => contains r.text ("|" ++ name ++ "|")

/-- No record of the metric within reach is missed. -/
theorem mem_returned_of_name {r : MetricRecord} {limit : Int64} {records : List MetricRecord}
    (h : r ∈ reach limit records) : r ∈ returned r.name limit records := by
  refine List.mem_filter.2 ⟨h, (contains_text_iff r.name r).2 ?_⟩
  exact (List.prefix_append _ _).isInfix

/-- A request for the records of a metric. -/
def AsksMetric (name : String) (limit : Int64) (q : Request) : Prop :=
  q.word = some .metricQuery ∧ ∃ more, q.args.tail = name :: more ∧ limitArg more.head? 100 = limit

section
variable [F64 F]

/-- **Step.** -/
theorem serve_metricRecord {q : Request} (hq : q.word = some .metricRecord) (now : Nat) {w : World F}
    (hs : ListOrNone w.store metricsKey) :
    listAt (serve now q w).2.store metricsKey =
        ((recordOf F q).map (·.text)).toList ++ listAt w.store metricsKey ∧
      ListOrNone (serve now q w).2.store metricsKey := by
  rw [serve_of_word hq]
  unfold recordOf
  split
  · rename_i name value labels hargs
    rw [hargs]
    cases hvalue : F64.parse (F := F) value with
    | none =>
      simp only [handle, metricRecord, parsed, hvalue]
      exact ⟨rfl, hs⟩
    | some v =>
      obtain ⟨hlist, hlist'⟩ := listAt_lpush hs
        (toString q.ts ++ "|" ++ name ++ "|" ++ F64.display v ++ "|" ++ join "," labels)
      have hframe : ∀ (s : Data F) (entry : String) (score : F),
          (zAdd s metricsTsKey entry score).2.lookup metricsKey = s.lookup metricsKey := by
        intro s entry score
        have hne : writeKey (.zAdd metricsTsKey entry score : Op F) ≠ some metricsKey := by
          intro h
          exact absurd (Option.some.inj h) (by decide)
        have hexec : exec 0 (.zAdd metricsTsKey entry score) ⟨s, {}⟩ = some (_, _) := rfl
        exact exec_frame hexec hne
      simp only [handle, metricRecord, parsed, hvalue, await_def, Prog.op_bind, Prog.ret_bind, Prog.pure_def, Prog.run, exec]
      obtain ⟨hsame, hsame'⟩ := listAt_congr (hframe _ _ _) hlist'
      exact ⟨hsame.trans hlist, hsame'⟩
  · rename_i hargs
    have hrefused : handle q.ts q.args.tail .metricRecord = (pure errArg : Cmd F Response) := by
      simp only [handle]
      unfold metricRecord
      split
      · rename_i name value labels heq
        exact absurd heq (hargs name value labels)
      · rfl
    rw [hrefused]
    exact ⟨rfl, hs⟩

/-- **Run.** -/
theorem listAt_metricRecords {cmds : List (Nat × Request)} (hcmds : ∀ c ∈ cmds, c.2.word = some .metricRecord)
    {w : World F} (hs : ListOrNone w.store metricsKey) :
    listAt (serveAll cmds w).2.store metricsKey =
        (recordsOf F cmds).map (·.text) ++ listAt w.store metricsKey ∧
      ListOrNone (serveAll cmds w).2.store metricsKey := by
  rw [recordsOf, List.map_reverse, List.map_filterMap]
  exact listAt_serveAll (fun now _ _ hq => serve_metricRecord hq now) hcmds hs

/-- The answer of `metric query`. With a limit of `i64::MIN` the last position wraps: the handler panics if there is a list. -/
theorem serve_asksMetric {name : String} {limit : Int64} {q : Request} (hq : AsksMetric name limit q) (now : Nat)
    {w : World F} (hs : ListOrNone w.store metricsKey) {records : List MetricRecord}
    (hlist : listAt w.store metricsKey = records.map (·.text)) (hlen : records.length < 2 ^ 63) :
    (limit = Int64.minValue ∧ (serve now q w).1 = none) ∨
      (serve now q w).1 = some (strs ((returned name limit records).map (·.text))) := by
  obtain ⟨hword, more, hargs, hmore⟩ := hq
  have hlen' : (listAt w.store metricsKey).length < 2 ^ 63 := by
    rw [hlist, List.length_map]
    exact hlen
  rw [serve_of_word hword, hargs]
  simp only [handle, metricQuery, hmore, await_def, Prog.op_bind, Prog.ret_bind, Prog.pure_def, Prog.run, exec]
  by_cases hmin : limit = Int64.minValue
  · subst hmin
    have hwrap : Int64.minValue - 1 = Int64.maxValue := by decide
    obtain ⟨hn, hl⟩ | ⟨exp, he⟩ := hs.cases
    · right
      simp [lrange, hn, returned, reach, metricFilter]
    · left
      have hnone : lrange w.store metricsKey 0 Int64.maxValue = none := by
        simp only [lrange, he]
        exact listRange_maxValue hlen' 0
      rw [hwrap, hnone]
      exact ⟨rfl, rfl⟩
  · right
    have hreach : (records.map (·.text)).take (Store.norm records.length (limit.toInt - 1) + 1).toNat =
        (reach limit records).map (·.text) := by
      rw [reach, if_neg hmin, (toInt_sub_one hmin).1, List.map_take]
    rw [lrange_head hs hlen' hmin, hlist, List.length_map, hreach]
    simp only [Option.map_some, metricFilter, List.filter_map, returned, Function.comp_def]

/-- **Metrics by name.** After any `metric record` commands, the records that `metric query` answers are all of the queried
    name exactly when no record within reach that has another name mentions it. -/
theorem metric_query_iff {w : World F} (hs : ListOrNone w.store metricsKey) (hempty : listAt w.store metricsKey = [])
    {cmds : List (Nat × Request)} (hcmds : ∀ c ∈ cmds, c.2.word = some .metricRecord) (hlen : cmds.length < 2 ^ 63)
    {name : String} {limit : Int64} {q : Request} (hq : AsksMetric name limit q) (now : Nat) :
    ((limit = Int64.minValue ∧ (serve now q (serveAll cmds w).2).1 = none) ∨
      (serve now q (serveAll cmds w).2).1 = some (strs ((returned name limit (recordsOf F cmds)).map (·.text)))) ∧
    ((∀ r ∈ returned name limit (recordsOf F cmds), r.name = name) ↔
      ∀ r ∈ reach limit (recordsOf F cmds), r.name ≠ name → ¬Mentions name r) := by
  obtain ⟨hlist, hs'⟩ := listAt_metricRecords hcmds hs
  rw [hempty, List.append_nil] at hlist
  have hcount : (recordsOf F cmds).length ≤ cmds.length := by
    rw [recordsOf, List.length_reverse]
    exact List.length_filterMap_le _ _
  refine ⟨serve_asksMetric hq now hs' hlist (by omega), ?_⟩
  constructor
  · intro h r hr hne hmentions
    exact hne (h r (List.mem_filter.2 ⟨hr, (contains_text_iff name r).2 hmentions⟩))
  · intro h r hr
    obtain ⟨hreach, hcontains⟩ := List.mem_filter.1 hr
    by_contra hne
    exact h r hreach hne ((contains_text_iff name r).1 hcontains)

end

/-- The newest record, of two. -/
theorem metric_query_iff_newest :
    let cmds : List (Nat × Request) :=
      [(0, ⟨1, ["METRIC RECORD", "mem", "5"]⟩), (0, ⟨2, ["METRIC RECORD", "cpu", "7", "host=a"]⟩)]
    ∀ r ∈ returned "cpu" 1 (recordsOf Float cmds), r.name = "cpu" := by
  intro cmds
  have hnone : (⟨∅, {}⟩ : World Float).store.lookup metricsKey = none := rfl
  obtain ⟨hempty, hs⟩ := listAt_of_none hnone
  have hcmds : ∀ c ∈ cmds, c.2.word = some .metricRecord := by decide
  have hq : AsksMetric "cpu" 1 ⟨0, ["METRIC QUERY", "cpu", "1"]⟩ := ⟨by decide, ["1"], rfl, by decide⟩
  refine (metric_query_iff hs hempty hcmds (by decide) hq 0).2.2 ?_
  have hnewest : ∀ r ∈ reach 1 (recordsOf Float cmds), r.name = "cpu" := by decide
  intro r hr hne
  exact absurd (hnewest r hr) hne

/-- **A record of another name**: `cpu|user` is answered for `cpu`. -/
theorem metric_query_other :
    let cmds : List (Nat × Request) := [(0, ⟨1, ["METRIC RECORD", "cpu|user", "5"]⟩)]
    let records := recordsOf Float cmds
    (serve (F := Float) 0 ⟨0, ["METRIC QUERY", "cpu"]⟩ (serveAll cmds ⟨∅, {}⟩).2).1 =
        some (strs ((returned "cpu" 100 records).map (·.text))) ∧
      ∃ r ∈ returned "cpu" 100 records, r.name = "cpu|user" := by
  intro cmds records
  have hnone : (⟨∅, {}⟩ : World Float).store.lookup metricsKey = none := rfl
  obtain ⟨hempty, hs⟩ := listAt_of_none hnone
  have hcmds : ∀ c ∈ cmds, c.2.word = some .metricRecord := by decide
  have hq : AsksMetric "cpu" 100 ⟨0, ["METRIC QUERY", "cpu"]⟩ := ⟨by decide, [], rfl, by decide⟩
  obtain ⟨hlist, hs'⟩ := listAt_metricRecords hcmds hs
  rw [hempty, List.append_nil] at hlist
  refine ⟨?_, ?_⟩
  · rcases serve_asksMetric hq 0 hs' hlist (by decide) with ⟨hmin, -⟩ | hanswer
    · exact absurd hmin (by decide)
    · exact hanswer
  · obtain ⟨r, hr, hname⟩ : ∃ r ∈ reach 100 records, r.name = "cpu|user" := ⟨_, List.mem_cons_self, rfl⟩
    refine ⟨r, List.mem_filter.2 ⟨hr, (contains_text_iff "cpu" r).2 ?_⟩, hname⟩
    have hfields : fields r.name = fields "cpu" ++ ["user".toList] := by
      rw [hname]
      decide
    rw [Mentions, hfields, List.append_assoc]
    exact (List.prefix_append _ _).isInfix

end RedisOps.Handler
