import RedisOps.Handler.TimeSeries
import RedisOps.Lib.Digits
import RedisOps.Store.ListSpec

/-!
# Points in range (`handler.rs:662-743`)

`ts.add` pushes a point at the head of its series; `ts.range` takes the newest `limit` points and drops those that are not in
range. `ts_range_iff`: that gives the newest `limit` points in range exactly when no older point is in range, or the newest
are all in range. A limit of 0 asks `lrange` for everything up to the last point.
-/

namespace RedisOps.Handler

open Lib Store Proto

variable {F : Type}

/-! ## Cutting and filtering -/

/-- Filtering the first `k` gives the first `k` of the filtered list exactly when that misses nothing or needs nothing more. -/
theorem map_filter_take_iff {α β : Type} (f : α → β) (p : α → Bool) (l : List α) (k : Nat) :
    ((l.take k).filter p).map f = ((l.filter p).take k).map f ↔
      (∀ a ∈ l.drop k, p a = false) ∨ ∀ a ∈ l.take k, p a = true := by
  have hsplit : l.filter p = (l.take k).filter p ++ (l.drop k).filter p := by
    rw [← List.filter_append, List.take_append_drop]
  have hle := List.length_filter_le p (l.take k)
  have htake : (l.take k).length = min k l.length := List.length_take
  have hcut : ((l.filter p).take k).map f =
      ((l.take k).filter p).map f ++ (((l.drop k).filter p).take (k - ((l.take k).filter p).length)).map f := by
    rw [hsplit, List.take_append, List.take_of_length_le (by omega), List.map_append]
  rw [hcut, List.self_eq_append_right, List.map_eq_nil_iff, List.take_eq_nil_iff, List.filter_eq_nil_iff]
  simp only [Bool.not_eq_true]
  constructor
  · rintro (hfull | hnone)
    · right
      have hall : ((l.take k).filter p).length = (l.take k).length := by omega
      exact List.length_filter_eq_length_iff.1 hall
    · exact .inl hnone
  · rintro (hnone | hall)
    · exact .inr hnone
    · have hlength : ((l.take k).filter p).length = (l.take k).length := List.length_filter_eq_length_iff.2 hall
      by_cases hshort : k ≤ l.length
      · left
        omega
      · right
        rw [List.drop_eq_nil_of_le (by omega)]
        simp

/-! ## Points -/

/-- A point as it is stored: its text, which begins with its time. -/
structure StoredPoint where
  time : UInt64
  text : String

/-- The text `ts.add` pushes. -/
def pointText [F64 F] (name : String) (ts : UInt64) (val : F) (labelArgs : List String) : String :=
  toString ts ++ "|" ++ name ++ "|" ++ F64.display val ++ "|" ++ labelText labelArgs

/-- The point a request adds, when it has the arguments for it. -/
def addedPoint (F : Type) [F64 F] (q : Request) : Option StoredPoint :=
  match q.args.tail with
  | name :: ts :: val :: labelArgs =>
    match parseU64 ts, F64.parse (F := F) val with
    | some ts, some val => some ⟨ts, pointText name ts val labelArgs⟩
    | _, _ => none
  | _ => none

/-- Whatever the name and the labels, the time is read back. -/
theorem pointInRange_pointText [F64 F] (start stop : UInt64) (name : String) (ts : UInt64) (val : F)
    (labelArgs : List String) :
    pointInRange start stop (pointText name ts val labelArgs) = (decide (start ≤ ts) && decide (ts ≤ stop)) := by
  have htext : (pointText name ts val labelArgs).toList = (toString ts.toNat).toList ++ '|' ::
      (name ++ "|" ++ F64.display val ++ "|" ++ labelText labelArgs).toList := by
    simp only [pointText, String.toList_append, List.append_assoc]
    rfl
  have hcount : 2 ≤ (name ++ "|" ++ F64.display val ++ "|" ++ labelText labelArgs).toList.count '|' := by
    have hbar : ("|" : String).toList.count '|' = 1 := by decide
    simp only [String.toList_append, List.count_append, hbar]
    omega
  have hpieces := length_splitnChars 2 '|' (name ++ "|" ++ F64.display val ++ "|" ++ labelText labelArgs).toList
  obtain ⟨x, y, rest, hrest⟩ : ∃ x y rest,
      splitnChars 3 '|' (name ++ "|" ++ F64.display val ++ "|" ++ labelText labelArgs).toList = x :: y :: rest := by
    generalize splitnChars 3 '|' (name ++ "|" ++ F64.display val ++ "|" ++ labelText labelArgs).toList = pieces at hpieces
    rcases pieces with _ | ⟨x, _ | ⟨y, rest⟩⟩
    · rw [List.length_nil] at hpieces
      omega
    · rw [List.length_singleton] at hpieces
      omega
    · exact ⟨x, y, rest, rfl⟩
  have hsplit := (splitnChars_append_eq_cons (n := 2)).2 ⟨not_mem_toString (by decide) ts.toNat, hrest⟩
  unfold pointInRange splitn
  rw [htext, hsplit]
  simp only [List.map_cons, String.ofList_toList, parseU64_toString]

/-! ## The commands -/

section
variable [F64 F]

/-- `ts.add` to one series, refused or not. -/
def AddsTo (F : Type) [F64 F] (name : String) (q : Request) : Prop :=
  q.word = some .tsAdd ∧ ∀ name', addedName F q = some name' → name' = name

/-- The points of a run, newest first. -/
def pointsAdded (F : Type) [F64 F] (cmds : List (Nat × Request)) : List StoredPoint :=
  (cmds.filterMap fun c => addedPoint F c.2).reverse

/-- **Step.** -/
theorem serve_addsTo {name : String} {q : Request} (hq : AddsTo F name q) (now : Nat) {w : World F}
    (hs : ListOrNone w.store (seriesKey name)) :
    listAt (serve now q w).2.store (seriesKey name) =
        ((addedPoint F q).map (·.text)).toList ++ listAt w.store (seriesKey name) ∧
      ListOrNone (serve now q w).2.store (seriesKey name) := by
  obtain ⟨hword, hname⟩ := hq
  cases hpoint : addedPoint F q with
  | none =>
    have hrefused : addedName F q = none := by
      unfold addedPoint at hpoint
      unfold addedName
      split
      · rename_i name ts val labels hargs
        rw [hargs] at hpoint
        rw [if_neg]
        rintro ⟨-, hts, hval⟩
        obtain ⟨t, ht⟩ := Option.isSome_iff_exists.1 hts
        obtain ⟨v, hv⟩ := Option.isSome_iff_exists.1 hval
        simp [ht, hv] at hpoint
      · rfl
    rw [serve_tsAdd_refused hword hrefused]
    exact ⟨rfl, hs⟩
  | some point =>
    unfold addedPoint at hpoint
    split at hpoint
    · rename_i name' ts val labels hargs
      split at hpoint
      · rename_i t v ht hv
        cases hpoint
        have hsame : name' = name := by
          apply hname
          simp [addedName, hargs, hword, ht, hv]
        subst hsame
        obtain ⟨last, count, hserve⟩ : ∃ last count, (serve now q w).2 =
            { w with store := addPoint w.store name' (pointText name' t v labels) last count } := by
          rw [serve_of_word hword, hargs]
          simp only [handle, tsAdd, parsed, ht, hv]
          exact ⟨_, _, rfl⟩
        have hlookup : (addPoint w.store name' (pointText name' t v labels) last count).lookup (seriesKey name') =
            (lpush w.store (seriesKey name') (pointText name' t v labels)).lookup (seriesKey name') := by
          obtain ⟨hlast, hcount⟩ := series_keys_ne name'
          rw [addPoint, setStr, lookup_insertNew_ne hcount.symm, setStr, lookup_insertNew_ne hlast.symm]
        obtain ⟨hlist, hlist'⟩ := listAt_lpush hs (pointText name' t v labels)
        obtain ⟨hsame, hsame'⟩ := listAt_congr hlookup hlist'
        rw [hserve]
        exact ⟨hsame.trans hlist, hsame'⟩
      · cases hpoint
    · cases hpoint

/-- **Run.** -/
theorem listAt_addsTo {name : String} {cmds : List (Nat × Request)} (hcmds : ∀ c ∈ cmds, AddsTo F name c.2) {w : World F}
    (hs : ListOrNone w.store (seriesKey name)) :
    listAt (serveAll cmds w).2.store (seriesKey name) =
        (pointsAdded F cmds).map (·.text) ++ listAt w.store (seriesKey name) ∧
      ListOrNone (serveAll cmds w).2.store (seriesKey name) := by
  rw [pointsAdded, List.map_reverse, List.map_filterMap]
  exact listAt_serveAll (fun now _ _ hq => serve_addsTo hq now) hcmds hs

/-- A request for the points of a series from `start` to `stop`. -/
def AsksRange (name : String) (start stop : UInt64) (limit : Int64) (q : Request) : Prop :=
  q.word = some .tsRange ∧ ∃ a b more, q.args.tail = name :: a :: b :: more ∧ parseU64 a = some start ∧
    parseU64 b = some stop ∧ limitArg more.head? 1000 = limit

def StoredPoint.inRange (start stop : UInt64) (p : StoredPoint) : Bool :=
  decide (start ≤ p.time) && decide (p.time ≤ stop)

theorem pointInRange_of_mem {cmds : List (Nat × Request)} {p : StoredPoint} (hp : p ∈ pointsAdded F cmds)
    (start stop : UInt64) : pointInRange start stop p.text = p.inRange start stop := by
  obtain ⟨c, -, hc⟩ := List.mem_filterMap.1 (List.mem_reverse.1 hp)
  unfold addedPoint at hc
  split at hc
  · split at hc
    · cases hc
      exact pointInRange_pointText ..
    · cases hc
  · cases hc

omit [F64 F] in
/-- `lrange` from the head, as `ts.range` and `metric query` use it: a limit of 0 is no limit. -/
theorem lrange_limit {s : Data F} {key : String} (h : ListOrNone s key) (hlen : (listAt s key).length < 2 ^ 63)
    {limit : Int64} (hlimit : 0 ≤ limit) :
    lrange s key 0 (limit - 1) =
      some (if limit = 0 then listAt s key else (listAt s key).take limit.toInt.toNat) := by
  have hzero : (0 : Int64).toInt = 0 := rfl
  have hpos : 0 ≤ limit.toInt := Int64.le_iff_toInt_le.1 hlimit
  have hmin : limit ≠ Int64.minValue := by
    rintro rfl
    exact absurd hlimit (by decide)
  rw [lrange_head h hlen hmin, Option.some.injEq]
  by_cases h0 : limit = 0
  · subst h0
    rw [if_pos rfl, List.take_of_length_le]
    unfold Store.norm
    rw [hzero]
    omega
  · have hne : limit.toInt ≠ 0 := fun heq => h0 (Int64.toInt_inj.1 heq)
    have hlast : Store.norm (listAt s key).length (limit.toInt - 1) = limit.toInt - 1 := if_neg (by omega)
    rw [if_neg h0, hlast]
    congr 1
    omega

/-- The answer of `ts.range`: cut, then filtered. -/
theorem serve_asksRange {name : String} {start stop : UInt64} {limit : Int64} {q : Request}
    (hq : AsksRange name start stop limit q) (hlimit : 0 ≤ limit) (now : Nat) {w : World F}
    (hs : ListOrNone w.store (seriesKey name)) (hlen : (listAt w.store (seriesKey name)).length < 2 ^ 63) :
    (serve now q w).1 = some (strs ((if limit = 0 then listAt w.store (seriesKey name)
      else (listAt w.store (seriesKey name)).take limit.toInt.toNat).filter (pointInRange start stop))) := by
  obtain ⟨hword, a, b, more, hargs, ha, hb, hmore⟩ := hq
  rw [serve_of_word hword, hargs]
  simp only [handle, tsRange, parsed, ha, hb, hmore, await_def, Prog.op_bind, Prog.ret_bind, Prog.pure_def, Prog.run, exec,
    lrange_limit hs hlen hlimit, Option.map_some]

/-- What is asked for is among the newest `limit` points: no older one is in range, or these are all in range. -/
def NewestSuffice (points : List StoredPoint) (start stop : UInt64) (limit : Nat) : Prop :=
  (∀ p ∈ points.drop limit, p.inRange start stop = false) ∨
  0 < limit ∧ ∀ p ∈ points.take limit, p.inRange start stop = true

/-- **Ranges.** After any `ts.add` to a series without points, `ts.range` answers the newest `limit` points in range exactly
    when the newest `limit` points suffice. -/
theorem ts_range_iff {name : String} {w : World F} (hs : ListOrNone w.store (seriesKey name))
    (hempty : listAt w.store (seriesKey name) = []) {cmds : List (Nat × Request)}
    (hcmds : ∀ c ∈ cmds, AddsTo F name c.2) (hlen : cmds.length < 2 ^ 63) {start stop : UInt64} {limit : Int64}
    {q : Request} (hq : AsksRange name start stop limit q) (hlimit : 0 ≤ limit) (now : Nat) :
    (serve now q (serveAll cmds w).2).1 =
        some (strs ((((pointsAdded F cmds).filter (·.inRange start stop)).take limit.toInt.toNat).map (·.text))) ↔
      NewestSuffice (pointsAdded F cmds) start stop limit.toInt.toNat := by
  obtain ⟨hlist, hs'⟩ := listAt_addsTo hcmds hs
  rw [hempty, List.append_nil] at hlist
  have hcount : (pointsAdded F cmds).length ≤ cmds.length := by
    rw [pointsAdded, List.length_reverse]
    exact List.length_filterMap_le _ _
  rw [serve_asksRange hq hlimit now hs' (by rw [hlist, List.length_map]; omega), hlist]
  have htexts : ∀ points : List StoredPoint, points ⊆ pointsAdded F cmds →
      (points.map (·.text)).filter (pointInRange start stop) = (points.filter (·.inRange start stop)).map (·.text) := by
    intro points hsub
    rw [List.filter_map]
    congr 1
    apply List.filter_congr
    intro p hp
    exact pointInRange_of_mem (hsub hp) start stop
  have hinj : ∀ a b : List String, some (strs a) = some (strs b) ↔ a = b :=
    fun a b => ⟨fun h => strs_inj (Option.some.inj h), fun h => by rw [h]⟩
  have hpos : 0 ≤ limit.toInt := Int64.le_iff_toInt_le.1 hlimit
  by_cases h0 : limit = 0
  · subst h0
    have hzero : (0 : Int64).toInt.toNat = 0 := rfl
    rw [if_pos rfl, htexts _ (List.Subset.refl _), hinj, hzero, List.take_zero, List.map_nil, List.map_eq_nil_iff,
      List.filter_eq_nil_iff, NewestSuffice, List.drop_zero]
    simp
  · have hne : limit.toInt ≠ 0 := fun heq => h0 (Int64.toInt_inj.1 heq)
    rw [if_neg h0, ← List.map_take, htexts _ (List.take_subset _ _), hinj, map_filter_take_iff, NewestSuffice,
      and_iff_right (show 0 < limit.toInt.toNat by omega)]

end

/-- Two points of a series. -/
def cpuAdds : List (Nat × Request) := [(0, ⟨0, ["TS.ADD", "cpu", "1", "5"]⟩), (0, ⟨0, ["TS.ADD", "cpu", "2", "7"]⟩)]

theorem addsTo_cpuAdds : ∀ c ∈ cpuAdds, AddsTo Float "cpu" c.2 := by
  have hname : ∀ c ∈ cpuAdds, c.2.word = some .tsAdd ∧ addedName Float c.2 = some "cpu" := by decide
  intro c hc
  obtain ⟨hword, hadded⟩ := hname c hc
  refine ⟨hword, ?_⟩
  intro name' h
  rw [hadded] at h
  exact (Option.some.inj h).symm

/-- The newest point, in a range with both. -/
theorem ts_range_iff_newest :
    (serve (F := Float) 0 ⟨0, ["TS.RANGE", "cpu", "1", "9", "1"]⟩ (serveAll cpuAdds ⟨∅, {}⟩).2).1 =
      some (strs ((((pointsAdded Float cpuAdds).filter (·.inRange 1 9)).take 1).map (·.text))) := by
  have hnone : (⟨∅, {}⟩ : World Float).store.lookup (seriesKey "cpu") = none := rfl
  obtain ⟨hempty, hs⟩ := listAt_of_none hnone
  have hq : AsksRange "cpu" 1 9 1 ⟨0, ["TS.RANGE", "cpu", "1", "9", "1"]⟩ :=
    ⟨by decide, "1", "9", ["1"], rfl, by decide, by decide, by decide⟩
  refine (ts_range_iff hs hempty addsTo_cpuAdds (by decide) hq (by decide) 0).2 (.inr ⟨by decide, ?_⟩)
  decide

/-- **The older point is not found**: one point is asked for, and the newest one is not in range. -/
theorem ts_range_misses :
    (serve (F := Float) 0 ⟨0, ["TS.RANGE", "cpu", "1", "1", "1"]⟩ (serveAll cpuAdds ⟨∅, {}⟩).2).1 = some (strs []) ∧
      ((((pointsAdded Float cpuAdds).filter (·.inRange 1 1)).take 1).map (·.text)).length = 1 := by
  have hnone : (⟨∅, {}⟩ : World Float).store.lookup (seriesKey "cpu") = none := rfl
  obtain ⟨hempty, hs⟩ := listAt_of_none hnone
  have hq : AsksRange "cpu" 1 1 1 ⟨0, ["TS.RANGE", "cpu", "1", "1", "1"]⟩ :=
    ⟨by decide, "1", "1", ["1"], rfl, by decide, by decide, by decide⟩
  obtain ⟨hlist, hs'⟩ := listAt_addsTo addsTo_cpuAdds hs
  rw [hempty, List.append_nil] at hlist
  refine ⟨?_, by decide⟩
  rw [serve_asksRange hq (by decide) 0 hs' (by rw [hlist]; decide), hlist]
  have hnewest : (((pointsAdded Float cpuAdds).map (·.text)).take 1).filter (pointInRange 1 1) = [] := by
    have hcut : ((pointsAdded Float cpuAdds).map (·.text)).take 1 = ((pointsAdded Float cpuAdds).take 1).map (·.text) :=
      List.map_take.symm
    rw [hcut, List.filter_eq_nil_iff]
    intro text htext
    obtain ⟨p, hp, rfl⟩ := List.mem_map.1 htext
    rw [pointInRange_of_mem (List.mem_of_mem_take hp)]
    have hout : ∀ p ∈ (pointsAdded Float cpuAdds).take 1, ¬p.inRange 1 1 = true := by decide
    exact hout p hp
  exact congrArg (fun l => some (strs l)) hnewest

end RedisOps.Handler
