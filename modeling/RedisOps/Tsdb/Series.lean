import Mathlib.Data.List.AList
import RedisOps.Lib.Utf8

/-!
# The time-series database

| here | there |
| --- | --- |
| `DataPoint`, `Series`, `TimeSeriesDB`, `RetentionPolicy` | `redisdb/src/tsdb/series.rs:10-27`, `tsdb/retention.rs:3-7` |
| `init`, `loadSeries` | `TimeSeriesDB::init` (`series.rs:37-56`) |
| `add` | `TimeSeriesDB::add` (`:58-94`) |
| `Storage`, `Serde` | what is used of `btree::storage::Storage`, and of `serde_json` on `Vec<DataPoint>` |

`add` writes the points of a series under `ts:meta:` and its name; `init` cuts nine bytes off such a key, one more than the
prefix has, and reads the rest as the name. `restart_survives_iff`: whatever has been added, a restart does not give it back.

Nothing is asked of a `Storage` or a `Serde` but where a statement says so: values of `btree::storage::Storage` are cut or padded
to 64 bytes, and `serde_json` writes a NaN as `null`.

Arithmetic is that of the release profile. `init` is `none` where it panics.
-/

namespace RedisOps.Tsdb

open Lib

structure DataPoint (F : Type) where
  timestamp : UInt64
  value : F
  labels : AList fun _ : String => String

structure RetentionPolicy where
  maxAgeSecs : UInt64
  maxPoints : UInt64

structure Series (F : Type) where
  name : String
  points : List (DataPoint F)
  retention : Option RetentionPolicy

/-- A store with states `σ`; a `put` that fails may have changed it too. -/
structure Storage (σ : Type) where
  put : σ → Bytes → Bytes → Except String Unit × σ
  scan : σ → Bytes → Bytes → Except String (List (Bytes × Bytes))

/-- An exact map on byte strings: `contents` is what a state stands for. -/
structure Storage.Lawful {σ : Type} (S : Storage σ) (contents : σ → Bytes → Option Bytes) : Prop where
  put_ok : ∀ s k v, (S.put s k v).1 = .ok () → contents (S.put s k v).2 = Function.update (contents s) k (some v)
  scan_ok : ∀ s lo hi, ∃ found, S.scan s lo hi = .ok found ∧
    ∀ k v, (k, v) ∈ found ↔ (lo ≤ k ∧ k ≤ hi) ∧ contents s k = some v

structure Serde (F : Type) where
  toVec : List (DataPoint F) → Option Bytes
  fromSlice : Bytes → Option (List (DataPoint F))

/-- What is written reads back. -/
def Serde.Lawful {F : Type} (serde : Serde F) : Prop :=
  ∀ points, ∃ data, serde.toVec points = some data ∧ serde.fromSlice data = some points

structure TimeSeriesDB (σ F : Type) where
  storage : σ
  series : AList fun _ : String => Series F

section Database
variable {σ F : Type} (S : Storage σ) (serde : Serde F)

def TimeSeriesDB.new (storage : σ) : TimeSeriesDB σ F := ⟨storage, ∅⟩

/-- `b"ts:meta:"`. -/
def metaPrefix : Bytes := [116, 115, 58, 109, 101, 116, 97, 58]

/-- `format!("ts:meta:{}", name).as_bytes()`. -/
def metaKey (name : String) : Bytes := metaPrefix ++ utf8 name

/-- `u64::saturating_sub`. -/
def saturatingSub (a b : UInt64) : UInt64 := if b ≤ a then a - b else 0

def applyRetention (timestamp : UInt64) (s : Series F) : Series F :=
  match s.retention with
  | none => s
  | some policy =>
    let cutoff := saturatingSub timestamp (policy.maxAgeSecs * 1000)
    { s with points := s.points.filter fun p => cutoff ≤ p.timestamp }

/-- The series with one more point, in the order of time; points of one time in the order they came. -/
def push (s : Series F) (point : DataPoint F) : Series F :=
  applyRetention point.timestamp
    { s with points := (s.points ++ [point]).mergeSort fun p q => p.timestamp ≤ q.timestamp }

def add (db : TimeSeriesDB σ F) (name : String) (point : DataPoint F) : Except String Unit × TimeSeriesDB σ F :=
  let s := push ((db.series.lookup name).getD ⟨name, [], none⟩) point
  let series := db.series.insert name s
  let written := S.put db.storage (metaKey name) ((serde.toVec s.points).getD [])
  -- whatever the storage answers, the point stays in memory
  (written.1, ⟨written.2, series⟩)

/-- One round of the loop in `init`: `&key[9..]` panics on a shorter key. -/
def loadSeries (series : AList fun _ : String => Series F) (entry : Bytes × Bytes) :
    Option (AList fun _ : String => Series F) :=
  if entry.1.length < 9 then none
  else
    let name := fromUtf8Lossy (entry.1.drop 9)
    some (series.insert name ⟨name, (serde.fromSlice entry.2).getD [], none⟩)

def init (db : TimeSeriesDB σ F) : Option (Except String Unit × TimeSeriesDB σ F) :=
  match S.scan db.storage metaPrefix (metaPrefix ++ [255]) with
  | .error err => some (.error err, db)
  | .ok keys => (keys.foldlM (loadSeries serde) db.series).map fun series => (.ok (), { db with series := series })

/-- Calls of `add`, one after another, all of which return `Ok`. -/
def addAll (db : TimeSeriesDB σ F) (adds : List (String × DataPoint F)) : Option (TimeSeriesDB σ F) :=
  adds.foldlM (fun db (name, point) =>
    match add S serde db name point with
    | (.ok (), db) => some db
    | (.error _, _) => none) db

/-- A new database over the same storage has after `init` the same series with the same points. -/
def Survives (db : TimeSeriesDB σ F) : Prop :=
  ∃ db', init S serde (.new db.storage) = some (.ok (), db') ∧
    ∀ name, (db'.series.lookup name).map (·.points) = (db.series.lookup name).map (·.points)

/-! ## What `init` makes of a name -/

/-- The name `init` reads from the key of a series. -/
def reloaded (name : String) : String := fromUtf8Lossy ((utf8 name).drop 1)

/-- Without its first byte a name is shorter, or begins with a replacement character; and one that begins with a
    replacement character gets longer. So no finite set of names goes into itself. -/
theorem eq_empty_of_reloaded (names : Finset String) (hne : ∀ name ∈ names, name.toList ≠ [])
    (hclosed : ∀ name ∈ names, reloaded name ∈ names) : names = ∅ := by
  by_contra hempty
  have hcut : ∀ name ∈ names, ∃ c cs, name.toList = c :: cs ∧
      (reloaded name).toList = List.replicate ((String.utf8EncodeChar c).length - 1) replacement ++ cs := by
    intro name hname
    obtain ⟨c, cs, hcs⟩ := List.exists_cons_of_ne_nil (hne name hname)
    exact ⟨c, cs, hcs, fromUtf8Lossy_tail hcs⟩
  have hplain : ∀ name ∈ names, name.toList.head? ≠ some replacement := by
    by_contra hbad
    push Not at hbad
    obtain ⟨bad, hbad, hhead⟩ := hbad
    let bads := names.filter fun name => name.toList.head? = some replacement
    obtain ⟨longest, hlongest, hmax⟩ := bads.exists_max_image (fun name => name.toList.length)
      ⟨bad, Finset.mem_filter.2 ⟨hbad, hhead⟩⟩
    obtain ⟨hmem, hhead'⟩ := Finset.mem_filter.1 hlongest
    obtain ⟨c, cs, hcs, hreload⟩ := hcut longest hmem
    obtain rfl : c = replacement := by simpa [hcs] using hhead'
    have hwidth : (String.utf8EncodeChar replacement).length - 1 = 2 := by decide
    rw [hwidth] at hreload
    have hlonger := hmax (reloaded longest) (Finset.mem_filter.2 ⟨hclosed longest hmem, by rw [hreload]; rfl⟩)
    simp only [hreload, hcs, List.length_append, List.length_replicate, List.length_cons] at hlonger
    omega
  obtain ⟨shortest, hmem, hmin⟩ := names.exists_min_image (fun name => name.toList.length)
    (Finset.nonempty_iff_ne_empty.2 hempty)
  obtain ⟨c, cs, hcs, hreload⟩ := hcut shortest hmem
  have hnext := hclosed shortest hmem
  cases hwidth : (String.utf8EncodeChar c).length - 1 with
  | zero =>
    have hshorter := hmin _ hnext
    simp only [hreload, hwidth, hcs, List.replicate_zero, List.nil_append, List.length_cons] at hshorter
    omega
  | succ n =>
    apply hplain _ hnext
    rw [hreload, hwidth]
    rfl

/-! ## What the storage holds -/

theorem metaKey_mem_range (name : String) : metaPrefix ≤ metaKey name ∧ metaKey name ≤ metaPrefix ++ [255] := by
  constructor
  · rw [← not_lt, ← List.append_nil metaPrefix, metaKey, append_lt_append_iff]
    exact List.not_lt_nil _
  · rw [← not_lt, metaKey, append_lt_append_iff]
    cases hname : utf8 name with
    | nil => exact List.not_lt_nil _
    | cons b rest =>
      have hb : b < 255 := lt_of_mem_utf8 (s := name) (by rw [hname]; exact List.mem_cons_self)
      rw [List.cons_lt_cons_iff]
      rintro (hlt | ⟨rfl, -⟩)
      · exact absurd hb (UInt8.lt_asymm hlt)
      · exact absurd hb (UInt8.lt_irrefl _)

/-- Every series in memory has its key in the storage. -/
def Persisted (contents : σ → Bytes → Option Bytes) (db : TimeSeriesDB σ F) : Prop :=
  ∀ name ∈ db.series, contents db.storage (metaKey name) ≠ none

variable {S} {contents : σ → Bytes → Option Bytes} (hS : S.Lawful contents)
include hS

theorem persisted_add {db db' : TimeSeriesDB σ F} {name : String} {point : DataPoint F} (hp : Persisted contents db)
    (h : add S serde db name point = (.ok (), db')) :
    Persisted contents db' ∧ ∀ name', name' ∈ db'.series ↔ name' = name ∨ name' ∈ db.series := by
  unfold add at h
  obtain ⟨hput, rfl⟩ := Prod.mk.inj h
  refine ⟨?_, fun name' => AList.mem_insert _⟩
  intro name' hname'
  rw [hS.put_ok _ _ _ hput]
  by_cases hkey : metaKey name' = metaKey name
  · rw [hkey, Function.update_self]
    simp
  · rw [Function.update_of_ne hkey]
    apply hp
    rcases (AList.mem_insert _).1 hname' with rfl | hold
    · exact absurd rfl hkey
    · exact hold

theorem persisted_addAll : ∀ {adds : List (String × DataPoint F)} {db db' : TimeSeriesDB σ F}, Persisted contents db →
    addAll S serde db adds = some db' →
    Persisted contents db' ∧ ∀ name, name ∈ db'.series ↔ name ∈ adds.map (·.1) ∨ name ∈ db.series
  | [], db, db', hp, h => by
    cases h
    exact ⟨hp, by simp⟩
  | (name, point) :: adds, db, db', hp, h => by
    simp only [addAll, List.foldlM_cons] at h
    obtain ⟨db₁, hstep, hrest⟩ := Option.bind_eq_some_iff.1 h
    split at hstep
    · rename_i db₁' hadd
      cases hstep
      obtain ⟨hp₁, hmem₁⟩ := persisted_add serde hS hp hadd
      obtain ⟨hp', hmem'⟩ := persisted_addAll hp₁ hrest
      refine ⟨hp', ?_⟩
      intro name'
      rw [hmem', hmem₁]
      simp only [List.map_cons, List.mem_cons]
      tauto
    · cases hstep

/-! ## The restart -/

omit hS in
/-- Every key the loop has got past is at least nine bytes long, and the name read from it is there. -/
theorem mem_of_loadSeries : ∀ {entries : List (Bytes × Bytes)} {series series' : AList fun _ : String => Series F},
    entries.foldlM (loadSeries serde) series = some series' →
    (∀ name ∈ series, name ∈ series') ∧ ∀ e ∈ entries, 9 ≤ e.1.length ∧ fromUtf8Lossy (e.1.drop 9) ∈ series'
  | [], series, series', h => by
    cases h
    simp
  | e :: entries, series, series', h => by
    rw [List.foldlM_cons] at h
    obtain ⟨series₁, hstep, hrest⟩ := Option.bind_eq_some_iff.1 h
    obtain ⟨hkeep, hentries⟩ := mem_of_loadSeries hrest
    unfold loadSeries at hstep
    split at hstep
    · cases hstep
    · rename_i hlen
      cases hstep
      refine ⟨?_, List.forall_mem_cons.2 ⟨⟨by omega, ?_⟩, hentries⟩⟩
      · intro name hname
        exact hkeep name ((AList.mem_insert _).2 (.inr hname))
      · exact hkeep _ ((AList.mem_insert _).2 (.inl rfl))

/-- What a successful restart would need: no empty name, and with every name the one `init` reads for it. -/
theorem reloaded_of_survives {db : TimeSeriesDB σ F} (hp : Persisted contents db) (h : Survives S serde db) :
    ∀ name ∈ db.series, name.toList ≠ [] ∧ reloaded name ∈ db.series := by
  intro name hname
  obtain ⟨db', hinit, hsame⟩ := h
  obtain ⟨found, hscan, hfound⟩ := hS.scan_ok db.storage metaPrefix (metaPrefix ++ [255])
  have hnew : (TimeSeriesDB.new db.storage : TimeSeriesDB σ F).storage = db.storage := rfl
  simp only [init, hnew, hscan] at hinit
  obtain ⟨series, hload, heq⟩ := Option.map_eq_some_iff.1 hinit
  cases heq
  obtain ⟨data, hdata⟩ := Option.ne_none_iff_exists'.1 (hp name hname)
  obtain ⟨hlen, hmem⟩ := (mem_of_loadSeries serde hload).2 _ ((hfound _ _).2 ⟨metaKey_mem_range name, hdata⟩)
  have hdrop : (metaKey name).drop 9 = (utf8 name).drop 1 := by
    simp [metaKey, metaPrefix]
  simp only [hdrop] at hmem hlen
  refine ⟨?_, ?_⟩
  · intro hnil
    rw [metaKey, utf8_eq_flatMap, hnil] at hlen
    exact absurd hlen (by decide)
  · have hsome := AList.lookup_isSome.2 hmem
    rw [← Option.isSome_map, hsame, Option.isSome_map] at hsome
    exact AList.lookup_isSome.1 hsome

/-- No series is stored. -/
def NoSeries (contents : σ → Bytes → Option Bytes) (storage : σ) : Prop :=
  ∀ k, metaPrefix ≤ k ∧ k ≤ metaPrefix ++ [255] → contents storage k = none

/-- **Restart.** After any calls of `add` that return `Ok`, over an exact map without series, a restart gives the same series
    only if there were none. -/
theorem restart_survives_iff {storage : σ} (hempty : NoSeries contents storage)
    {adds : List (String × DataPoint F)} {db : TimeSeriesDB σ F} (h : addAll S serde (.new storage) adds = some db) :
    Survives S serde db ↔ adds = [] := by
  have hp₀ : Persisted contents (TimeSeriesDB.new storage : TimeSeriesDB σ F) := by
    intro name hname
    cases hname
  obtain ⟨hp, hmem⟩ := persisted_addAll serde hS hp₀ h
  constructor
  · intro hsurvives
    have hreload := reloaded_of_survives serde hS hp hsurvives
    have hnone : db.series.keys.toFinset = ∅ := by
      apply eq_empty_of_reloaded
      · intro name hname
        exact (hreload name (List.mem_toFinset.1 hname)).1
      · intro name hname
        exact List.mem_toFinset.2 (hreload name (List.mem_toFinset.1 hname)).2
    cases adds with
    | nil => rfl
    | cons a adds =>
      have ha : a.1 ∈ db.series := (hmem a.1).2 (.inl (by simp))
      have := List.mem_toFinset.2 ha
      rw [hnone] at this
      cases this
  · rintro rfl
    cases h
    obtain ⟨found, hscan, hfound⟩ := hS.scan_ok storage metaPrefix (metaPrefix ++ [255])
    have hnil : found = [] := by
      apply List.eq_nil_iff_forall_not_mem.2
      rintro ⟨k, v⟩ hkv
      obtain ⟨hrange, hkv⟩ := (hfound k v).1 hkv
      rw [hempty k hrange] at hkv
      cases hkv
    have hnew : (TimeSeriesDB.new storage : TimeSeriesDB σ F).storage = storage := rfl
    refine ⟨.new storage, ?_, fun name => rfl⟩
    simp only [init, hnew, hscan, hnil]
    rfl

end Database

/-! ## A series `cpu` -/

/-- A storage that is a map. -/
def mapStorage : Storage (AList fun _ : Bytes => Bytes) where
  put s k v := (.ok (), s.insert k v)
  scan s lo hi := .ok ((s.entries.filter fun e => decide (lo ≤ e.1 ∧ e.1 ≤ hi)).map fun e => (e.1, e.2))

theorem mapStorage_lawful : mapStorage.Lawful fun s k => s.lookup k where
  put_ok s k v _ := by
    funext k'
    by_cases hk : k' = k
    · subst hk
      rw [Function.update_self]
      exact AList.lookup_insert _
    · rw [Function.update_of_ne hk]
      exact AList.lookup_insert_ne hk
  scan_ok s lo hi := by
    refine ⟨_, rfl, ?_⟩
    intro k v
    have hlookup : s.lookup k = some v ↔ (⟨k, v⟩ : Sigma fun _ : Bytes => Bytes) ∈ s.entries := AList.mem_lookup_iff
    rw [hlookup]
    simp only [List.mem_map, List.mem_filter, decide_eq_true_eq, Prod.mk.injEq]
    constructor
    · rintro ⟨⟨k', v'⟩, ⟨hmem, hrange⟩, rfl, rfl⟩
      exact ⟨hrange, hmem⟩
    · rintro ⟨hrange, hmem⟩
      exact ⟨⟨k, v⟩, ⟨hmem, hrange⟩, rfl, rfl⟩

/-- One point, and the text `serde_json` writes for it. -/
def cpuPoint : DataPoint Nat := ⟨1, 2, ∅⟩

def cpuJson : Bytes :=
  [91, 123, 34, 116, 105, 109, 101, 115, 116, 97, 109, 112, 34, 58, 49, 44, 34, 118, 97, 108, 117, 101, 34, 58, 50, 46, 48, 44, 34, 108, 97, 98, 101, 108, 115, 34, 58, 123, 125, 125, 93]

theorem countable_points : Countable (List (DataPoint Nat)) := by
  have hbyte : Countable UInt8 := Function.Injective.countable (f := UInt8.toNat) fun _ _ => UInt8.toNat_inj.1
  have hstring : Countable String := Function.Injective.countable (f := utf8) fun _ _ => utf8_injective
  have htime : Countable UInt64 := Function.Injective.countable (f := UInt64.toNat) fun _ _ => UInt64.toNat_inj.1
  have hpoint : Countable (DataPoint Nat) := by
    apply Function.Injective.countable (f := fun p : DataPoint Nat => (p.timestamp, p.value, p.labels.entries))
    rintro ⟨t, v, l⟩ ⟨t', v', l'⟩ h
    obtain ⟨ht, h⟩ := Prod.mk.inj h
    obtain ⟨hv, hl⟩ := Prod.mk.inj h
    simp only [DataPoint.mk.injEq]
    exact ⟨ht, hv, AList.ext hl⟩
  infer_instance

/-- Some encoding reads back all points and writes this one as `serde_json` does. -/
theorem exists_serde : ∃ serde : Serde Nat, serde.Lawful ∧ serde.toVec [cpuPoint] = some cpuJson := by
  classical
  have := countable_points
  obtain ⟨code, hcode⟩ := exists_injective_nat (List (DataPoint Nat))
  refine ⟨⟨fun points => if points = [cpuPoint] then some cpuJson else some (List.replicate (code points) 0),
    fun data => if data = cpuJson then some [cpuPoint] else Function.partialInv code data.length⟩, ?_, if_pos rfl⟩
  intro points
  dsimp only
  by_cases hp : points = [cpuPoint]
  · exact ⟨cpuJson, if_pos hp, by rw [if_pos rfl, hp]⟩
  · have hne : List.replicate (code points) 0 ≠ cpuJson := by
      intro heq
      have h91 : (91 : UInt8) ∈ List.replicate (code points) 0 := by
        rw [heq]
        decide
      exact absurd (List.eq_of_mem_replicate h91) (by decide)
    refine ⟨_, if_neg hp, ?_⟩
    rw [if_neg hne, List.length_replicate, Function.partialInv_left hcode]

theorem restart_survives_iff_cpu : ∃ serde : Serde Nat, ∃ db, serde.Lawful ∧ serde.toVec [cpuPoint] = some cpuJson ∧
    addAll mapStorage serde (.new ∅) [("cpu", cpuPoint)] = some db ∧
    (Survives mapStorage serde db ↔ [("cpu", cpuPoint)] = []) := by
  obtain ⟨serde, hlawful, hjson⟩ := exists_serde
  refine ⟨serde, _, hlawful, hjson, rfl, ?_⟩
  exact restart_survives_iff serde mapStorage_lawful (fun _ _ => rfl) rfl

/-- A point is added to series `cpu`; after a restart there is a series `pu`. -/
theorem cpu_lost : ∃ serde : Serde Nat, ∃ db, serde.Lawful ∧ serde.toVec [cpuPoint] = some cpuJson ∧
    addAll mapStorage serde (.new ∅) [("cpu", cpuPoint)] = some db ∧
    (∃ db', init mapStorage serde (.new db.storage) = some (.ok (), db') ∧ db'.series.keys = ["pu"]) ∧
    ¬Survives mapStorage serde db := by
  obtain ⟨serde, hlawful, hjson⟩ := exists_serde
  have hkey : metaKey "cpu" = metaPrefix ++ [99, 112, 117] := by
    rw [metaKey, utf8_eq_flatMap]
    rfl
  obtain ⟨data, hdb⟩ : ∃ data, addAll mapStorage serde (.new ∅) [("cpu", cpuPoint)] =
      some ⟨AList.insert (metaPrefix ++ [99, 112, 117]) data ∅, AList.insert "cpu" (push ⟨"cpu", [], none⟩ cpuPoint) ∅⟩ := by
    rw [← hkey]
    exact ⟨_, rfl⟩
  obtain ⟨points, hinit⟩ : ∃ points, init mapStorage serde (.new (AList.insert (metaPrefix ++ [99, 112, 117]) data ∅)) =
      some (.ok (), ⟨AList.insert (metaPrefix ++ [99, 112, 117]) data ∅, AList.insert "pu" ⟨"pu", points, none⟩ ∅⟩) := by
    exact ⟨_, rfl⟩
  refine ⟨serde, _, hlawful, hjson, hdb, ⟨_, hinit, rfl⟩, ?_⟩
  rintro ⟨db', hinit', hsame⟩
  rw [hinit] at hinit'
  cases hinit'
  have hpu := hsame "pu"
  rw [AList.lookup_insert, AList.lookup_insert_ne (by decide)] at hpu
  cases hpu

end RedisOps.Tsdb
