import RedisOps.Snapshot.Meta

/-!
# Exporting and importing a snapshot (`sandbox/src/snapshot.cpp:347-376`)

| here | there |
| --- | --- |
| `exportTo` | `export_to` (`sandbox/src/snapshot.cpp:347-354`) |
| `importFrom` | `import_from` (`:356-376`) |
| `Archive`, `extract` | what `tar -czf` packs, and what `tar -xzf` does to the directory |
| `Pack`, `Unpack` | how `system` comes back from them (`:352-353`, `:360-362`) |

How `tar` fares is not up to the two functions: every call is given it. The words of its command line are not quoted, so a
path or a sandbox id with a blank is one of the ways to fail.

After the extraction `import_from` answers for the first directory with a `meta.json` that it meets, whichever that is:
`import_returns_iff`.
-/

namespace RedisOps.Snapshot

open Lib

abbrev DirEntry := Sigma fun _ : Bytes => Option Bytes

/-- An order in which directories are enumerated. -/
structure Order where
  sort : List DirEntry → List DirEntry
  perm : ∀ entries, (sort entries).Perm entries

def Order.enumerate (order : Order) (dir : SnapshotDir) : Enumeration dir := ⟨order.sort dir.entries, order.perm _⟩

/-- One directory. -/
structure Archive where
  name : Bytes
  metaJson : Option Bytes

/-- The directory of the snapshots and the archives elsewhere; `some none` is a file that cannot be unpacked. -/
structure Disk where
  dir : SnapshotDir
  archives : Bytes → Option (Option Archive)

/-- A `tar` that packs ends with zero, or it does not: then the archive is there all the same (a file changed while it was
    read), or nothing has been written, or what is at the path is no archive. -/
inductive Pack
  | done
  | late
  | kept
  | broken
  deriving DecidableEq

/-- One that unpacks; it extracts all of the archive or nothing. -/
inductive Unpack
  | done
  | late
  | kept
  deriving DecidableEq

/-- A file that is in the archive is replaced, others stay. -/
def extract (dir : SnapshotDir) (archive : Archive) : SnapshotDir :=
  dir.insert archive.name (archive.metaJson.or (dir.lookup archive.name).join)

def Disk.write (disk : Disk) (path : Bytes) (archive : Option Archive) : Disk :=
  { disk with archives := Function.update disk.archives path (some archive) }

def exportTo (tar : Pack) (disk : Disk) (snapshotId path : Bytes) : Bool × Disk :=
  match disk.dir.lookup snapshotId with
  | none => (false, disk)
  | some metaJson =>
    match tar with
    | .done => (true, disk.write path (some ⟨snapshotId, metaJson⟩))
    | .late => (false, disk.write path (some ⟨snapshotId, metaJson⟩))
    | .kept => (false, disk)
    | .broken => (false, disk.write path none)

/-- The loop that looks for the imported snapshot. -/
def findImported (config : SnapshotConfig) {dir : SnapshotDir} (e : Enumeration dir) : Option (Option SnapshotMeta) :=
  match e.files.head? with
  | none => some none
  | some (name, _) => getMeta config dir name

/-- `none` throws, `some none` is `std::nullopt`. -/
def importFrom (config : SnapshotConfig) (order : Order) (tar : Unpack) (disk : Disk) (path : Bytes) :
    Option (Option SnapshotMeta) × Disk :=
  match disk.archives path with
  | none => (some none, disk)
  | some none => (some none, disk)
  | some (some archive) =>
    let dir := extract disk.dir archive
    match tar with
    | .done => (findImported config (order.enumerate dir), { disk with dir })
    | .late => (some none, { disk with dir })
    | .kept => (some none, disk)

section
variable {config : SnapshotConfig} {dir : SnapshotDir} {id : Bytes}

/-- What `getMeta` needs. -/
def ReadableMeta (metaJson : Option Bytes) : Prop :=
  ∃ content ∈ metaJson, (numberField timestampKey content).isSome ∧ (numberField sizeKey content).isSome

theorem getMeta_id {m : SnapshotMeta} (h : getMeta config dir id = some (some m)) : m.id = id := by
  rw [getMeta] at h
  split at h
  · cases h
  · simp only [Option.bind_eq_bind, Option.bind_eq_some_iff] at h
    obtain ⟨timestamp, -, sizeBytes, -, hm⟩ := h
    cases hm
    rfl

theorem exists_getMeta_iff : (∃ m, getMeta config dir id = some (some m)) ↔ ReadableMeta (dir.lookup id).join := by
  rw [getMeta, ReadableMeta]
  cases (dir.lookup id).join with
  | none => simp
  | some content => simp [Option.isSome_iff_exists, Option.bind_eq_some_iff]

/-- No directory with a `meta.json` stands before that of the snapshot. -/
def ComesFirst (entries : List DirEntry) (id : Bytes) : Prop :=
  ∃ before entry behind, entries = before ++ ⟨id, entry⟩ :: behind ∧ ∀ other ∈ before, other.2 = none

/-- The first directory that the loop takes. -/
theorem head?_files_iff {e : Enumeration dir} {name content : Bytes} : e.files.head? = some (name, content) ↔
    ∃ before behind, e.entries = before ++ ⟨name, some content⟩ :: behind ∧ ∀ other ∈ before, other.2 = none := by
  rw [Enumeration.files, List.head?_filterMap, List.findSome?_eq_some_iff]
  simp only [Option.map_eq_none_iff]
  constructor
  · rintro ⟨before, ⟨name', entry⟩, behind, hsplit, hentry, hbefore⟩
    obtain ⟨content', hcontent, hpair⟩ := Option.map_eq_some_iff.1 hentry
    cases hpair
    cases hcontent
    exact ⟨before, behind, hsplit, hbefore⟩
  · rintro ⟨before, behind, hsplit, hbefore⟩
    exact ⟨before, _, behind, hsplit, rfl, hbefore⟩

/-- The right snapshot is found exactly if it comes first. -/
theorem findImported_iff (e : Enumeration dir) :
    (∃ m, getMeta config dir id = some (some m) ∧ findImported config e = some (some m)) ↔
      ReadableMeta (dir.lookup id).join ∧ ComesFirst e.entries id := by
  rw [← @exists_getMeta_iff config dir id, findImported]
  constructor
  · rintro ⟨m, hm, himport⟩
    refine ⟨⟨m, hm⟩, ?_⟩
    split at himport
    · cases himport
    · rename_i name content hhead
      obtain rfl : name = id := (getMeta_id himport).symm.trans (getMeta_id hm)
      obtain ⟨before, behind, hsplit, hbefore⟩ := head?_files_iff.1 hhead
      exact ⟨before, some content, behind, hsplit, hbefore⟩
  · rintro ⟨⟨m, hm⟩, before, entry, behind, hsplit, hbefore⟩
    have hlookup : dir.lookup id = some entry := by
      apply AList.mem_lookup_iff.2 (e.perm.mem_iff.1 _)
      rw [hsplit]
      simp
    obtain ⟨content, hcontent, -⟩ := exists_getMeta_iff.1 ⟨m, hm⟩
    obtain rfl : entry = some content := by simpa [hlookup] using hcontent
    refine ⟨m, hm, ?_⟩
    rw [head?_files_iff.2 ⟨before, behind, hsplit, hbefore⟩]
    exact hm

end

/-! ## Every order -/

/-- The order that takes one directory first. -/
def Order.first (name : Bytes) : Order where
  sort entries := entries.filter (fun entry => entry.1 = name) ++ entries.filter (fun entry => ¬entry.1 = name)
  perm entries := by simpa using List.filter_append_perm (fun entry : DirEntry => decide (entry.1 = name)) entries

theorem mem_enumerate (order : Order) (dir : SnapshotDir) {name : Bytes} {entry : Option Bytes} :
    (⟨name, entry⟩ : DirEntry) ∈ (order.enumerate dir).entries ↔ dir.lookup name = some entry := by
  rw [(order.enumerate dir).perm.mem_iff, ← AList.mem_lookup_iff, Option.mem_def]

theorem not_comesFirst_first {dir : SnapshotDir} {id name content : Bytes} (hne : name ≠ id)
    (hname : dir.lookup name = some (some content)) : ¬ComesFirst ((Order.first name).enumerate dir).entries id := by
  rintro ⟨before, entry, behind, hsplit, hbefore⟩
  have hfirst : (⟨name, some content⟩ : DirEntry) ∈ dir.entries.filter fun entry => entry.1 = name := by
    simpa using AList.mem_lookup_iff.1 hname
  have hid : (⟨id, entry⟩ : DirEntry) ∉ dir.entries.filter fun entry => entry.1 = name := by
    simp [hne.symm]
  -- all entries of that name stand before the snapshot
  have hmem : (⟨name, some content⟩ : DirEntry) ∈ before := by
    rcases List.append_eq_append_iff.1 hsplit with ⟨mid, hmid, -⟩ | ⟨mid, hmid, hrest⟩
    · exact hmid ▸ List.mem_append_left mid hfirst
    · cases mid with
      | nil => rwa [hmid, List.append_nil] at hfirst
      | cons other mid =>
        obtain ⟨rfl, -⟩ := List.cons.inj hrest
        exact absurd (hmid ▸ by simp) hid
  cases hbefore _ hmem

/-- Whatever the order: nothing else has a `meta.json`. -/
theorem forall_comesFirst_iff {dir : SnapshotDir} {id content : Bytes} (hid : dir.lookup id = some (some content)) :
    (∀ order : Order, ComesFirst (order.enumerate dir).entries id) ↔
      ∀ name, name ≠ id → (dir.lookup name).join = none := by
  constructor
  · intro hall name hne
    by_contra hname
    obtain ⟨content', hcontent'⟩ := Option.ne_none_iff_exists'.1 hname
    exact not_comesFirst_first hne (Option.join_eq_some_iff.1 hcontent') (hall (Order.first name))
  · intro halone order
    obtain ⟨before, behind, hsplit, hnot⟩ := List.eq_append_cons_of_mem ((mem_enumerate order dir).2 hid)
    refine ⟨before, some content, behind, hsplit, ?_⟩
    rintro ⟨name, entry⟩ hmem
    have hlookup : dir.lookup name = some entry := by
      apply (mem_enumerate order dir).1
      rw [hsplit]
      exact List.mem_append_left _ hmem
    by_cases hname : name = id
    · subst hname
      cases hid.symm.trans hlookup
      exact absurd hmem hnot
    · simpa [hlookup] using halone name hname

/-- The answer of `import_from`, if `tar` unpacks the archive, is the metadata of the snapshot, as it then is in the directory. -/
def Returned (config : SnapshotConfig) (order : Order) (disk : Disk) (path snapshotId : Bytes) : Prop :=
  let (answer, disk') := importFrom config order .done disk path
  ∃ m, getMeta config disk'.dir snapshotId = some (some m) ∧ answer = some (some m)

/-- The archive that an export leaves. -/
theorem exportTo_archives {tar : Pack} {disk disk' : Disk} {snapshotId path : Bytes}
    (hexport : exportTo tar disk snapshotId path = (true, disk')) :
    disk'.archives path = some (some ⟨snapshotId, (disk.dir.lookup snapshotId).join⟩) := by
  rw [exportTo] at hexport
  cases hlookup : disk.dir.lookup snapshotId with
  | none =>
    rw [hlookup] at hexport
    cases hexport
  | some metaJson =>
    rw [hlookup] at hexport
    cases tar with
    | done =>
      cases hexport
      exact Function.update_self ..
    | _ => cases hexport

theorem returned_iff (config : SnapshotConfig) (order : Order) {disk : Disk} {path : Bytes} {archive : Archive}
    (harchive : disk.archives path = some (some archive)) : Returned config order disk path archive.name ↔
      ReadableMeta (archive.metaJson.or (disk.dir.lookup archive.name).join) ∧
        ComesFirst (order.enumerate (extract disk.dir archive)).entries archive.name := by
  have hlookup : ((extract disk.dir archive).lookup archive.name).join =
      archive.metaJson.or (disk.dir.lookup archive.name).join := by
    rw [extract, AList.lookup_insert, Option.join_some]
  rw [Returned, importFrom, harchive, ← hlookup]
  exact findImported_iff _

/-- **Import.** The exported snapshot is the one that is answered for exactly if it has metadata and no other snapshot comes
    before it, and in every order exactly if no other is there. -/
theorem import_returns_iff (config : SnapshotConfig) {tar : Pack} {disk disk' : Disk} {snapshotId path : Bytes}
    (hexport : exportTo tar disk snapshotId path = (true, disk')) (dir : SnapshotDir) :
    let metaJson := (disk.dir.lookup snapshotId).join.or (dir.lookup snapshotId).join
    (∀ order, Returned config order { disk' with dir } path snapshotId ↔ ReadableMeta metaJson ∧
      ComesFirst (order.enumerate (dir.insert snapshotId metaJson)).entries snapshotId) ∧
    ((∀ order, Returned config order { disk' with dir } path snapshotId) ↔ ReadableMeta metaJson ∧
      ∀ name, name ≠ snapshotId → (dir.lookup name).join = none) := by
  intro metaJson
  have heach : ∀ order, Returned config order { disk' with dir } path snapshotId ↔ ReadableMeta metaJson ∧
      ComesFirst (order.enumerate (dir.insert snapshotId metaJson)).entries snapshotId := by
    intro order
    have harchive := exportTo_archives hexport
    exact returned_iff config order (show ({ disk' with dir } : Disk).archives path = _ from harchive)
  refine ⟨heach, ?_⟩
  simp only [heach, forall_and]
  have hread : (∀ _ : Order, ReadableMeta metaJson) ↔ ReadableMeta metaJson := ⟨fun h => h (Order.first []), fun h _ => h⟩
  rw [hread, and_congr_right_iff]
  rintro ⟨content, hcontent, -⟩
  have hid : (dir.insert snapshotId metaJson).lookup snapshotId = some (some content) := by
    rw [AList.lookup_insert, hcontent]
  rw [forall_comesFirst_iff hid]
  apply forall₂_congr
  intro name hne
  rw [AList.lookup_insert_ne hne]

def snapshotAt (now : UInt64) : CreateCall := ⟨[], now, true, 77, ascii "abc"⟩

/-- One snapshot and no archive. -/
def oneSnapshot (now : UInt64) : Disk := ⟨(create job ∅ (snapshotAt now)).2, fun _ => none⟩

theorem lookup_oneSnapshot (now : UInt64) :
    (oneSnapshot now).dir.lookup (snapId now) = some (some ((snapshotAt now).content job)) :=
  lookup_create job ∅ (snapshotAt now)

theorem exportTo_oneSnapshot : exportTo .done (oneSnapshot 5) (snapId 5) (ascii "a.tgz") =
    (true, (exportTo .done (oneSnapshot 5) (snapId 5) (ascii "a.tgz")).2) := by
  rw [exportTo, lookup_oneSnapshot]

/-- The archive of it, beside another directory. -/
def exported (dir : SnapshotDir) : Disk := { (exportTo .done (oneSnapshot 5) (snapId 5) (ascii "a.tgz")).2 with dir }

/-- Into an empty directory. -/
theorem import_returns_alone : Returned job (Order.first (snapId 5)) (exported ∅) (ascii "a.tgz") (snapId 5) := by
  have hkeys : ReadableKey timestampKey job.sandboxId ∧ ReadableKey sizeKey job.sandboxId :=
    ⟨readableKey_of_quoteless isKey_timestamp (by decide), readableKey_of_quoteless isKey_size (by decide)⟩
  refine (import_returns_iff job exportTo_oneSnapshot ∅).2.2 ⟨?_, fun name _ => rfl⟩ _
  rw [lookup_oneSnapshot]
  exact ⟨_, rfl, (content_readable_iff job (snapshotAt 5)).2 hkeys⟩

/-- **Another snapshot is answered for** if it was there before and is met first. -/
theorem import_returns_other :
    ¬Returned job (Order.first (snapId 6)) (exported (oneSnapshot 6).dir) (ascii "a.tgz") (snapId 5) := by
  have harchive := exportTo_archives exportTo_oneSnapshot
  change (exported (oneSnapshot 6).dir).archives (ascii "a.tgz") = _ at harchive
  have hne : snapId 6 ≠ snapId 5 := by decide
  have hother : (extract (oneSnapshot 6).dir ⟨snapId 5, ((oneSnapshot 5).dir.lookup (snapId 5)).join⟩).lookup (snapId 6) =
      some (some ((snapshotAt 6).content job)) := by
    rw [extract, AList.lookup_insert_ne hne, lookup_oneSnapshot]
  intro h
  have hfirst := (returned_iff job _ harchive).1 h
  exact not_comesFirst_first hne hother hfirst.2

end RedisOps.Snapshot
