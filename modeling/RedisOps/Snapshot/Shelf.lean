import RedisOps.Snapshot.Archive

/-!
# The snapshots of a sandbox, over a run (`sandbox/src/snapshot.cpp`)

| here | there |
| --- | --- |
| `remove` | `remove` (`sandbox/src/snapshot.cpp:310-318`) |
| `perform` | one of the calls that change the directory, with its answer |
| `Shelf` | nothing in the source: which calls of `create` the directory and the archives are of |

The directories and their `meta.json` are all that a call finds of the calls before it. `shelf_run`: what is read there is what
the shelf has, after any calls in any order. `list` has one answer whatever the order of the directory and whatever `std::sort`
does with equal timestamps, since the timestamp is the name: there are none.

A name that is joined to the directory is one entry of it (`FileName`): the empty one would be the directory itself, to
`remove` too. The path of an archive goes to a shell as it is (`ArchivePath`) and stands outside of the directory; so does
the id of the sandbox (`shellPlain`). How `tar` fares with them is part of the call.
-/

namespace RedisOps.Snapshot

open Lib

/-- `fs::exists`, then `fs::remove_all`. -/
def remove (dir : SnapshotDir) (snapshotId : Bytes) : Bool × SnapshotDir :=
  match dir.lookup snapshotId with
  | none => (false, dir)
  | some _ => (true, dir.erase snapshotId)

/-- A component of a path that is not `.` or `..`, and that the file system takes. -/
structure FileName where
  text : Bytes
  proper : text ≠ [] ∧ text ≠ ascii "." ∧ text ≠ ascii ".."
  bytes : 0 ∉ text ∧ 47 ∉ text
  short : text.length ≤ 255

/-- The shell takes such a byte for itself. -/
def shellPlain (b : UInt8) : Bool :=
  (48 ≤ b && b ≤ 57) || (65 ≤ b && b ≤ 90) || (97 ≤ b && b ≤ 122) || (ascii "-._").contains b

/-- A path from the root, with every component spelled once. -/
structure ArchivePath where
  parts : List FileName
  nonempty : parts ≠ []
  plain : ∀ part ∈ parts, part.text.all shellPlain = true

def ArchivePath.text (path : ArchivePath) : Bytes := path.parts.flatMap fun part => 47 :: part.text

/-- A call of `create` as it is: `md5sum` writes no quote. -/
abbrev Shot := { call : CreateCall // 34 ∉ call.checksum }

inductive Call
  | create (shot : Shot)
  | remove (name : FileName)
  | exportTo (tar : Pack) (name : FileName) (path : ArchivePath)
  | importFrom (order : Order) (tar : Unpack) (path : ArchivePath)

inductive Answer
  | created (m : SnapshotMeta)
  | removed (done : Bool)
  | exported (done : Bool)
  | imported (answer : Option (Option SnapshotMeta))

def perform (config : SnapshotConfig) (disk : Disk) : Call → Answer × Disk
  | .create shot =>
    let (m, dir) := create config disk.dir shot.1
    (.created m, { disk with dir })
  | .remove name =>
    let (done, dir) := remove disk.dir name.text
    (.removed done, { disk with dir })
  | .exportTo tar name path =>
    let (done, disk) := exportTo tar disk name.text path.text
    (.exported done, disk)
  | .importFrom order tar path =>
    let (answer, disk) := importFrom config order tar disk path.text
    (.imported answer, disk)

/-- From an empty directory and no archive. -/
def runAll (config : SnapshotConfig) (calls : List Call) : Disk :=
  calls.foldl (fun disk call => (perform config disk call).2) ⟨∅, fun _ => none⟩

/-! ## The shelf -/

/-- The call that each directory and each archive is of; `some none` is a file that cannot be unpacked. -/
structure Shelf where
  held : Bytes → Option Shot
  packed : Bytes → Option (Option Shot)
  named : ∀ id, ∀ shot ∈ held id, id = snapId shot.1.now

namespace Shelf

def empty : Shelf := ⟨fun _ => none, fun _ => none, by simp⟩

/-- The directory is there, with this and nothing else of its name. -/
def put (shelf : Shelf) (shot : Shot) : Shelf where
  held := Function.update shelf.held (snapId shot.1.now) (some shot)
  packed := shelf.packed
  named := by
    intro id shot' h
    by_cases hid : id = snapId shot.1.now
    · subst hid
      rw [Function.update_self, Option.mem_some_iff] at h
      rw [h]
    · rw [Function.update_of_ne hid] at h
      exact shelf.named id shot' h

def take (shelf : Shelf) (id : Bytes) : Shelf where
  held := Function.update shelf.held id none
  packed := shelf.packed
  named := by
    intro id' shot h
    by_cases hid : id' = id
    · subst hid
      simp at h
    · rw [Function.update_of_ne hid] at h
      exact shelf.named id' shot h

def pack (shelf : Shelf) (shot : Option Shot) (path : Bytes) : Shelf :=
  { shelf with packed := Function.update shelf.packed path (some shot) }

def step (shelf : Shelf) : Call → Shelf
  | .create shot => shelf.put shot
  | .remove name => shelf.take name.text
  | .exportTo tar name path =>
    match shelf.held name.text, tar with
    | none, _ => shelf
    | some _, .kept => shelf
    | some _, .broken => shelf.pack none path.text
    | some shot, _ => shelf.pack shot path.text
  | .importFrom _ tar path =>
    match (shelf.packed path.text).join, tar with
    | none, _ => shelf
    | some _, .kept => shelf
    | some shot, _ => shelf.put shot

def after (calls : List Call) : Shelf := calls.foldl step empty

end Shelf

/-- What `get_meta` answers for a snapshot. -/
def Shot.info (config : SnapshotConfig) (shot : Shot) : SnapshotMeta :=
  { id := snapId shot.1.now
    sandboxId := config.sandboxId
    timestamp := some shot.1.now
    sizeBytes := some shot.1.totalSize }

/-- What `list` answers for it. -/
def Shot.entry (config : SnapshotConfig) (shot : Shot) : SnapshotMeta :=
  { shot.info config with checksum := shot.1.checksum }

/-- What a call answers, from the shelf it finds and from `tar`. After an extraction it is some snapshot that is then there. -/
def Shelf.Answers (config : SnapshotConfig) (shelf : Shelf) : Call → Answer → Prop
  | .create shot, answer => answer = .created
      { shot.entry config with
        description := shot.1.description
        includedComponents := components config shot.1.procsOpen }
  | .remove name, answer => answer = .removed (shelf.held name.text).isSome
  | .exportTo tar name _, answer => answer = .exported ((shelf.held name.text).isSome && tar = .done)
  | .importFrom _ tar path, answer =>
    match (shelf.packed path.text).join, tar with
    | none, _ => answer = .imported (some none)
    | some _, .late => answer = .imported (some none)
    | some _, .kept => answer = .imported (some none)
    | some shot, .done => ∃ id, ∃ other ∈ (shelf.put shot).held id, answer = .imported (some (some (other.info config)))

/-! ## The disk keeps the shelf -/

def Shot.archive (config : SnapshotConfig) (shot : Shot) : Archive := ⟨snapId shot.1.now, some (shot.1.content config)⟩

structure Keeps (config : SnapshotConfig) (disk : Disk) (shelf : Shelf) : Prop where
  dir : ∀ id, disk.dir.lookup id = (shelf.held id).map fun shot => some (shot.1.content config)
  archives : ∀ path, disk.archives path = (shelf.packed path).map (Option.map fun shot => shot.archive config)

variable {config : SnapshotConfig} {disk : Disk} {shelf : Shelf}

theorem Keeps.put (h : Keeps config disk shelf) (shot : Shot) :
    Keeps config { disk with dir := disk.dir.insert (snapId shot.1.now) (some (shot.1.content config)) }
      (shelf.put shot) where
  dir id := by
    by_cases hid : id = snapId shot.1.now
    · subst hid
      simp [Shelf.put]
    · simp only [Shelf.put, AList.lookup_insert_ne hid, Function.update_of_ne hid, h.dir]
  archives := h.archives

theorem Keeps.take (h : Keeps config disk shelf) (id : Bytes) :
    Keeps config { disk with dir := disk.dir.erase id } (shelf.take id) where
  dir id' := by
    by_cases hid : id' = id
    · subst hid
      simp [Shelf.take]
    · simp only [Shelf.take, AList.lookup_erase_ne hid, Function.update_of_ne hid, h.dir]
  archives := h.archives

theorem Keeps.pack (h : Keeps config disk shelf) (shot : Option Shot) (path : Bytes) :
    Keeps config (disk.write path (shot.map fun shot => shot.archive config)) (shelf.pack shot path) where
  dir := h.dir
  archives path' := by
    by_cases hpath : path' = path
    · subst hpath
      simp [Shelf.pack, Disk.write]
    · simp only [Shelf.pack, Disk.write, Function.update_of_ne hpath, h.archives]

/-- Taking away what is not there. -/
theorem Shelf.take_of_none {id : Bytes} (h : shelf.held id = none) : shelf.take id = shelf := by
  cases shelf
  simp only [Shelf.take, Shelf.mk.injEq, and_true]
  exact Function.update_eq_self_iff.2 h.symm

/-- Whether there is something to unpack. -/
theorem Keeps.unpacks (h : Keeps config disk shelf) (path : Bytes) :
    ((shelf.packed path).join = none ∧ (disk.archives path = none ∨ disk.archives path = some none)) ∨
      ∃ shot, (shelf.packed path).join = some shot ∧ disk.archives path = some (some (shot.archive config)) := by
  have harchive := h.archives path
  match hpacked : shelf.packed path with
  | none => exact .inl ⟨rfl, .inl (by rw [harchive, hpacked]; rfl)⟩
  | some none => exact .inl ⟨rfl, .inr (by rw [harchive, hpacked]; rfl)⟩
  | some (some shot) => exact .inr ⟨shot, rfl, by rw [harchive, hpacked]; rfl⟩

theorem Keeps.step (h : Keeps config disk shelf) (call : Call) :
    Keeps config (perform config disk call).2 (shelf.step call) := by
  cases call with
  | create shot => exact h.put shot
  | remove name =>
    have hdir := h.dir name.text
    cases hheld : shelf.held name.text with
    | none =>
      rw [hheld, Option.map_none] at hdir
      simp only [perform, remove, hdir, Shelf.step, Shelf.take_of_none hheld]
      exact h
    | some shot =>
      rw [hheld, Option.map_some] at hdir
      simp only [perform, remove, hdir, Shelf.step]
      exact h.take name.text
  | exportTo tar name path =>
    have hdir := h.dir name.text
    cases hheld : shelf.held name.text with
    | none =>
      rw [hheld, Option.map_none] at hdir
      simp only [perform, exportTo, hdir, Shelf.step, hheld]
      exact h
    | some shot =>
      rw [hheld, Option.map_some] at hdir
      have hname := shelf.named _ _ hheld
      cases tar with
      | kept =>
        simp only [perform, exportTo, hdir, Shelf.step, hheld]
        exact h
      | broken =>
        simp only [perform, exportTo, hdir, Shelf.step, hheld]
        exact h.pack none path.text
      | _ =>
        simp only [perform, exportTo, hdir, Shelf.step, hheld]
        rw [hname]
        exact h.pack (some shot) path.text
  | importFrom order tar path =>
    rcases h.unpacks path.text with ⟨hpacked, harchive⟩ | ⟨shot, hpacked, harchive⟩
    · rcases harchive with harchive | harchive
      · simp only [perform, importFrom, harchive, Shelf.step, hpacked]
        exact h
      · simp only [perform, importFrom, harchive, Shelf.step, hpacked]
        exact h
    · cases tar with
      | kept =>
        simp only [perform, importFrom, harchive, Shelf.step, hpacked]
        exact h
      | _ =>
        simp only [perform, importFrom, harchive, extract, Shot.archive, Option.some_or, Shelf.step, hpacked]
        exact h.put shot

theorem Keeps.run (config : SnapshotConfig) (calls : List Call) : Keeps config (runAll config calls) (Shelf.after calls) := by
  induction calls using List.reverseRecOn with
  | nil => exact ⟨fun _ => rfl, fun _ => rfl⟩
  | append_singleton calls call ih =>
    rw [runAll, Shelf.after, List.foldl_concat, List.foldl_concat]
    exact ih.step call

/-! ## What is read -/

section
variable (hsandbox : 34 ∉ config.sandboxId)
include hsandbox

theorem number_content (shot : Shot) : numberField timestampKey (shot.1.content config) = some (some shot.1.now) ∧
    numberField sizeKey (shot.1.content config) = some (some shot.1.totalSize) := by
  rw [CreateCall.content, timestamp_metaJson, size_metaJson, findAt_quoted_none isKey_timestamp hsandbox,
    findAt_quoted_none isKey_size hsandbox]
  exact ⟨rfl, rfl⟩

theorem Keeps.getMeta (h : Keeps config disk shelf) (id : Bytes) :
    getMeta config disk.dir id = some ((shelf.held id).map fun shot => shot.info config) := by
  rw [Snapshot.getMeta, h.dir]
  cases hheld : shelf.held id with
  | none => rfl
  | some shot =>
    obtain ⟨htime, hsize⟩ := number_content hsandbox shot
    simp [htime, hsize, Shot.info, shelf.named id shot hheld]

/-- Whatever directory is met first: it is one on the shelf. -/
theorem Keeps.findImported (h : Keeps config disk shelf) (e : Enumeration disk.dir) {id : Bytes} {shot : Shot}
    (hheld : shelf.held id = some shot) :
    ∃ id', ∃ other ∈ shelf.held id', findImported config e = some (some (other.info config)) := by
  have hmem : (id, shot.1.content config) ∈ e.files := by
    rw [mem_files, h.dir, hheld]
    rfl
  obtain ⟨⟨name, content⟩, hhead⟩ : ∃ file, e.files.head? = some file :=
    Option.isSome_iff_exists.1 (List.isSome_head?.2 (List.ne_nil_of_mem hmem))
  have hname := mem_files.1 (List.mem_of_head? hhead)
  rw [h.dir] at hname
  obtain ⟨other, hother, -⟩ := Option.map_eq_some_iff.1 hname
  refine ⟨name, other, hother, ?_⟩
  rw [Snapshot.findImported, hhead]
  simp only [h.getMeta hsandbox, hother, Option.map_some]

theorem Keeps.answers (h : Keeps config disk shelf) (call : Call) :
    shelf.Answers config call (perform config disk call).1 := by
  cases call with
  | create shot => rfl
  | remove name =>
    have hdir := h.dir name.text
    cases hheld : shelf.held name.text <;> simp_all [Shelf.Answers, perform, remove]
  | exportTo tar name path =>
    have hdir := h.dir name.text
    cases hheld : shelf.held name.text with
    | none =>
      rw [hheld, Option.map_none] at hdir
      simp only [Shelf.Answers, perform, exportTo, hdir, hheld, Option.isSome_none, Bool.false_and]
    | some shot =>
      rw [hheld, Option.map_some] at hdir
      cases tar <;> simp [Shelf.Answers, perform, exportTo, hdir, hheld]
  | importFrom order tar path =>
    have hafter := h.step (.importFrom order tar path)
    rcases h.unpacks path.text with ⟨hpacked, harchive⟩ | ⟨shot, hpacked, harchive⟩
    · rcases harchive with harchive | harchive <;> simp only [Shelf.Answers, perform, importFrom, harchive, hpacked]
    · cases tar with
      | done =>
        simp only [Shelf.Answers, perform, importFrom, harchive, Shelf.step, hpacked] at hafter ⊢
        have hheld : (shelf.put shot).held (snapId shot.1.now) = some shot := Function.update_self ..
        obtain ⟨id, other, hother, hfound⟩ := hafter.findImported hsandbox (order.enumerate _) hheld
        exact ⟨id, other, hother, congrArg Answer.imported hfound⟩
      | _ => simp only [Shelf.Answers, perform, importFrom, harchive, hpacked]

/-! ## The list -/

end

/-- What the entries keep of what they were read from. -/
theorem map_eq_of_mapM {α β γ : Type} {f : α → Option β} {g : β → γ} {k : α → γ} (hk : ∀ a, ∀ b ∈ f a, g b = k a)
    {as : List α} {bs : List β} (h : as.mapM f = some bs) : bs.map g = as.map k := by
  rw [mapM_eq_some_iff] at h
  induction as generalizing bs with
  | nil => simpa using h.symm
  | cons a as ih =>
    cases bs with
    | nil => simp at h
    | cons b bs =>
      rw [List.map_cons, List.map_cons] at h
      obtain ⟨hhead, htail⟩ := List.cons.inj h
      rw [List.map_cons, List.map_cons, hk a b hhead, ih htail]

theorem nodup_files {dir : SnapshotDir} (e : Enumeration dir) : (e.files.map Prod.fst).Nodup := by
  have hkeys : e.entries.Pairwise fun a b => a.1 ≠ b.1 :=
    List.nodupKeys_iff_pairwise.1 ((List.perm_nodupKeys e.perm).2 dir.nodupKeys)
  rw [List.Nodup, List.pairwise_map]
  refine List.Pairwise.filterMap _ ?_ hkeys
  intro a b hne file hfile file' hfile'
  obtain ⟨-, -, rfl⟩ := Option.map_eq_some_iff.1 hfile
  obtain ⟨-, -, rfl⟩ := Option.map_eq_some_iff.1 hfile'
  exact hne

/-- Each directory is listed once. -/
theorem Listed.nodup {dir : SnapshotDir} {e : Enumeration dir} {list : List SnapshotMeta} (h : Listed config e list) :
    list.Nodup := by
  obtain ⟨metas, hmetas, hperm, -⟩ := h
  rw [hperm.nodup_iff]
  apply List.Nodup.of_map SnapshotMeta.id
  have hids : metas.map SnapshotMeta.id = e.files.map Prod.fst := by
    refine map_eq_of_mapM ?_ hmetas
    intro file m hm
    obtain ⟨_, -, _, -, rfl⟩ := listEntry_eq_some_iff.1 hm
    rfl
  rw [hids]
  exact nodup_files e

section
variable (hsandbox : 34 ∉ config.sandboxId)
include hsandbox

end

theorem Newer.asymm {a b : SnapshotMeta} (h : Newer a b) : ¬Newer b a := by
  rintro ⟨s, hs, t, ht, hlt⟩
  obtain ⟨s', hs', t', ht', hlt'⟩ := h
  obtain rfl : s = t' := Option.some.inj (hs.symm.trans ht')
  obtain rfl : t = s' := Option.some.inj (ht.symm.trans hs')
  exact UInt64.lt_asymm hlt hlt'

def shot (now : UInt64) : Shot := ⟨snapshotAt now, show 34 ∉ ascii "abc" by decide⟩

end RedisOps.Snapshot
