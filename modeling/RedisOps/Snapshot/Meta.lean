import Mathlib.Data.List.AList
import RedisOps.Lib.Decimal
import RedisOps.Lib.Find
import RedisOps.Lib.StableSort

/-!
# Snapshots of a sandbox and their metadata (`sandbox/src/snapshot.cpp`)

| here | there |
| --- | --- |
| `SnapshotConfig`, `SnapshotMeta` | `sandbox/include/devops/snapshot.hpp:11-28` |
| `create`, `metaJson` | `sandbox/src/snapshot.cpp:26-103`, the text of `meta.json` at `:91-99` |
| `numberField`, `checksumField` | the searches in `list` and `get_meta` (`:283-295`, `:337-342`) |
| `listEntry`, `Listed` | `list` (`:261-308`) |
| `getMeta` | `get_meta` (`:320-345`) |
| `SnapshotDir` | the directories in `snapshots_dir_`, each with what its `meta.json` holds, if there is one |

The reader searches for a key in quotes and takes what stands so many bytes behind it. A comma is in no key, so the text is searched
between the commas: nothing before the number is hit if the id of the sandbox has no quote (`meta_round_trip`), and the
description comes last. `get_meta` reads no checksum: `get_meta_agrees_iff`.

What a call of `create` saves is left out, but for the size and the checksum of it. An entry of the directory that is not a
directory itself is passed over by every loop, and is left out.
-/

namespace RedisOps.Snapshot

open Lib

/-- The directory of the snapshots and `compress` are read by nothing here. -/
structure SnapshotConfig where
  sandboxId : Bytes
  includeMemory : Bool := true
  includeNetwork : Bool := true
  includeProcesses : Bool := true

/-- `none` is a number that nothing was assigned to. -/
structure SnapshotMeta where
  id : Bytes
  sandboxId : Bytes
  timestamp : Option UInt64 := none
  sizeBytes : Option UInt64 := none
  checksum : Bytes := []
  description : Bytes := []
  includedComponents : List Bytes := []
  deriving DecidableEq

abbrev SnapshotDir := AList fun _ : Bytes => Option Bytes

/-! ## Writing -/

def metaJson (id sandboxId : Bytes) (timestamp sizeBytes : UInt64) (checksum description : Bytes) : Bytes :=
  ascii "\x7b\n        \"id\": \"" ++ id ++
  ascii "\",\n        \"sandbox_id\": \"" ++ sandboxId ++
  ascii "\",\n        \"timestamp\": " ++ toDecimal timestamp.toNat ++
  ascii ",\n        \"size_bytes\": " ++ toDecimal sizeBytes.toNat ++
  ascii ",\n        \"checksum\": \"" ++ checksum ++
  ascii "\",\n        \"description\": \"" ++ description ++
  ascii "\"\n    \x7d"

/-- A call, with what it finds: the milliseconds since the epoch, whether `cgroup.procs` opens, the size of the files that were
    saved and what `calculate_checksum` answers. -/
structure CreateCall where
  description : Bytes
  now : UInt64
  procsOpen : Bool
  totalSize : UInt64
  checksum : Bytes

def snapId (now : UInt64) : Bytes := ascii "snap-" ++ toDecimal now.toNat

/-- What is written to `meta.json`. -/
def CreateCall.content (config : SnapshotConfig) (call : CreateCall) : Bytes :=
  metaJson (snapId call.now) config.sandboxId call.now call.totalSize call.checksum call.description

def components (config : SnapshotConfig) (procsOpen : Bool) : List Bytes :=
  (if config.includeProcesses && procsOpen then [ascii "processes"] else []) ++
  (if config.includeMemory then [ascii "memory"] else []) ++
  (if config.includeNetwork then [ascii "network"] else [])

/-- A second snapshot in one millisecond goes to the same directory. -/
def create (config : SnapshotConfig) (dir : SnapshotDir) (call : CreateCall) : SnapshotMeta × SnapshotDir :=
  let id := snapId call.now
  ({ id := id
     sandboxId := config.sandboxId
     timestamp := some call.now
     sizeBytes := some call.totalSize
     checksum := call.checksum
     description := call.description
     includedComponents := components config call.procsOpen },
   dir.insert id (some (call.content config)))

def createAll (config : SnapshotConfig) (calls : List CreateCall) : SnapshotDir :=
  calls.foldl (fun dir call => (create config dir call).2) ∅

@[simp] theorem lookup_create (config : SnapshotConfig) (dir : SnapshotDir) (call : CreateCall) :
    (create config dir call).2.lookup (snapId call.now) = some (some (call.content config)) := AList.lookup_insert dir

/-! ## Reading -/

def timestampKey : Bytes := ascii "\"timestamp\":"

def sizeKey : Bytes := ascii "\"size_bytes\":"

def checksumKey : Bytes := ascii "\"checksum\":"

/-- `std::stoull(content.substr(pos + 13))`: `none` throws, `some none` found no key. -/
def numberField (key content : Bytes) : Option (Option UInt64) :=
  match find content key 0 with
  | none => some none
  | some pos => (stoull (content.drop (pos + 13))).map some

/-- `npos + 1` is 0, and `npos - start` takes all the rest. -/
def checksumField (content : Bytes) : Bytes :=
  match find content checksumKey 0 with
  | none => []
  | some pos =>
    let start := match find content [34] (pos + 12) with
      | some quote => quote + 1
      | none => 0
    match find content [34] start with
    | some stop => (content.drop start).take (stop - start)
    | none => content.drop start

/-- The loop body of `list`, for a directory with a `meta.json`. -/
def listEntry (config : SnapshotConfig) (name content : Bytes) : Option SnapshotMeta := do
  let timestamp ← numberField timestampKey content
  let sizeBytes ← numberField sizeKey content
  return { id := name, sandboxId := config.sandboxId, timestamp, sizeBytes, checksum := checksumField content }

/-- `none` throws, `some none` is `std::nullopt`. -/
def getMeta (config : SnapshotConfig) (dir : SnapshotDir) (snapshotId : Bytes) : Option (Option SnapshotMeta) :=
  match (dir.lookup snapshotId).join with
  | none => some none
  | some content => do
    let timestamp ← numberField timestampKey content
    let sizeBytes ← numberField sizeKey content
    return some { id := snapshotId, sandboxId := config.sandboxId, timestamp, sizeBytes }

/-- The order in which `fs::directory_iterator` gives the entries: any. -/
structure Enumeration (dir : SnapshotDir) where
  entries : List (Sigma fun _ : Bytes => Option Bytes)
  perm : entries.Perm dir.entries

/-- The directories that have a `meta.json`, in the order in which they are met. -/
def Enumeration.files {dir : SnapshotDir} (e : Enumeration dir) : List (Bytes × Bytes) :=
  e.entries.filterMap fun entry => entry.2.map (Prod.mk entry.1)

/-- The comparison of the sort. Nothing is said about numbers that were not assigned. -/
def Newer (a b : SnapshotMeta) : Prop := ∃ s ∈ a.timestamp, ∃ t ∈ b.timestamp, t < s

/-- What `list` may answer: `std::sort` leaves equal timestamps in any order. -/
def Listed (config : SnapshotConfig) {dir : SnapshotDir} (e : Enumeration dir) (list : List SnapshotMeta) : Prop :=
  ∃ metas, e.files.mapM (fun file => listEntry config file.1 file.2) = some metas ∧ list.Perm metas ∧
    list.Pairwise fun a b => ¬Newer b a

/-! ## The text between the commas -/

def quoted (text : Bytes) : Bytes := 34 :: (text ++ [34])

theorem quoted_append (text rest : Bytes) : quoted text ++ rest = 34 :: (text ++ 34 :: rest) := by
  simp [quoted]

/-- A field, the comma behind it and the rest. -/
def field (label : String) (value rest : Bytes) : Bytes := ascii label ++ 32 :: (value ++ 44 :: rest)

/-- What follows the two ids. -/
def fields (timestamp sizeBytes : UInt64) (checksum description : Bytes) : Bytes :=
  field "\n        \"timestamp\":" (toDecimal timestamp.toNat) <|
  field "\n        \"size_bytes\":" (toDecimal sizeBytes.toNat) <|
  field "\n        \"checksum\":" (quoted checksum) <|
  ascii "\n        \"description\": \"" ++ description ++ ascii "\"\n    \x7d"

theorem metaJson_eq (id sandboxId : Bytes) (timestamp sizeBytes : UInt64) (checksum description : Bytes) :
    metaJson id sandboxId timestamp sizeBytes checksum description =
      field "\x7b\n        \"id\":" (quoted id) (field "\n        \"sandbox_id\":" (quoted sandboxId)
        (fields timestamp sizeBytes checksum description)) := by
  simp [metaJson, fields, field, quoted, ascii, charByte]

/-- What the searches rest on. -/
structure IsKey (key : Bytes) : Prop where
  comma : 44 ∉ key
  blank : 32 ∉ key
  colon : 58 ∈ key
  word : ∃ w, key = 34 :: (w ++ [34, 58])
  idLabel : findAt key (ascii "\x7b\n        \"id\":") = none
  sandboxLabel : findAt key (ascii "\n        \"sandbox_id\":") = none

theorem isKey_timestamp : IsKey timestampKey :=
  ⟨by decide, by decide, by decide, ⟨ascii "timestamp", rfl⟩, by decide, by decide⟩

theorem isKey_size : IsKey sizeKey :=
  ⟨by decide, by decide, by decide, ⟨ascii "size_bytes", rfl⟩, by decide, by decide⟩

theorem isKey_checksum : IsKey checksumKey :=
  ⟨by decide, by decide, by decide, ⟨ascii "checksum", rfl⟩, by decide, by decide⟩

section
variable {key : Bytes} (hkey : IsKey key) {label : String} {value rest : Bytes} {n : Nat}
include hkey

theorem behind_field_skip (hlabel : findAt key (ascii label) = none) (hvalue : findAt key value = none) (n : Nat)
    (rest : Bytes) : behind key n (field label value rest) = behind key n rest := by
  rw [field, behind_skip hkey.blank hlabel, behind_skip hkey.comma hvalue]

theorem findAt_quoted_none {text : Bytes} (htext : 34 ∉ text) : findAt key (quoted text) = none := by
  obtain ⟨w, rfl⟩ := hkey.word
  exact findAt_quoted_eq_none w htext

theorem findAt_digits_none (v : UInt64) : findAt key (toDecimal v.toNat) = none := by
  exact findAt_eq_none hkey.colon (not_mem_toDecimal rfl _)

theorem findAt_snapId_none (now : UInt64) : findAt key (quoted (snapId now)) = none := by
  apply findAt_quoted_none hkey
  intro hmem
  rcases List.mem_append.1 hmem with hname | hdigits
  · exact absurd hname (by decide)
  · exact not_mem_toDecimal rfl _ hdigits

/-- A key in a quoted text is not its end. -/
theorem add_length_lt_quoted {text : Bytes} {i : Nat} (hi : findAt key (quoted text) = some i) :
    i + key.length < (quoted text).length := by
  obtain ⟨front, back, heq, rfl⟩ := findAt_eq_some hi
  obtain ⟨w, rfl⟩ := hkey.word
  have hback : back ≠ [] := by
    rintro rfl
    have hlast : (34 :: text) ++ [34] = (front ++ 34 :: (w ++ [34])) ++ [58] := by simpa [quoted] using heq
    obtain ⟨-, hquote⟩ := List.append_inj' hlast rfl
    exact absurd hquote (by decide)
  have hpos := List.length_pos_iff.2 hback
  rw [heq, List.length_append, List.length_append]
  omega

/-- The first occurrence is in the id of the sandbox, or behind it. -/
theorem behind_metaJson (hn : n ≤ key.length + 1) (now sizeBytes : UInt64) (sandboxId checksum description : Bytes) :
    behind key n (metaJson (snapId now) sandboxId now sizeBytes checksum description) =
      match findAt key (quoted sandboxId) with
      | none => behind key n (fields now sizeBytes checksum description)
      | some i => some ((quoted sandboxId).drop (i + n) ++ 44 :: fields now sizeBytes checksum description) := by
  rw [metaJson_eq, behind_field_skip hkey hkey.idLabel (findAt_snapId_none hkey now)]
  cases hfind : findAt key (quoted sandboxId) with
  | none => exact behind_field_skip hkey hkey.sandboxLabel hfind _ _
  | some i =>
    have hlt := add_length_lt_quoted hkey hfind
    rw [field, behind_skip hkey.blank hkey.sandboxLabel, behind_inside hkey.comma hfind (by omega)]

end

theorem behind_timestamp (timestamp sizeBytes : UInt64) (checksum description : Bytes) :
    ∃ rest, behind timestampKey 13 (fields timestamp sizeBytes checksum description) =
      some (toDecimal timestamp.toNat ++ 44 :: rest) := by
  have hlabel : findAt timestampKey (ascii "\n        \"timestamp\":") = some 9 := by decide
  exact ⟨_, behind_last isKey_timestamp.blank hlabel rfl _⟩

/-- Nothing is passed over behind this key: the number has a blank before it. -/
theorem behind_size (timestamp sizeBytes : UInt64) (checksum description : Bytes) :
    ∃ rest, behind sizeKey 13 (fields timestamp sizeBytes checksum description) =
      some (32 :: (toDecimal sizeBytes.toNat ++ 44 :: rest)) := by
  have hbefore : findAt sizeKey (ascii "\n        \"timestamp\":") = none := by decide
  have hlabel : findAt sizeKey (ascii "\n        \"size_bytes\":") = some 9 := by decide
  rw [fields, behind_field_skip isKey_size hbefore (findAt_digits_none isKey_size _)]
  exact ⟨_, behind_inside isKey_size.blank hlabel (Nat.le_refl _) _⟩

theorem behind_checksum (timestamp sizeBytes : UInt64) (checksum description : Bytes) :
    ∃ rest, behind checksumKey 12 (fields timestamp sizeBytes checksum description) =
      some (quoted checksum ++ 44 :: (ascii "\n        \"description\": \"" ++ rest)) := by
  have htime : findAt checksumKey (ascii "\n        \"timestamp\":") = none := by decide
  have hsize : findAt checksumKey (ascii "\n        \"size_bytes\":") = none := by decide
  have hlabel : findAt checksumKey (ascii "\n        \"checksum\":") = some 9 := by decide
  rw [fields, behind_field_skip isKey_checksum htime (findAt_digits_none isKey_checksum _),
    behind_field_skip isKey_checksum hsize (findAt_digits_none isKey_checksum _)]
  refine ⟨description ++ ascii "\"\n    \x7d", ?_⟩
  rw [field, behind_last isKey_checksum.blank hlabel rfl, List.append_assoc]

/-! ## What is read -/

theorem listEntry_eq (config : SnapshotConfig) (name : Bytes) {content : Bytes} {timestamp sizeBytes : Option UInt64}
    (htime : numberField timestampKey content = some timestamp) (hsize : numberField sizeKey content = some sizeBytes) :
    listEntry config name content = some
      { id := name
        sandboxId := config.sandboxId
        timestamp := timestamp
        sizeBytes := sizeBytes
        checksum := checksumField content } := by
  simp [listEntry, htime, hsize]

theorem numberField_eq (key content : Bytes) : numberField key content =
    match behind key 13 content with
    | none => some none
    | some text => (stoull text).map some := by
  rw [numberField, find_zero, behind]
  cases findAt key content <;> rfl

/-- The number is the one written, unless the key stands in the id of the sandbox. -/
theorem numberField_metaJson {key : Bytes} (hkey : IsKey key) (hn : 13 ≤ key.length + 1) {v now sizeBytes : UInt64} {checksum description : Bytes}
    {blank rest : Bytes} (hblank : ∀ b ∈ blank, isSpaceByte b = true)
    (hread : behind key 13 (fields now sizeBytes checksum description) = some (blank ++ (toDecimal v.toNat ++ 44 :: rest)))
    (sandboxId : Bytes) :
    numberField key (metaJson (snapId now) sandboxId now sizeBytes checksum description) =
      match findAt key (quoted sandboxId) with
      | none => some (some v)
      | some i => (stoull ((quoted sandboxId).drop (i + 13))).map some := by
  have hcomma : NoDigitFirst (44 :: rest) := by
    intro b hb
    cases hb
    rfl
  rw [numberField_eq, behind_metaJson hkey hn]
  cases findAt key (quoted sandboxId) with
  | none => simp only [hread, stoull_toDecimal_append v hblank hcomma, Option.map_some]
  | some i => simp only [stoull_append_stop (q := 44) rfl rfl (by decide) (by decide)]

theorem timestamp_metaJson (sandboxId : Bytes) (now sizeBytes : UInt64) (checksum description : Bytes) :
    numberField timestampKey (metaJson (snapId now) sandboxId now sizeBytes checksum description) =
      match findAt timestampKey (quoted sandboxId) with
      | none => some (some now)
      | some i => (stoull ((quoted sandboxId).drop (i + 13))).map some := by
  obtain ⟨rest, hread⟩ := behind_timestamp now sizeBytes checksum description
  exact numberField_metaJson isKey_timestamp (by decide) (List.forall_mem_nil _) hread sandboxId

theorem size_metaJson (sandboxId : Bytes) (now sizeBytes : UInt64) (checksum description : Bytes) :
    numberField sizeKey (metaJson (snapId now) sandboxId now sizeBytes checksum description) =
      match findAt sizeKey (quoted sandboxId) with
      | none => some (some sizeBytes)
      | some i => (stoull ((quoted sandboxId).drop (i + 13))).map some := by
  obtain ⟨rest, hread⟩ := behind_size now sizeBytes checksum description
  have hblank : ∀ b ∈ [32], isSpaceByte b = true := List.forall_mem_singleton.2 rfl
  exact numberField_metaJson isKey_size (by decide) hblank hread sandboxId

/-- The string between the next two quotes. -/
theorem checksumField_eq {content gap body : Bytes} (h : behind checksumKey 12 content = some (gap ++ 34 :: body))
    (hgap : 34 ∉ gap) : checksumField content = upTo 34 body := by
  obtain ⟨pos, hpos, hdrop⟩ := Option.map_eq_some_iff.1 h
  obtain ⟨front, hfront, hlen⟩ : ∃ front, content = front ++ (gap ++ 34 :: body) ∧ front.length = pos + 12 := by
    have hlt := congrArg List.length hdrop
    rw [List.length_drop, List.length_append, List.length_cons] at hlt
    exact ⟨content.take (pos + 12), by rw [← hdrop, List.take_append_drop], List.length_take_of_le (by omega)⟩
  have hstart : find content [34] (pos + 12) = some (gap.length + (pos + 12)) := by
    rw [hfront, find_append _ _ hlen, findAt_append hgap, findAt_of_starts (by simp)]
    simp
  have hsplit : content = (front ++ (gap ++ [34])) ++ body := by simp [hfront]
  have hbody : (front ++ (gap ++ [34])).length = gap.length + (pos + 12) + 1 := by
    simp [hlen]
    omega
  have hrest : content.drop (gap.length + (pos + 12) + 1) = body := by rw [hsplit, List.drop_left' hbody]
  have hstop : find content [34] (gap.length + (pos + 12) + 1) =
      (findAt [34] body).map (· + (gap.length + (pos + 12) + 1)) := by
    rw [hsplit, find_append _ _ hbody]
  rw [checksumField, find_zero, hpos]
  simp only [hstart, hstop, hrest]
  rw [← take_findAt]
  cases findAt [34] body with
  | none => rfl
  | some i => simp

/-- Where the checksum is read: what was written, or what follows the key in the id of the sandbox. -/
def checksumText (sandboxId checksum : Bytes) : Bytes :=
  match findAt checksumKey (quoted sandboxId) with
  | none => quoted checksum
  | some i => (quoted sandboxId).drop (i + 12)

/-- The next label follows, and its name is not empty. -/
theorem behind_checksum_metaJson (sandboxId : Bytes) (now sizeBytes : UInt64) (checksum description : Bytes) :
    ∃ b rest, b ≠ 34 ∧ behind checksumKey 12 (metaJson (snapId now) sandboxId now sizeBytes checksum description) =
      some (checksumText sandboxId checksum ++ 44 :: (ascii "\n        " ++ 34 :: b :: rest)) := by
  rw [behind_metaJson isKey_checksum (by decide), checksumText]
  cases findAt checksumKey (quoted sandboxId) with
  | none =>
    obtain ⟨rest, hread⟩ := behind_checksum now sizeBytes checksum description
    exact ⟨100, ascii "escription\": \"" ++ rest, by decide, hread⟩
  | some i => exact ⟨116, _, by decide, rfl⟩

theorem checksum_metaJson {sandboxId checksum : Bytes} (hsandbox : 34 ∉ sandboxId) (hchecksum : 34 ∉ checksum)
    (now sizeBytes : UInt64) (description : Bytes) :
    checksumField (metaJson (snapId now) sandboxId now sizeBytes checksum description) = checksum := by
  obtain ⟨b, rest, -, hread⟩ := behind_checksum_metaJson sandboxId now sizeBytes checksum description
  simp only [checksumText, findAt_quoted_none isKey_checksum hsandbox, quoted_append] at hread
  have hempty : 34 ∉ ([] : Bytes) := List.not_mem_nil
  rw [checksumField_eq hread hempty, upTo_append hchecksum]

/-- **Round trip.** What `list` reads from the text that `create` has written is what was written. -/
theorem meta_round_trip (config : SnapshotConfig) (dir : SnapshotDir) (call : CreateCall) (hsandbox : 34 ∉ config.sandboxId)
    (hchecksum : 34 ∉ call.checksum) :
    ∃ content m, (create config dir call).2.lookup (snapId call.now) = some (some content) ∧
      listEntry config (snapId call.now) content = some m ∧
      m.timestamp = some call.now ∧ m.sizeBytes = some call.totalSize ∧ m.checksum = call.checksum := by
  have htime := timestamp_metaJson config.sandboxId call.now call.totalSize call.checksum call.description
  have hsize := size_metaJson config.sandboxId call.now call.totalSize call.checksum call.description
  simp only [findAt_quoted_none isKey_timestamp hsandbox] at htime
  simp only [findAt_quoted_none isKey_size hsandbox] at hsize
  have hentry := listEntry_eq config (snapId call.now) htime hsize
  rw [checksum_metaJson hsandbox hchecksum] at hentry
  exact ⟨_, _, lookup_create config dir call, hentry, rfl, rfl, rfl⟩

def job : SnapshotConfig := { sandboxId := ascii "job" }

/-- A description that looks like the fields. -/
theorem meta_round_trip_description :
    let call : CreateCall := ⟨ascii "\", \"timestamp\": 9, \"checksum\": \"", 5, true, 77, ascii "abc"⟩
    ∃ content m, (create job ∅ call).2.lookup (snapId 5) = some (some content) ∧ listEntry job (snapId 5) content = some m ∧
      m.timestamp = some 5 ∧ m.sizeBytes = some 77 ∧ m.checksum = ascii "abc" :=
  meta_round_trip job ∅ ⟨_, 5, true, 77, ascii "abc"⟩ (by decide) (by decide)

/-! ## The list of the snapshots -/

/-- A loop whose body may throw. -/
theorem mapM_eq_some_iff {α β : Type} {f : α → Option β} {as : List α} {bs : List β} :
    as.mapM f = some bs ↔ as.map f = bs.map some := by
  induction as generalizing bs with
  | nil => cases bs <;> simp
  | cons a as ih =>
    cases bs with
    | nil => simp [List.mapM_cons, Option.bind_eq_some_iff]
    | cons b bs => simp [List.mapM_cons, Option.bind_eq_some_iff, ih]

section
variable {config : SnapshotConfig} {dir : SnapshotDir} {e : Enumeration dir} {list : List SnapshotMeta}

theorem mem_files {name content : Bytes} : (name, content) ∈ e.files ↔ dir.lookup name = some (some content) := by
  rw [Enumeration.files, List.mem_filterMap, ← Option.mem_def, AList.mem_lookup_iff]
  constructor
  · rintro ⟨⟨name', content'⟩, hmem, heq⟩
    obtain ⟨content'', hcontent, hpair⟩ := Option.map_eq_some_iff.1 heq
    cases hpair
    cases hcontent
    exact e.perm.mem_iff.1 hmem
  · intro hmem
    exact ⟨⟨name, some content⟩, e.perm.mem_iff.2 hmem, rfl⟩

/-- An entry of the list is a directory with a `meta.json`. -/
theorem Listed.mem_iff (h : Listed config e list) {m : SnapshotMeta} :
    m ∈ list ↔ ∃ name content, dir.lookup name = some (some content) ∧ listEntry config name content = some m := by
  obtain ⟨metas, hmetas, hperm, -⟩ := h
  have hmem : m ∈ metas ↔ some m ∈ e.files.map fun file => listEntry config file.1 file.2 := by
    rw [mapM_eq_some_iff.1 hmetas]
    simp
  rw [hperm.mem_iff, hmem, List.mem_map]
  constructor
  · rintro ⟨⟨name, content⟩, hfile, hentry⟩
    exact ⟨name, content, mem_files.1 hfile, hentry⟩
  · rintro ⟨name, content, hfile, hentry⟩
    exact ⟨⟨name, content⟩, mem_files.2 hfile, hentry⟩

/-- `list` answers exactly when no entry throws. -/
theorem exists_listed_iff (config : SnapshotConfig) (e : Enumeration dir) : (∃ list, Listed config e list) ↔
    ∀ name content, dir.lookup name = some (some content) → (listEntry config name content).isSome := by
  constructor
  · rintro ⟨list, metas, hmetas, -⟩ name content hfile
    have hmem : listEntry config name content ∈ metas.map some := by
      rw [← mapM_eq_some_iff.1 hmetas]
      exact List.mem_map_of_mem (f := fun file : Bytes × Bytes => listEntry config file.1 file.2) (mem_files.2 hfile)
    obtain ⟨m, -, hm⟩ := List.mem_map.1 hmem
    rw [← hm, Option.isSome_some]
  · intro h
    obtain ⟨metas, hmetas⟩ : ∃ metas : List SnapshotMeta,
        e.files.map (fun file => listEntry config file.1 file.2) = metas.map some := by
      refine ⟨e.files.filterMap fun file => listEntry config file.1 file.2, ?_⟩
      rw [List.map_filterMap_some_eq_filter_map_isSome, List.filter_eq_self.2]
      intro entry hentry
      obtain ⟨⟨name, content⟩, hfile, rfl⟩ := List.mem_map.1 hentry
      exact h name content (mem_files.1 hfile)
    let newest : SnapshotMeta → ℕᵒᵈ := fun m => OrderDual.toDual (m.timestamp.getD 0).toNat
    have hsorted : StablySorted newest metas _ := stablySorted_mergeSort metas
    refine ⟨_, metas, mapM_eq_some_iff.2 hmetas, hsorted.perm, hsorted.sorted.imp ?_⟩
    rintro a b hle ⟨s, hs, t, ht, hlt⟩
    simp only [Option.mem_def] at hs ht
    simp only [newest, hs, ht, Option.getD_some, OrderDual.toDual_le_toDual] at hle
    exact absurd hle (by simpa [UInt64.lt_iff_toNat_lt] using hlt)

/-! ## `get_meta` against `list` -/

/-- The fields of the two answers. -/
def SameMeta (m n : SnapshotMeta) : Prop :=
  m.id = n.id ∧ m.sandboxId = n.sandboxId ∧ m.timestamp = n.timestamp ∧ m.sizeBytes = n.sizeBytes ∧ m.checksum = n.checksum

/-- `get_meta` answers, `list` answers in every order of the directory, and has one entry of that id: the same. -/
def GetMetaAgrees (config : SnapshotConfig) (dir : SnapshotDir) (id : Bytes) : Prop :=
  ∃ m, getMeta config dir id = some (some m) ∧ ∀ e : Enumeration dir, (∃ list, Listed config e list) ∧
    ∀ list, Listed config e list → (∃ n ∈ list, n.id = id) ∧ ∀ n ∈ list, n.id = id → SameMeta m n

theorem listEntry_eq_some_iff {name content : Bytes} {m : SnapshotMeta} : listEntry config name content = some m ↔
    ∃ timestamp, numberField timestampKey content = some timestamp ∧
      ∃ sizeBytes, numberField sizeKey content = some sizeBytes ∧
        ({ id := name
           sandboxId := config.sandboxId
           timestamp := timestamp
           sizeBytes := sizeBytes
           checksum := checksumField content } : SnapshotMeta) = m := by
  simp [listEntry, Option.bind_eq_some_iff]

theorem getMeta_eq_some_iff {id content : Bytes} {m : SnapshotMeta} (hfile : dir.lookup id = some (some content)) :
    getMeta config dir id = some (some m) ↔
      ∃ timestamp, numberField timestampKey content = some timestamp ∧
        ∃ sizeBytes, numberField sizeKey content = some sizeBytes ∧
          ({ id := id
             sandboxId := config.sandboxId
             timestamp := timestamp
             sizeBytes := sizeBytes } : SnapshotMeta) = m := by
  simp [getMeta, hfile, Option.bind_eq_some_iff]

/-- The one thing that `get_meta` does not read is the checksum. -/
theorem getMetaAgrees_iff {id content : Bytes} (hfile : dir.lookup id = some (some content)) :
    GetMetaAgrees config dir id ↔
      (∀ name content, dir.lookup name = some (some content) → (listEntry config name content).isSome) ∧
        checksumField content = [] := by
  constructor
  · rintro ⟨m, hm, hall⟩
    obtain ⟨⟨list, hlist⟩, hentries⟩ := hall ⟨dir.entries, .refl _⟩
    obtain ⟨⟨n, hn, hid⟩, hsame⟩ := hentries list hlist
    refine ⟨(exists_listed_iff config _).1 ⟨list, hlist⟩, ?_⟩
    obtain ⟨name, content', hfile', hentry⟩ := hlist.mem_iff.1 hn
    obtain ⟨_, _, _, _, rfl⟩ := listEntry_eq_some_iff.1 hentry
    obtain ⟨_, _, _, _, rfl⟩ := (getMeta_eq_some_iff hfile).1 hm
    obtain ⟨-, -, -, -, hchecksum⟩ := hsame _ hn hid
    obtain rfl : name = id := hid
    obtain rfl : content' = content := by simpa [hfile'] using hfile
    exact hchecksum.symm
  · rintro ⟨hread, hblank⟩
    obtain ⟨n, hn⟩ := Option.isSome_iff_exists.1 (hread id content hfile)
    obtain ⟨timestamp, htime, sizeBytes, hsize, rfl⟩ := listEntry_eq_some_iff.1 hn
    refine ⟨_, (getMeta_eq_some_iff hfile).2 ⟨timestamp, htime, sizeBytes, hsize, rfl⟩, ?_⟩
    intro e
    refine ⟨(exists_listed_iff config e).2 hread, ?_⟩
    intro list hlist
    refine ⟨⟨_, hlist.mem_iff.2 ⟨id, content, hfile, hn⟩, rfl⟩, ?_⟩
    intro n' hn' hid
    obtain ⟨name, content', hfile', hentry⟩ := hlist.mem_iff.1 hn'
    obtain ⟨_, htime', _, hsize', rfl⟩ := listEntry_eq_some_iff.1 hentry
    obtain rfl : name = id := hid
    obtain rfl : content' = content := by simpa [hfile'] using hfile
    rw [htime] at htime'
    rw [hsize] at hsize'
    cases htime'
    cases hsize'
    exact ⟨rfl, rfl, rfl, rfl, hblank.symm⟩

end

/-! ## Snapshots that were created -/

theorem createAll_concat (config : SnapshotConfig) (calls : List CreateCall) (call : CreateCall) :
    createAll config (calls ++ [call]) = (create config (createAll config calls) call).2 := List.foldl_concat ..

theorem snapId_injective {now now' : UInt64} (h : snapId now = snapId now') : now = now' :=
  UInt64.toNat_inj.1 (toDecimal_injective (List.append_cancel_left h))

theorem exists_call_of_lookup {config : SnapshotConfig} {calls : List CreateCall} {name content : Bytes}
    (h : (createAll config calls).lookup name = some (some content)) : ∃ call : CreateCall, content = call.content config := by
  induction calls using List.reverseRecOn with
  | nil => cases h
  | append_singleton calls call ih =>
    rw [createAll_concat] at h
    by_cases hname : name = snapId call.now
    · rw [hname, lookup_create] at h
      cases h
      exact ⟨call, rfl⟩
    · rw [create, AList.lookup_insert_ne hname] at h
      exact ih h

/-- The last snapshot of a millisecond is the one that is kept. -/
theorem lookup_createAll (config : SnapshotConfig) (before : List CreateCall) (call : CreateCall) {behind : List CreateCall}
    (hlast : ∀ c ∈ behind, c.now ≠ call.now) :
    (createAll config (before ++ call :: behind)).lookup (snapId call.now) = some (some (call.content config)) := by
  induction behind using List.reverseRecOn with
  | nil => rw [createAll_concat, lookup_create]
  | append_singleton behind c ih =>
    have hne : snapId call.now ≠ snapId c.now := fun h => hlast c (by simp) (snapId_injective h).symm
    rw [← List.cons_append, ← List.append_assoc, createAll_concat, create, AList.lookup_insert_ne hne]
    exact ih fun c' hc' => hlast c' (List.mem_append_left _ hc')

/-- If the key stands in the id of the sandbox, a number stands behind it. -/
def ReadableKey (key sandboxId : Bytes) : Prop :=
  ∀ i ∈ findAt key (quoted sandboxId), (stoull ((quoted sandboxId).drop (i + 13))).isSome

/-- The string in quotes that is read as the checksum is empty. -/
def BlankChecksum (sandboxId checksum : Bytes) : Prop :=
  ((checksumText sandboxId checksum).dropWhile (· ≠ 34)).take 2 = [34, 34]

theorem content_readable_iff (config : SnapshotConfig) (call : CreateCall) :
    ((numberField timestampKey (call.content config)).isSome ∧ (numberField sizeKey (call.content config)).isSome) ↔
      ReadableKey timestampKey config.sandboxId ∧ ReadableKey sizeKey config.sandboxId := by
  have hnumber : ∀ (key content : Bytes) (v : UInt64),
      (numberField key content = match findAt key (quoted config.sandboxId) with
        | none => some (some v)
        | some i => (stoull ((quoted config.sandboxId).drop (i + 13))).map some) →
      ((numberField key content).isSome ↔ ReadableKey key config.sandboxId) := by
    intro key content v h
    rw [h, ReadableKey]
    cases findAt key (quoted config.sandboxId) <;> simp
  have htime := hnumber _ _ _ (timestamp_metaJson config.sandboxId call.now call.totalSize call.checksum call.description)
  have hsize := hnumber _ _ _ (size_metaJson config.sandboxId call.now call.totalSize call.checksum call.description)
  rw [← htime, ← hsize, CreateCall.content]

theorem listEntry_isSome_iff (config : SnapshotConfig) (name content : Bytes) :
    (listEntry config name content).isSome ↔
      (numberField timestampKey content).isSome ∧ (numberField sizeKey content).isSome := by
  rw [listEntry]
  cases numberField timestampKey content with
  | none => simp
  | some timestamp => cases numberField sizeKey content <;> simp

theorem checksum_blank_iff (config : SnapshotConfig) (call : CreateCall) :
    checksumField (call.content config) = [] ↔ BlankChecksum config.sandboxId call.checksum := by
  obtain ⟨b, rest, hb, hread⟩ := behind_checksum_metaJson config.sandboxId call.now call.totalSize call.checksum
    call.description
  rw [BlankChecksum, CreateCall.content]
  generalize checksumText config.sandboxId call.checksum = text at hread
  by_cases hquote : 34 ∈ text
  · obtain ⟨gap, body, rfl, hgap⟩ := List.eq_append_cons_of_mem hquote
    rw [List.append_assoc, List.cons_append] at hread
    rw [checksumField_eq hread hgap, dropWhile_ne_append hgap]
    cases body with
    | nil => simp [upTo_cons_eq_nil_iff]
    | cons c body => simp [upTo_cons_eq_nil_iff]
  · -- the next string is the name of the next label
    have hgap : 34 ∉ text ++ 44 :: ascii "\n        " := by
      rw [List.mem_append, not_or]
      exact ⟨hquote, by decide⟩
    rw [← List.cons_append, ← List.append_assoc] at hread
    rw [checksumField_eq hread hgap, upTo_cons_eq_nil_iff, List.dropWhile_eq_nil_iff.2 (forall_ne_of_not_mem hquote)]
    simp [hb]

theorem readableKey_of_quoteless {key sandboxId : Bytes} (hkey : IsKey key) (hsandbox : 34 ∉ sandboxId) :
    ReadableKey key sandboxId := by
  rw [ReadableKey, findAt_quoted_none hkey hsandbox]
  simp

/-- Without quotes: nothing was written. -/
theorem blankChecksum_iff {sandboxId checksum : Bytes} (hsandbox : 34 ∉ sandboxId) (hchecksum : 34 ∉ checksum) :
    BlankChecksum sandboxId checksum ↔ checksum = [] := by
  rw [BlankChecksum, checksumText, findAt_quoted_none isKey_checksum hsandbox, quoted]
  cases checksum with
  | nil => simp
  | cons b checksum =>
    have hb : b ≠ 34 := fun h => hchecksum (h ▸ List.mem_cons_self)
    simp [hb]

/-- **`get_meta` agrees with `list`** on a snapshot exactly when `list` can read them all and reads no checksum. -/
theorem get_meta_agrees_iff (config : SnapshotConfig) (before : List CreateCall) (call : CreateCall)
    {behind : List CreateCall} (hlast : ∀ c ∈ behind, c.now ≠ call.now) :
    GetMetaAgrees config (createAll config (before ++ call :: behind)) (snapId call.now) ↔
      ReadableKey timestampKey config.sandboxId ∧ ReadableKey sizeKey config.sandboxId ∧
        BlankChecksum config.sandboxId call.checksum := by
  have hfile := lookup_createAll config before call hlast
  rw [getMetaAgrees_iff hfile, checksum_blank_iff, ← and_assoc]
  apply and_congr_left'
  simp only [listEntry_isSome_iff]
  constructor
  · intro hread
    exact (content_readable_iff config call).1 (hread _ _ hfile)
  · intro hkeys name content hname
    obtain ⟨call', rfl⟩ := exists_call_of_lookup hname
    exact (content_readable_iff config call').2 hkeys

/-- A snapshot whose files gave no checksum, and one with a checksum. -/
theorem get_meta_agrees_blank :
    GetMetaAgrees job (createAll job [⟨[], 5, true, 77, []⟩, ⟨[], 6, true, 78, ascii "abc"⟩]) (snapId 5) :=
  (get_meta_agrees_iff job [] ⟨[], 5, true, 77, []⟩ (by decide)).2
    ⟨readableKey_of_quoteless isKey_timestamp (by decide), readableKey_of_quoteless isKey_size (by decide),
     (blankChecksum_iff (by decide) (by decide)).2 rfl⟩

/-- **`get_meta` forgets the checksum.** -/
theorem get_meta_without_checksum :
    ¬GetMetaAgrees job (createAll job [⟨[], 6, true, 78, ascii "abc"⟩]) (snapId 6) := by
  intro h
  have hfile := lookup_createAll job [] ⟨[], 6, true, 78, ascii "abc"⟩ (List.forall_mem_nil _)
  have hblank := (checksum_blank_iff job ⟨[], 6, true, 78, ascii "abc"⟩).1 ((getMetaAgrees_iff hfile).1 h).2
  exact absurd ((blankChecksum_iff (by decide) (by decide)).1 hblank) (by decide)

end RedisOps.Snapshot
