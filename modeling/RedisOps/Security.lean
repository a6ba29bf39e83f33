import RedisOps.Lib.Decimal
import RedisOps.Lib.Paths

/-!
# The validation of commands (`sandbox/src/security.cpp:104-139`)

| here | there |
| --- | --- |
| `SecurityProfile` | `sandbox/include/devops/security.hpp:11-50` |
| `ValidationResult`, `validateCommand` | `validate_command` (`sandbox/src/security.cpp:104-139`) |
| `filesystem` | `profiles::filesystem` (`:354-364`) |

A command is compared with a path as a text: a path is allowed if its text is a prefix of the command. `allowed_inside_iff` says
when that is right, in the components of the word as it is spelled: which of them stand is a matter of counting. Where the
matched text ends between two components nothing behind it must climb out; with nothing to resolve the one thing missing is the
slash behind the allowed path.

Left out: the other fields of a profile, of which `apply_profile` reads some (`RedisOps/Security/Manager.lean`).
-/

namespace RedisOps.Security

open Lib

structure SecurityProfile where
  name : Bytes
  blockedPaths : List Bytes := []
  allowedPaths : List Bytes := []

structure ValidationResult where
  allowed : Bool
  violations : List Bytes
  deriving DecidableEq

/-- `command.find(path) == 0`. -/
def startsWith (command path : Bytes) : Bool := find command path 0 = some 0

/-- The loop of the blocked paths, which goes on after a violation. -/
def checkBlocked (command : Bytes) (result : ValidationResult) (path : Bytes) : ValidationResult :=
  if startsWith command path then ⟨false, result.violations ++ [ascii "Command in blocked path: " ++ path]⟩ else result

def validateCommand (profiles : Bytes → Option SecurityProfile) (command profileName : Bytes) : ValidationResult :=
  match profiles profileName with
  | none => ⟨false, [ascii "Profile not found: " ++ profileName]⟩
  | some profile =>
    let result : ValidationResult :=
      if profile.allowedPaths ≠ [] ∧ ¬profile.allowedPaths.any (startsWith command) then
        ⟨false, [ascii "Command not in allowed paths"]⟩
      else ⟨true, []⟩
    profile.blockedPaths.foldl (checkBlocked command) result

def filesystem : SecurityProfile :=
  { name := ascii "filesystem"
    allowedPaths := [ascii "/tmp", ascii "/var/tmp", ascii "/data"] }

/-! ## The test on texts -/

/-- What the two loops ask. -/
def Passes (allowedPaths blockedPaths : List Bytes) (command : Bytes) : Prop :=
  (∃ path ∈ allowedPaths, path <+: command) ∧ ∀ path ∈ blockedPaths, ¬path <+: command

@[simp] theorem startsWith_iff {command path : Bytes} : startsWith command path = true ↔ path <+: command := by
  rw [startsWith, decide_eq_true_eq, find_eq_zero_iff]

theorem foldl_checkBlocked (command : Bytes) (paths : List Bytes) (result : ValidationResult) :
    (paths.foldl (checkBlocked command) result).allowed = true ↔
      result.allowed = true ∧ ∀ path ∈ paths, ¬path <+: command := by
  induction paths generalizing result with
  | nil => simp
  | cons path paths ih =>
    rw [List.foldl_cons, ih, checkBlocked]
    by_cases h : path <+: command <;> simp [h]

/-- A command is refused with a violation, and only then. -/
theorem violations_eq_nil_iff (profiles : Bytes → Option SecurityProfile) (command profileName : Bytes) :
    (validateCommand profiles command profileName).violations = [] ↔
      (validateCommand profiles command profileName).allowed = true := by
  have hloop : ∀ (paths : List Bytes) (result : ValidationResult), (result.violations = [] ↔ result.allowed = true) →
      ((paths.foldl (checkBlocked command) result).violations = [] ↔
        (paths.foldl (checkBlocked command) result).allowed = true) := by
    intro paths
    induction paths with
    | nil => exact fun _ h => h
    | cons path paths ih =>
      intro result h
      apply ih
      rw [checkBlocked]
      split
      · simp
      · exact h
  rw [validateCommand]
  split
  · simp
  · apply hloop
    split <;> simp

variable {profiles : Bytes → Option SecurityProfile} {command profileName : Bytes} {profile : SecurityProfile}

theorem validateCommand_iff (hprofile : profiles profileName = some profile) (hne : profile.allowedPaths ≠ []) :
    (validateCommand profiles command profileName).allowed = true ↔
      Passes profile.allowedPaths profile.blockedPaths command := by
  rw [validateCommand, hprofile]
  simp only [foldl_checkBlocked, Passes]
  apply and_congr_left'
  have hany : profile.allowedPaths.any (startsWith command) = true ↔ ∃ path ∈ profile.allowedPaths, path <+: command := by
    simp only [List.any_eq_true, startsWith_iff]
  rw [← hany]
  by_cases h : profile.allowedPaths.any (startsWith command) = true <;> simp [h, hne]

/-! ## The test on paths -/

/-- Up to the first blank. -/
def firstWord (command : Bytes) : Bytes :=
  (command.dropWhile isSpaceByte).takeWhile fun b => !isSpaceByte b

/-- The word is an allowed path or below one, and neither a blocked one nor below one. -/
def Inside (profile : SecurityProfile) (word : Bytes) : Prop :=
  (∃ path ∈ profile.allowedPaths, (resolve path).Contains (resolve word)) ∧
    ∀ path ∈ profile.blockedPaths, ¬(resolve path).Contains (resolve word)

def written (path : Bytes) : Bytes := (resolve path).text

theorem inside_iff (word : Bytes) : Inside profile word ↔
    Passes (profile.allowedPaths.map written) (profile.blockedPaths.map written) (written word) := by
  simp only [Inside, Passes, written, List.mem_map, exists_exists_and_eq_and, forall_exists_index, and_imp,
    forall_apply_eq_imp_iff₂, text_prefix_iff]

/-- The path as it is written out, but for the slash behind it. -/
def Plain (path : Bytes) : Prop := written path = path ++ [47]

theorem plain_cons {path : Bytes} (h : Plain path) : ∃ b rest, path = b :: rest ∧ isSpaceByte b = false := by
  rw [Plain, written, Path.text] at h
  cases path with
  | nil => cases h
  | cons b rest =>
    refine ⟨b, rest, rfl, ?_⟩
    cases habs : (resolve (b :: rest)).absolute with
    | false =>
      rw [habs] at h
      cases (List.cons.inj h).1
      rfl
    | true =>
      rw [habs] at h
      cases (List.cons.inj h).1
      rfl

/-- A command that begins with a plain path begins with its first word. -/
theorem firstWord_starts {path : Bytes} (hplain : Plain path) (h : path <+: command) : firstWord command <+: command := by
  obtain ⟨b, rest, rfl, hb⟩ := plain_cons hplain
  obtain ⟨tail, rfl⟩ := h
  have hdrop : (b :: rest ++ tail).dropWhile isSpaceByte = b :: rest ++ tail := by
    rw [List.cons_append, List.dropWhile_cons_of_neg (by simp [hb])]
  rw [firstWord, hdrop]
  exact List.takeWhile_prefix _

/-- One slash behind both. -/
theorem concat_prefix_concat_iff {path word : Bytes} : path ++ [47] <+: word ++ [47] ↔ word = path ∨ path ++ [47] <+: word := by
  rw [List.prefix_concat_iff, List.append_left_inj, eq_comm]

/-! ## What stands of a word -/

/-- What stands of an absolute path is what the components that stand of the word begin with. -/
def Above (path word : Bytes) : Prop :=
  path.head? = some 47 ∧ standing (path.splitOn 47) <+: standing (word.splitOn 47)

instance (path word : Bytes) : Decidable (Above path word) := inferInstanceAs (Decidable (_ ∧ _))

theorem contains_iff_above {path word : Bytes} (hword : word.head? = some 47) :
    (resolve path).Contains (resolve word) ↔ Above path word := by
  have hkind : (resolve path).absolute = (resolve word).absolute ↔ path.head? = some 47 := by
    simp [resolve, hword]
  unfold Path.Contains Above
  rw [hkind]
  refine and_congr_right fun hpath => ?_
  rw [resolve_parts hpath, resolve_parts hword]

/-- No blank stands in front of a command that begins with an absolute path. -/
theorem firstWord_absolute {path : Bytes} (hpath : path.head? = some 47) (h : path <+: command) :
    (firstWord command).head? = some 47 := by
  obtain ⟨rest, rfl⟩ := h
  obtain ⟨path, rfl⟩ := List.head?_eq_some_iff.1 hpath
  have hslash : isSpaceByte 47 = false := rfl
  simp [firstWord, hslash]

/-- Between two components, and nothing behind climbs out. -/
theorem above_of_boundary {path rest : Bytes} (hpath : path.head? = some 47) (hrest : Stays (rest.splitOn 47)) :
    Above path (path ++ 47 :: rest) := by
  refine ⟨hpath, ?_⟩
  rw [List.splitOn_append_cons_self, standing_append hrest]
  exact List.prefix_append _ _

theorem inside_iff_above (hword : (firstWord command).head? = some 47) : Inside profile (firstWord command) ↔
    (∃ path ∈ profile.allowedPaths, Above path (firstWord command)) ∧
      ∀ path ∈ profile.blockedPaths, ¬Above path (firstWord command) := by
  simp only [Inside, contains_iff_above hword]

/-- With everything written out already. -/
theorem inside_plain_iff (hallowed : ∀ path ∈ profile.allowedPaths, Plain path)
    (hblocked : ∀ path ∈ profile.blockedPaths, Plain path) (hword : Plain (firstWord command))
    (h : Passes profile.allowedPaths profile.blockedPaths command) :
    Inside profile (firstWord command) ↔
      ∃ path ∈ profile.allowedPaths, firstWord command = path ∨ path ++ [47] <+: firstWord command := by
  have hmap : ∀ paths : List Bytes, (∀ path ∈ paths, Plain path) → paths.map written = paths.map (· ++ [47]) :=
    fun paths hplain => List.map_congr_left hplain
  rw [inside_iff, hmap _ hallowed, hmap _ hblocked, hword]
  simp only [Passes, List.mem_map, exists_exists_and_eq_and, forall_exists_index, and_imp, forall_apply_eq_imp_iff₂,
    concat_prefix_concat_iff]
  refine and_iff_left ?_
  -- what is below a blocked path begins with its text
  obtain ⟨⟨allowed, hmem, hstarts⟩, hnone⟩ := h
  have hfirst := firstWord_starts (hallowed allowed hmem) hstarts
  rintro path hpath (heq | hbelow)
  · exact hnone path hpath (heq ▸ hfirst)
  · exact hnone path hpath ((List.prefix_append path [47]).trans (hbelow.trans hfirst))

/-- **Allowed commands stay inside** exactly if, whenever the test lets the command pass, the components that stand of its first
    word begin with those of an allowed path and with those of no blocked one. Of an allowed path they do where its text ends
    between two components of the word and nothing behind it climbs out. With everything written out already, the condition is
    that the word is an allowed path or goes on behind one with a slash. -/
theorem allowed_inside_iff (hprofile : profiles profileName = some profile) (hne : profile.allowedPaths ≠ [])
    (habsolute : ∀ path ∈ profile.allowedPaths, path.head? = some 47) :
    (((validateCommand profiles command profileName).allowed = true → Inside profile (firstWord command)) ↔
      (Passes profile.allowedPaths profile.blockedPaths command →
        (∃ path ∈ profile.allowedPaths, Above path (firstWord command)) ∧
          ∀ path ∈ profile.blockedPaths, ¬Above path (firstWord command))) ∧
    (∀ path ∈ profile.allowedPaths, ∀ rest,
      firstWord command = path ∨ firstWord command = path ++ 47 :: rest ∧ Stays (rest.splitOn 47) →
        Above path (firstWord command)) ∧
    ((∀ path ∈ profile.allowedPaths, Plain path) → (∀ path ∈ profile.blockedPaths, Plain path) → Plain (firstWord command) →
      (((validateCommand profiles command profileName).allowed = true → Inside profile (firstWord command)) ↔
        (Passes profile.allowedPaths profile.blockedPaths command →
          ∃ path ∈ profile.allowedPaths, firstWord command = path ∨ path ++ [47] <+: firstWord command))) := by
  rw [validateCommand_iff hprofile hne]
  refine ⟨?_, ?_, ?_⟩
  · refine forall_congr' fun h => inside_iff_above ?_
    obtain ⟨path, hmem, hstarts⟩ := h.1
    exact firstWord_absolute (habsolute path hmem) hstarts
  · rintro path hmem rest (heq | ⟨heq, hrest⟩) <;> rw [heq]
    · exact ⟨habsolute path hmem, List.prefix_rfl⟩
    · exact above_of_boundary (habsolute path hmem) hrest
  · intro hallowed hblocked hword
    exact forall_congr' fun h => inside_plain_iff hallowed hblocked hword h

/-- The profile of that name and no other. -/
def onlyFilesystem (name : Bytes) : Option SecurityProfile := if name = filesystem.name then some filesystem else none

/-- A word in an allowed directory, on its second way there. -/
theorem allowed_inside_tmp :
    (validateCommand onlyFilesystem (ascii "/tmp/x/../run.sh -x") (ascii "filesystem")).allowed = true ∧
      Inside filesystem (firstWord (ascii "/tmp/x/../run.sh -x")) := by
  have hallowed : (validateCommand onlyFilesystem (ascii "/tmp/x/../run.sh -x") (ascii "filesystem")).allowed = true := by
    decide
  have hprofile : onlyFilesystem (ascii "filesystem") = some filesystem := rfl
  have habsolute : ∀ path ∈ filesystem.allowedPaths, path.head? = some 47 := by decide
  refine ⟨hallowed, (allowed_inside_iff hprofile (by decide) habsolute).1.2 ?_ hallowed⟩
  exact fun _ => ⟨⟨_, List.mem_cons_self, by decide⟩, by decide⟩

/-- **A sibling of an allowed directory and a way out of it are allowed.** -/
theorem sibling_allowed :
    ((validateCommand onlyFilesystem (ascii "/tmpevil/x") (ascii "filesystem")).allowed = true ∧
      ¬Inside filesystem (firstWord (ascii "/tmpevil/x"))) ∧
    (validateCommand onlyFilesystem (ascii "/tmp/../etc/passwd") (ascii "filesystem")).allowed = true ∧
      ¬Inside filesystem (firstWord (ascii "/tmp/../etc/passwd")) := by
  simp only [inside_iff, Passes]
  decide

end RedisOps.Security
