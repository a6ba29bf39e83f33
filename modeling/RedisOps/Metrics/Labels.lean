import RedisOps.Lib.Decimal
import RedisOps.Lib.Find

/-!
# Labels of a metric (`sandbox/src/metrics.cpp:33-45`)

`render_labels` writes `key="value"` for each label and escapes nothing. What is written for several labels can also be read as
one label, with everything up to the last quote for its value (`restAsValue`). So a map of two labels or more is always taken
for another one, and a map of a single label if `="` occurs in its key or in its value: `render_labels_iff`.
-/

namespace RedisOps.Metrics

open Lib

/-- `std::map<std::string, std::string>`: in the order of the keys. -/
structure LabelMap where
  entries : List (Bytes × Bytes)
  sorted : entries.Pairwise fun a b => a.1 < b.1
  deriving DecidableEq

def LabelMap.empty : LabelMap := ⟨[], .nil⟩

def LabelMap.single (key value : Bytes) : LabelMap := ⟨[(key, value)], List.pairwise_singleton _ _⟩

theorem LabelMap.ext_entries {labels labels' : LabelMap} (h : labels.entries = labels'.entries) : labels = labels' := by
  cases labels
  cases labels'
  cases h
  rfl

/-- The loop; `first` is the variable of that name. -/
def labelsText : Bool → List (Bytes × Bytes) → Bytes
  | _, [] => []
  | first, (k, v) :: rest =>
    (if first then [] else ascii ",") ++ (k ++ (ascii "=\"" ++ (v ++ (ascii "\"" ++ labelsText false rest))))

def renderLabels (labels : LabelMap) : Bytes :=
  if labels.entries = [] then [] else ascii "\x7b" ++ (labelsText true labels.entries ++ ascii "\x7d")

/-! ## Everything as one label -/

/-- What stands behind the first opening quote, without the last closing one. -/
def restAsValue : Bytes → List (Bytes × Bytes) → Bytes
  | v, [] => v
  | v, (k', v') :: rest => v ++ (ascii "\"," ++ (k' ++ (ascii "=\"" ++ restAsValue v' rest)))

theorem labelsText_eq (k v : Bytes) (rest : List (Bytes × Bytes)) :
    labelsText true ((k, v) :: rest) = k ++ (ascii "=\"" ++ restAsValue v rest) ++ ascii "\"" := by
  suffices h : v ++ (ascii "\"" ++ labelsText false rest) = restAsValue v rest ++ ascii "\"" by
    simp only [labelsText, if_true, List.nil_append, h, List.append_assoc]
  induction rest generalizing v with
  | nil => simp [labelsText, restAsValue]
  | cons label rest ih =>
    obtain ⟨k', v'⟩ := label
    have hcomma : ascii "\"," = ascii "\"" ++ ascii "," := rfl
    simp only [labelsText, restAsValue, ih v', hcomma, List.append_assoc]
    rfl

theorem labelsText_single (k v : Bytes) (rest : List (Bytes × Bytes)) :
    labelsText true ((k, v) :: rest) = labelsText true [(k, restAsValue v rest)] := by
  rw [labelsText_eq, labelsText_eq]
  rfl

theorem renderLabels_cons {k v : Bytes} {rest : List (Bytes × Bytes)} (sorted : _) :
    renderLabels ⟨(k, v) :: rest, sorted⟩ = renderLabels (.single k (restAsValue v rest)) := by
  rw [renderLabels, renderLabels, if_neg (by simp), if_neg (by simp [LabelMap.single]), LabelMap.single, labelsText_single]

theorem renderLabels_single (k v : Bytes) :
    renderLabels (.single k v) = ascii "\x7b" ++ (k ++ (ascii "=\"" ++ v) ++ ascii "\"" ++ ascii "\x7d") := by
  rw [renderLabels, if_neg (by simp [LabelMap.single]), LabelMap.single, labelsText_eq]
  rfl

/-- Read as one label in two ways, there is a second `="`. -/
theorem key_unique {k v k' v' : Bytes} (hrender : renderLabels (.single k v) = renderLabels (.single k' v'))
    (hk : ¬ascii "=\"" <:+: k) (hv : ¬ascii "=\"" <:+: v) : k = k' ∧ v = v' := by
  rw [renderLabels_single, renderLabels_single] at hrender
  have h := List.append_cancel_right (List.append_cancel_right (List.append_cancel_left hrender))
  have hsep : ascii "=\"" = [61, 34] := rfl
  rw [hsep] at h hk hv
  rcases List.append_eq_append_iff.1 h with ⟨c, hc, hrest⟩ | ⟨c, hc, hrest⟩
  · rcases c with _ | ⟨x, _ | ⟨y, c⟩⟩
    · simp at hc hrest
      exact ⟨hc.symm, hrest⟩
    · simp at hrest
    · simp at hrest
      obtain ⟨rfl, rfl, hvalue⟩ := hrest
      exact absurd ⟨c, v', by simp [hvalue]⟩ hv
  · rcases c with _ | ⟨x, _ | ⟨y, c⟩⟩
    · simp at hc hrest
      exact ⟨hc, hrest.symm⟩
    · simp at hrest
    · simp at hrest
      obtain ⟨rfl, rfl, -⟩ := hrest
      exact absurd ⟨k', c, by simp [hc]⟩ hk

/-! ## Ambiguity -/

/-- No label, or one without another `="` in its key or in its value. -/
def Unambiguous (labels : LabelMap) : Prop :=
  labels = .empty ∨ ∃ k v, labels = .single k v ∧ ¬ascii "=\"" <:+: k ∧ ¬ascii "=\"" <:+: v

theorem infix_restAsValue (v : Bytes) {rest : List (Bytes × Bytes)} (h : rest ≠ []) :
    ascii "=\"" <:+: restAsValue v rest := by
  cases rest with
  | nil => exact absurd rfl h
  | cons label rest =>
    obtain ⟨k', v'⟩ := label
    exact ⟨v ++ (ascii "\"," ++ k'), restAsValue v' rest, by simp [restAsValue]⟩

theorem renderLabels_eq_nil {labels : LabelMap} : renderLabels labels = [] ↔ labels = .empty := by
  constructor
  · intro h
    apply LabelMap.ext_entries
    by_contra hne
    have hne' : ¬labels.entries = [] := hne
    rw [renderLabels, if_neg hne'] at h
    simp [ascii] at h
  · rintro rfl
    rfl

/-- No other map is rendered as an unambiguous one. -/
theorem Unambiguous.eq_of_render {labels labels' : LabelMap} (h : Unambiguous labels)
    (heq : renderLabels labels' = renderLabels labels) : labels' = labels := by
  rcases h with rfl | ⟨k, v, rfl, hk, hv⟩
  · exact renderLabels_eq_nil.1 heq
  · obtain ⟨entries, sorted⟩ := labels'
    cases entries with
    | nil =>
      have hnil := renderLabels_eq_nil.1 heq.symm
      cases hnil
    | cons label rest =>
      obtain ⟨k', v'⟩ := label
      rw [renderLabels_cons] at heq
      obtain ⟨rfl, rfl⟩ := key_unique heq.symm hk hv
      have hrest : rest = [] := by
        by_contra hne
        exact hv (infix_restAsValue v' hne)
      subst hrest
      rfl

theorem eq_of_single {k v k' v' : Bytes} {rest : List (Bytes × Bytes)} {sorted : _}
    (h : LabelMap.single k v = ⟨(k', v') :: rest, sorted⟩) : k = k' ∧ rest = [] := by
  have hentries := congrArg LabelMap.entries h
  simp only [LabelMap.single, List.cons.injEq, Prod.mk.injEq] at hentries
  exact ⟨hentries.1.1, hentries.2.symm⟩

/-- A pair whose text opens a value twice has two readings: the key ends at the one or at the other. -/
theorem render_two_keys (a b v : Bytes) :
    LabelMap.single (a ++ (ascii "=\"" ++ b)) v ≠ .single a (b ++ (ascii "=\"" ++ v)) ∧
      renderLabels (.single (a ++ (ascii "=\"" ++ b)) v) = renderLabels (.single a (b ++ (ascii "=\"" ++ v))) := by
  constructor
  · intro heq
    have hkey := congrArg List.length (eq_of_single heq).1
    simp [ascii] at hkey
  · rw [renderLabels_single, renderLabels_single]
    simp

/-- Another reading of a map that is not. -/
theorem exists_other {labels : LabelMap} (h : ¬Unambiguous labels) :
    ∃ labels', labels' ≠ labels ∧ renderLabels labels' = renderLabels labels := by
  obtain ⟨entries, sorted⟩ := labels
  rcases entries with _ | ⟨⟨k, v⟩, rest⟩
  · exact absurd (.inl rfl) h
  by_cases hrest : rest = []
  · subst hrest
    have hsingle : (⟨[(k, v)], sorted⟩ : LabelMap) = .single k v := rfl
    rw [hsingle] at h ⊢
    by_cases hk : ascii "=\"" <:+: k
    · -- the key ends earlier
      obtain ⟨a, b, rfl⟩ := hk
      obtain ⟨hne, hrender⟩ := render_two_keys a b v
      exact ⟨.single a (b ++ (ascii "=\"" ++ v)), by simpa using hne.symm, by simpa using hrender.symm⟩
    · -- the key ends later
      have hv : ascii "=\"" <:+: v := by
        by_contra hv
        exact h (.inr ⟨k, v, rfl, hk, hv⟩)
      obtain ⟨a, b, rfl⟩ := hv
      obtain ⟨hne, hrender⟩ := render_two_keys k a b
      exact ⟨.single (k ++ (ascii "=\"" ++ a)) b, by simpa using hne, by simpa using hrender⟩
  · refine ⟨.single k (restAsValue v rest), ?_, (renderLabels_cons sorted).symm⟩
    intro heq
    exact hrest (eq_of_single heq).2

/-! ## Without quotes -/

def Quoteless (labels : LabelMap) : Prop := ∀ label ∈ labels.entries, 34 ∉ label.1 ∧ 34 ∉ label.2

theorem labelsText_inj {first : Bool} {rest rest' : List (Bytes × Bytes)} (h : ∀ label ∈ rest, 34 ∉ label.1 ∧ 34 ∉ label.2)
    (h' : ∀ label ∈ rest', 34 ∉ label.1 ∧ 34 ∉ label.2) (heq : labelsText first rest = labelsText first rest') :
    rest = rest' := by
  have hopen : ascii "=\"" = [61] ++ 34 :: [] := rfl
  have hclose : ascii "\"" = 34 :: [] := rfl
  induction rest generalizing first rest' with
  | nil =>
    rcases rest' with _ | ⟨⟨k', v'⟩, rest'⟩
    · rfl
    · simp [labelsText, ascii] at heq
  | cons label rest ih =>
    obtain ⟨k, v⟩ := label
    rcases rest' with _ | ⟨⟨k', v'⟩, rest'⟩
    · simp [labelsText, ascii] at heq
    obtain ⟨⟨hk, hv⟩, hrest⟩ := List.forall_mem_cons.1 h
    obtain ⟨⟨hk', hv'⟩, hrest'⟩ := List.forall_mem_cons.1 h'
    -- up to the first quote stands the key, up to the second one the value
    have hkeys : (k ++ [61]) ++ 34 :: (v ++ 34 :: labelsText false rest) =
        (k' ++ [61]) ++ 34 :: (v' ++ 34 :: labelsText false rest') := by
      have hcut := List.append_cancel_left heq
      simpa only [hopen, hclose, List.append_assoc, List.cons_append, List.nil_append] using hcut
    obtain ⟨hkey, hvalues⟩ := cut_unique (by simp [hk]) (by simp [hk']) hkeys
    obtain ⟨hvalue, htail⟩ : v = v' ∧ labelsText false rest = labelsText false rest' := cut_unique hv hv' hvalues
    rw [List.append_cancel_right hkey, hvalue, ih hrest hrest' htail]

theorem Quoteless.eq_of_render {labels labels' : LabelMap} (h : Quoteless labels) (h' : Quoteless labels')
    (heq : renderLabels labels = renderLabels labels') : labels = labels' := by
  by_cases hempty : labels.entries = []
  · have hlabels : labels = .empty := LabelMap.ext_entries hempty
    rw [hlabels] at heq ⊢
    exact (renderLabels_eq_nil.1 heq.symm).symm
  · by_cases hempty' : labels'.entries = []
    · have hlabels' : labels' = .empty := LabelMap.ext_entries hempty'
      rw [hlabels'] at heq ⊢
      exact renderLabels_eq_nil.1 heq
    · rw [renderLabels, renderLabels, if_neg hempty, if_neg hempty'] at heq
      exact LabelMap.ext_entries (labelsText_inj h h' (List.append_cancel_right (List.append_cancel_left heq)))

/-- **Labels.** A map is rendered as no other one exactly when it is empty or has one label, with no `="` in the key or in the
    value. Of the maps without quotes no two are rendered alike. -/
theorem render_labels_iff (labels : LabelMap) :
    ((∀ labels', labels' ≠ labels → renderLabels labels' ≠ renderLabels labels) ↔ Unambiguous labels) ∧
      (Quoteless labels → ∀ labels', Quoteless labels' → labels' ≠ labels → renderLabels labels' ≠ renderLabels labels) := by
  refine ⟨⟨?_, ?_⟩, ?_⟩
  · intro h
    by_contra hambiguous
    obtain ⟨labels', hne, heq⟩ := exists_other hambiguous
    exact h labels' hne heq
  · intro h labels' hne heq
    exact hne (h.eq_of_render heq)
  · intro h labels' h' hne heq
    exact hne (h'.eq_of_render h heq)

/-- **A value with quotes** is a second label: the target is `web",zone="eu`. -/
theorem value_adds_label :
    let quoted : LabelMap := .single (ascii "target") (ascii "web\",zone=\"eu")
    let two : LabelMap := ⟨[(ascii "target", ascii "web"), (ascii "zone", ascii "eu")], by decide⟩
    quoted ≠ two ∧ renderLabels quoted = renderLabels two ∧
      renderLabels two = ascii "\x7btarget=\"web\",zone=\"eu\"\x7d" := by
  decide

end RedisOps.Metrics
