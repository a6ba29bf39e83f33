import RedisOps.Handler.Sandbox

/-!
# Time series (`handler.rs:661-768`)

A series is three keys: the points under `ts:` and its name, the last value and the number of points under `ts:meta:`, its
name and a suffix. The points of a series `meta:a:last` stand where the last value of `a` does, and `ts.list` leaves out
whatever is under `ts:meta:`. `ts_apart_iff`: names apart from these do not interfere.
-/

namespace RedisOps.Handler

open Lib Store Proto

variable {F : Type}

/-! ## Keys -/

/-- The name whose points stand where the last value of `name` does. -/
def lastName (name : String) : String := "meta:" ++ name ++ ":last"
def countName (name : String) : String := "meta:" ++ name ++ ":count"

/-- A name under which the list does not look. -/
def isMeta (name : String) : Bool := startsWith name "meta:"

theorem seriesKey_inj {a b : String} : seriesKey a = seriesKey b ↔ a = b := by
  delta seriesKey
  simp

theorem seriesLastKey_eq (name : String) : seriesLastKey name = seriesKey (lastName name) := by
  delta seriesLastKey seriesKey lastName
  rw [← String.append_assoc, ← String.append_assoc]
  rfl

theorem seriesCountKey_eq (name : String) : seriesCountKey name = seriesKey (countName name) := by
  delta seriesCountKey seriesKey countName
  rw [← String.append_assoc, ← String.append_assoc]
  rfl

theorem seriesLastKey_inj {a b : String} : seriesLastKey a = seriesLastKey b ↔ a = b := by
  delta seriesLastKey
  simp

theorem seriesCountKey_ne_seriesLastKey (a b : String) : seriesCountKey a ≠ seriesLastKey b := by
  intro h
  -- both end in `t`
  have hcount : seriesCountKey a = ("ts:meta:" ++ a ++ ":coun") ++ "t" := by
    rw [String.append_assoc]
    rfl
  have hlast : seriesLastKey b = ("ts:meta:" ++ b ++ ":las") ++ "t" := by
    rw [String.append_assoc]
    rfl
  rw [hcount, hlast, String.append_left_inj] at h
  exact append_ne_append (by decide) (by decide) (by decide) _ _ h

theorem isMeta_lastName (name : String) : isMeta (lastName name) = true := by
  rw [isMeta, lastName, String.append_assoc]
  exact startsWith_append _ _

theorem isMeta_countName (name : String) : isMeta (countName name) = true := by
  rw [isMeta, countName, String.append_assoc]
  exact startsWith_append _ _

/-! ## `ts.add` -/

/-- The series a request adds a point to, when it has the arguments for it. -/
def addedName (F : Type) [F64 F] (q : Request) : Option String :=
  match q.args.tail with
  | name :: ts :: val :: _ =>
    if q.word = some .tsAdd ∧ (parseU64 ts).isSome ∧ (F64.parse (F := F) val).isSome then some name else none
  | _ => none

def addedNames (F : Type) [F64 F] (cmds : List (Nat × Request)) : List String := cmds.filterMap fun c => addedName F c.2

/-- What `ts.add` leaves. -/
def addPoint (s : Data F) (name entry last count : String) : Data F :=
  setStr (setStr (lpush s (seriesKey name) entry) (seriesLastKey name) last) (seriesCountKey name) count

theorem lookup_addPoint_of_ne {s : Data F} {name key : String} (hkey : key ≠ seriesKey name)
    (hlast : key ≠ seriesLastKey name) (hcount : key ≠ seriesCountKey name) (entry last count : String) :
    (addPoint s name entry last count).lookup key = s.lookup key := by
  rw [addPoint, setStr, lookup_insertNew_ne hcount, setStr, lookup_insertNew_ne hlast, lookup_lpush_ne hkey]

section
variable [F64 F]

theorem serve_tsAdd {name : String} {q : Request} (h : addedName F q = some name) (now : Nat) (w : World F) :
    ∃ entry last count, serve now q w = (some (.int 1), { w with store := addPoint w.store name entry last count }) := by
  unfold addedName at h
  split at h
  · rename_i name' ts val labels hargs
    split at h
    · rename_i hadd
      cases h
      obtain ⟨hq, hts, hval⟩ := hadd
      obtain ⟨t, ht⟩ := Option.isSome_iff_exists.1 hts
      obtain ⟨v, hv⟩ := Option.isSome_iff_exists.1 hval
      rw [serve_of_word hq, hargs]
      simp only [handle, tsAdd, parsed, ht, hv]
      exact ⟨_, _, _, rfl⟩
    · cases h
  · cases h

/-- A refused `ts.add` changes nothing. -/
theorem serve_tsAdd_refused {q : Request} (hq : q.word = some .tsAdd) (h : addedName F q = none) (now : Nat)
    (w : World F) : (serve now q w).2 = w := by
  rw [serve_of_word hq]
  unfold addedName at h
  split at h
  · rename_i name ts val labels hargs
    rw [hargs]
    simp only [handle, tsAdd, parsed]
    split at h
    · cases h
    · rename_i hnot
      cases ht : parseU64 ts with
      | none => rfl
      | some t =>
        cases hv : F64.parse (F := F) val with
        | none => rfl
        | some v => exact absurd ⟨hq, by simp [ht], by simp [hv]⟩ hnot
  · rename_i hargs
    simp only [handle]
    unfold tsAdd
    split
    · rename_i name ts val labels heq
      exact absurd heq (hargs name ts val labels)
    · rfl

/-! ## Reading a series -/

/-- A request for the points of a series, or for what is known about it. -/
def ReadsSeries (name : String) (q : Request) : Prop :=
  (q.word = some .tsRange ∨ q.word = some .tsInfo) ∧ q.args.tail.head? = some name

/-- Two stores that hold the same of a series, as far as it is read. -/
structure ReadAlike (now : Nat) (s t : Data F) (name : String) : Prop where
  lrange : ∀ start stop, lrange s (seriesKey name) start stop = lrange t (seriesKey name) start stop
  llen : llen s (seriesKey name) = llen t (seriesKey name)
  last : (getStr now s (seriesLastKey name)).1 = (getStr now t (seriesLastKey name)).1

theorem serve_readsSeries {name : String} {q : Request} (hq : ReadsSeries name q) {now : Nat} {w w' : World F}
    (h : ReadAlike now w.store w'.store name) : (serve now q w).1 = (serve now q w').1 := by
  obtain ⟨hword, hname⟩ := hq
  obtain ⟨rest, hargs⟩ : ∃ rest, q.args.tail = name :: rest := List.head?_eq_some_iff.1 hname
  rcases hword with hword | hword
  · rw [serve_of_word hword, serve_of_word hword, hargs]
    rcases rest with _ | ⟨start, _ | ⟨stop, more⟩⟩
    · rfl
    · rfl
    · simp only [handle, tsRange, parsed]
      cases parseU64 start with
      | none => rfl
      | some start =>
        cases parseU64 stop with
        | none => rfl
        | some stop =>
          simp only [await_def, Prog.op_bind, Prog.ret_bind, Prog.pure_def, Prog.run, exec, h.lrange]
          cases lrange w'.store (seriesKey name) 0 (limitArg more.head? 1000 - 1) <;> rfl
  · rw [serve_of_word hword, serve_of_word hword, hargs]
    cases rest with
    | nil =>
      simp only [handle, tsInfo, await_def, Prog.op_bind, Prog.ret_bind, Prog.pure_def, Prog.run, exec]
      rw [h.llen, h.last]
    | cons x rest => rfl

end

/-! ## The keys of the added series -/

theorem seriesCountKey_inj {a b : String} : seriesCountKey a = seriesCountKey b ↔ a = b := by
  delta seriesCountKey
  simp

section Store
variable {s : Data F}

theorem mem_lpush {k key val : String} : k ∈ lpush s key val ↔ k = key ∨ k ∈ s := by
  unfold lpush
  split
  · rename_i e he
    have hkey : key ∈ s := AList.lookup_isSome.1 (by rw [he]; rfl)
    split
    · rw [setTyp, AList.mem_insert]
    · constructor
      · exact .inr
      · rintro (rfl | h)
        · exact hkey
        · exact h
  · rw [insertNew, AList.mem_insert]

theorem mem_addPoint {k name entry last count : String} : k ∈ addPoint s name entry last count ↔
    (k = seriesKey name ∨ k = seriesLastKey name ∨ k = seriesCountKey name) ∨ k ∈ s := by
  rw [addPoint, setStr, insertNew, AList.mem_insert, setStr, insertNew, AList.mem_insert, mem_lpush]
  tauto

/-- A push does not touch a text. -/
theorem lookup_lpush_str {key : String} (h : ∃ v, s.lookup key = some ⟨.str v, none⟩) (k val : String) :
    ∃ v, (lpush s k val).lookup key = some ⟨.str v, none⟩ := by
  obtain ⟨v, hv⟩ := h
  refine ⟨v, ?_⟩
  by_cases hk : key = k
  · subst hk
    simp only [lpush, hv]
  · rw [lookup_lpush_ne hk, hv]

theorem lookup_addPoint_str {key : String} (h : ∃ v, s.lookup key = some ⟨.str v, none⟩) (name entry last count : String) :
    ∃ v, (addPoint s name entry last count).lookup key = some ⟨.str v, none⟩ :=
  lookup_setStr_str (lookup_setStr_str (lookup_lpush_str h _ _) _ _) _ _

/-- Nothing expires. -/
def Lasting (s : Data F) : Prop := ∀ k e, s.lookup k = some e → e.expAt = none

theorem lasting_insert (h : Lasting s) {e : Entry F} (he : e.expAt = none) (key : String) : Lasting (s.insert key e) := by
  intro k e' hk
  by_cases hkey : k = key
  · subst hkey
    rw [AList.lookup_insert] at hk
    cases hk
    exact he
  · rw [AList.lookup_insert_ne hkey] at hk
    exact h k e' hk

theorem lasting_lpush (h : Lasting s) (key val : String) : Lasting (lpush s key val) := by
  unfold lpush
  split
  · rename_i e he
    split
    · apply lasting_insert h
      exact h key e he
    · exact h
  · exact lasting_insert h rfl key

theorem lasting_addPoint (h : Lasting s) (name entry last count : String) : Lasting (addPoint s name entry last count) :=
  lasting_insert (lasting_insert (lasting_lpush h _ _) rfl _) rfl _

/-- The store after points were added to these series. -/
structure SeriesInv (names : List String) (s : Data F) : Prop where
  last : ∀ n ∈ names, ∃ v, s.lookup (seriesLastKey n) = some ⟨.str v, none⟩
  count : ∀ n ∈ names, ∃ v, s.lookup (seriesCountKey n) = some ⟨.str v, none⟩
  points : ∀ n ∈ names, seriesKey n ∈ s
  only : ∀ k ∈ s, ∃ n ∈ names, k = seriesKey n ∨ k = seriesLastKey n ∨ k = seriesCountKey n
  lasting : Lasting s

/-- **Step.** -/
theorem seriesInv_addPoint {names : List String} (hi : SeriesInv names s) (name entry last count : String) :
    SeriesInv (names ++ [name]) (addPoint s name entry last count) where
  last n hn := by
    rcases List.mem_append.1 hn with hn | hn
    · exact lookup_addPoint_str (hi.last n hn) ..
    · rw [List.mem_singleton.1 hn, addPoint, setStr, lookup_insertNew_ne (seriesCountKey_ne_seriesLastKey _ _).symm]
      exact ⟨last, AList.lookup_insert _⟩
  count n hn := by
    rcases List.mem_append.1 hn with hn | hn
    · exact lookup_addPoint_str (hi.count n hn) ..
    · rw [List.mem_singleton.1 hn]
      exact ⟨count, AList.lookup_insert _⟩
  points n hn := by
    rcases List.mem_append.1 hn with hn | hn
    · exact mem_addPoint.2 (.inr (hi.points n hn))
    · rw [List.mem_singleton.1 hn]
      exact mem_addPoint.2 (.inl (.inl rfl))
  only k hk := by
    rcases mem_addPoint.1 hk with hk | hk
    · exact ⟨name, by simp, hk⟩
    · obtain ⟨n, hn, hkey⟩ := hi.only k hk
      exact ⟨n, List.mem_append_left _ hn, hkey⟩
  lasting := lasting_addPoint hi.lasting name entry last count

end Store

/-- **Run.** -/
theorem seriesInv_serveAll [F64 F] {w : World F} {names : List String} {cmds : List (Nat × Request)}
    (hcmds : ∀ c ∈ cmds, c.2.word = some .tsAdd) (hi : SeriesInv names w.store) :
    SeriesInv (names ++ addedNames F cmds) (serveAll cmds w).2.store := by
  induction cmds generalizing names w with
  | nil => simpa [addedNames, serveAll] using hi
  | cons c cmds ih =>
    obtain ⟨now, q⟩ := c
    obtain ⟨hq, hcmds⟩ := List.forall_mem_cons.1 hcmds
    cases hname : addedName F q with
    | none =>
      have hrefused := serve_tsAdd_refused hq hname now w
      have hnames : addedNames F ((now, q) :: cmds) = addedNames F cmds := by simp [addedNames, hname]
      rw [hnames]
      simp only [serveAll, hrefused]
      exact ih hcmds hi
    | some name =>
      obtain ⟨entry, last, count, hserve⟩ := serve_tsAdd hname now w
      have hnames : addedNames F ((now, q) :: cmds) = name :: addedNames F cmds := by simp [addedNames, hname]
      rw [hnames, List.append_cons]
      simp only [serveAll, hserve]
      exact ih hcmds (seriesInv_addPoint hi ..)

/-! ## The other series -/

section Alike
variable {s : Data F} {names : List String} {a b : String} {now : Nat}

/-- A push changes no text that is read. -/
theorem getStr_lpush (s : Data F) (now : Nat) (key val : String) :
    (getStr now (lpush s key val) key).1 = (getStr now s key).1 := by
  unfold lpush
  split
  · rename_i e he
    split
    · rename_i l hl
      have hexp : Entry.expired now ({ e with typ := .list (val :: l) } : Entry F) = e.expired now := rfl
      simp only [getStr, setTyp, AList.lookup_insert, he, hl, hexp]
    · rfl
  · rename_i he
    simp [getStr, insertNew, he, Entry.expired]

theorem readAlike_of_str (hs : ∃ v, s.lookup (seriesKey b) = some ⟨.str v, none⟩) {t : Data F}
    (ht : ∃ v, t.lookup (seriesKey b) = some ⟨.str v, none⟩)
    (hlast : (getStr now s (seriesLastKey b)).1 = (getStr now t (seriesLastKey b)).1) : ReadAlike now s t b := by
  obtain ⟨v, hv⟩ := hs
  obtain ⟨v', hv'⟩ := ht
  exact ⟨by simp [Store.lrange, hv, hv'], by simp [Store.llen, hv, hv'], hlast⟩

/-- A point of `a` changes nothing of `b`, unless it makes a text of where `b` has its points. -/
theorem readAlike_addPoint (hi : SeriesInv names s) (hne : a ≠ b) (hclash : b = lastName a ∨ b = countName a → a ∈ names)
    (entry last count : String) : ReadAlike now s (addPoint s a entry last count) b := by
  have hlast : (getStr now s (seriesLastKey b)).1 = (getStr now (addPoint s a entry last count) (seriesLastKey b)).1 := by
    have hb : seriesLastKey b ≠ seriesLastKey a := by
      rw [Ne, seriesLastKey_inj]
      exact hne.symm
    by_cases hkey : seriesLastKey b = seriesKey a
    · have hlookup : (addPoint s a entry last count).lookup (seriesLastKey b) =
          (lpush s (seriesKey a) entry).lookup (seriesLastKey b) := by
        rw [addPoint, setStr, lookup_insertNew_ne (seriesCountKey_ne_seriesLastKey _ _).symm, setStr,
          lookup_insertNew_ne hb]
      have hpush := getStr_lpush s now (seriesKey a) entry
      rw [← hkey] at hpush hlookup
      rw [← hpush]
      simp only [getStr, hlookup]
    · simp only [getStr]
      rw [lookup_addPoint_of_ne hkey hb (seriesCountKey_ne_seriesLastKey _ _).symm]
  by_cases hl : b = lastName a
  · have htext := hi.last a (hclash (.inl hl))
    rw [seriesLastKey_eq, ← hl] at htext
    exact readAlike_of_str htext (lookup_addPoint_str htext ..) hlast
  · by_cases hc : b = countName a
    · have htext := hi.count a (hclash (.inr hc))
      rw [seriesCountKey_eq, ← hc] at htext
      exact readAlike_of_str htext (lookup_addPoint_str htext ..) hlast
    · have hlookup : (addPoint s a entry last count).lookup (seriesKey b) = s.lookup (seriesKey b) := by
        apply lookup_addPoint_of_ne
        · rw [Ne, seriesKey_inj]
          exact hne.symm
        · rw [seriesLastKey_eq, Ne, seriesKey_inj]
          exact hl
        · rw [seriesCountKey_eq, Ne, seriesKey_inj]
          exact hc
      exact ⟨by simp [Store.lrange, hlookup], by simp [Store.llen, hlookup], hlast⟩

end Alike

/-! ## `ts.list` -/

def listed (now : Nat) (s : Data F) : List String :=
  ((keys now s).filter fun k => startsWith k "ts:" && !startsWith k "ts:meta:").map fun k => String.ofList (k.toList.drop 3)

theorem serve_tsList [F64 F] {q : Request} (hq : q.word = some .tsList) (now : Nat) (w : World F) :
    (serve now q w).1 = some (strs (listed now w.store)) := by
  rw [serve_of_word hq]
  rfl

theorem startsWith_seriesKey (name : String) : startsWith (seriesKey name) "ts:" = true ∧
    startsWith (seriesKey name) "ts:meta:" = isMeta name := by
  constructor
  · exact startsWith_append _ _
  · simp [startsWith, seriesKey, isMeta]

theorem seriesKey_drop (name : String) : String.ofList ((seriesKey name).toList.drop 3) = name := by
  simp [seriesKey]

theorem eq_seriesKey_of_startsWith {k : String} (h : startsWith k "ts:" = true) :
    k = seriesKey (String.ofList (k.toList.drop 3)) := by
  obtain ⟨rest, hrest⟩ := List.isPrefixOf_iff_prefix.1 h
  have hk : k = "ts:" ++ String.ofList rest := by
    rw [← String.toList_inj, ← hrest]
    simp
  rw [hk]
  exact congrArg seriesKey (seriesKey_drop _).symm

theorem mem_keys_of_lasting {s : Data F} (h : Lasting s) {now : Nat} {k : String} : k ∈ keys now s ↔ k ∈ s := by
  constructor
  · intro hk
    obtain ⟨e, he, rfl⟩ := List.mem_map.1 hk
    exact List.mem_map_of_mem (List.mem_of_mem_filter he)
  · intro hk
    obtain ⟨e, he⟩ := Option.isSome_iff_exists.1 (AList.lookup_isSome.2 hk)
    exact mem_keys he (h k e he)

theorem nodup_keys (now : Nat) (s : Data F) : (keys now s).Nodup :=
  s.keys_nodup.sublist (List.filter_sublist.map _)

theorem nodup_listed (now : Nat) (s : Data F) : (listed now s).Nodup := by
  apply List.Nodup.map_on
  · intro k hk k' hk' heq
    have hts := (Bool.and_eq_true_iff.1 (List.mem_filter.1 hk).2).1
    have hts' := (Bool.and_eq_true_iff.1 (List.mem_filter.1 hk').2).1
    rw [eq_seriesKey_of_startsWith hts, eq_seriesKey_of_startsWith hts', heq]
  · exact (nodup_keys now s).filter _

/-- The list shows the added series, except those under `ts:meta:`. -/
theorem mem_listed {names : List String} {s : Data F} (hi : SeriesInv names s) {now : Nat} {n : String} :
    n ∈ listed now s ↔ n ∈ names ∧ isMeta n = false := by
  constructor
  · intro hn
    obtain ⟨k, hk, hname⟩ := List.mem_map.1 hn
    obtain ⟨hk, hstarts⟩ := List.mem_filter.1 hk
    obtain ⟨hts, hmeta⟩ : startsWith k "ts:" = true ∧ startsWith k "ts:meta:" = false := by simpa using hstarts
    obtain rfl : k = seriesKey n := by rw [eq_seriesKey_of_startsWith hts, hname]
    rw [(startsWith_seriesKey n).2] at hmeta
    obtain ⟨m, hm, hkey⟩ := hi.only _ ((mem_keys_of_lasting hi.lasting).1 hk)
    rw [seriesLastKey_eq, seriesCountKey_eq, seriesKey_inj, seriesKey_inj, seriesKey_inj] at hkey
    rcases hkey with rfl | rfl | rfl
    · exact ⟨hm, hmeta⟩
    · rw [isMeta_lastName] at hmeta
      cases hmeta
    · rw [isMeta_countName] at hmeta
      cases hmeta
  · rintro ⟨hn, hmeta⟩
    refine List.mem_map.2 ⟨seriesKey n, List.mem_filter.2 ⟨?_, ?_⟩, seriesKey_drop n⟩
    · exact (mem_keys_of_lasting hi.lasting).2 (hi.points n hn)
    · rw [(startsWith_seriesKey n).1, (startsWith_seriesKey n).2, hmeta]
      rfl

/-! ## Non-interference -/

section
variable [F64 F] {names : List String} {w w' : World F} {a b : String}

/-- What `b` answers is the same before and after. -/
def Undisturbed (b : String) (w w' : World F) : Prop :=
  ∀ now q, ReadsSeries b q → (serve now q w').1 = (serve now q w).1

/-- `ts.list` shows these names, each once. -/
def Lists (names : List String) (w : World F) : Prop :=
  ∀ now q, q.word = some .tsList → ∃ shown, (serve now q w).1 = some (strs shown) ∧ shown.Nodup ∧ ∀ n, n ∈ shown ↔ n ∈ names

theorem lists_iff (hi : SeriesInv names w.store) : Lists names w ↔ ∀ n ∈ names, isMeta n = false := by
  constructor
  · intro h n hn
    obtain ⟨shown, hserve, -, hmem⟩ := h 0 ⟨0, ["TS.LIST"]⟩ (by decide)
    rw [serve_tsList (by decide)] at hserve
    rw [← strs_inj (Option.some.inj hserve)] at hmem
    exact ((mem_listed hi).1 ((hmem n).2 hn)).2
  · intro hmeta now q hq
    refine ⟨_, serve_tsList hq now w, nodup_listed now _, ?_⟩
    intro n
    rw [mem_listed hi]
    exact and_iff_left_of_imp (hmeta n)

omit [F64 F] in
/-- Nothing stands where a name that clashes with a new one would have its points. -/
theorem lookup_clash {s : Data F} (hi : SeriesInv names s) (hmeta : ∀ n ∈ names, isMeta n = false) (hnew : a ∉ names)
    (hclash : b = lastName a ∨ b = countName a) : s.lookup (seriesKey b) = none := by
  have hb : isMeta b = true := by
    rcases hclash with rfl | rfl
    · exact isMeta_lastName a
    · exact isMeta_countName a
  rw [AList.lookup_eq_none]
  intro hmem
  obtain ⟨n, hn, hkey⟩ := hi.only _ hmem
  rcases hkey with hkey | hkey | hkey
  · rw [seriesKey_inj] at hkey
    rw [hkey, hmeta n hn] at hb
    cases hb
  · rcases hclash with rfl | rfl
    · rw [← seriesLastKey_eq, seriesLastKey_inj] at hkey
      exact hnew (hkey ▸ hn)
    · rw [← seriesCountKey_eq] at hkey
      exact seriesCountKey_ne_seriesLastKey a n hkey
  · rcases hclash with rfl | rfl
    · rw [← seriesLastKey_eq] at hkey
      exact seriesCountKey_ne_seriesLastKey n a hkey.symm
    · rw [← seriesCountKey_eq, seriesCountKey_inj] at hkey
      exact hnew (hkey ▸ hn)

theorem infoText_ne {name last last' : String} :
    "name=" ++ name ++ ",points=" ++ toString (0 : Int64) ++ ",last_value=" ++ last ≠
      "name=" ++ name ++ ",points=" ++ toString (-1 : Int64) ++ ",last_value=" ++ last' := by
  have hzero : toString (0 : Int64) = "0" := by decide
  have hminus : toString (-1 : Int64) = "-1" := by decide
  rw [hzero, hminus]
  intro h
  simp only [String.append_assoc, String.append_right_inj] at h
  have hfirst := congrArg (fun s => s.toList.head?) h
  simp at hfirst

/-- A text appears where `b` would have its points: `ts.info` had counted 0 of them, and now counts -1. -/
theorem disturbed_of_str (hbefore : w.store.lookup (seriesKey b) = none)
    (hafter : ∃ v, w'.store.lookup (seriesKey b) = some ⟨.str v, none⟩) : ¬Undisturbed b w w' := by
  intro h
  obtain ⟨v, hafter⟩ := hafter
  have hq : (⟨0, ["TS.INFO", b]⟩ : Request).word = some .tsInfo := by
    change Word.ofString (toLowercase "TS.INFO") = some .tsInfo
    decide
  have hinfo := h 0 ⟨0, ["TS.INFO", b]⟩ ⟨.inr hq, rfl⟩
  rw [serve_of_word hq, serve_of_word hq] at hinfo
  simp only [List.tail_cons, handle, tsInfo, await_def, Prog.op_bind, Prog.ret_bind, Prog.pure_def, Prog.run, exec,
    Store.llen, hbefore, hafter] at hinfo
  exact infoText_ne (Response.str.inj (Option.some.inj hinfo)).symm

/-- **Non-interference.** After any number of `ts.add`, one more to `a` leaves the answers of `b` as they are and the list
    is that of the added names, exactly when none of them begins with `meta:` and `b` is not one of the two names whose
    points stand where `a` has its last value and its count, `a` being new. -/
theorem ts_apart_iff {w₀ : World F} (h₀ : w₀.store = ∅) {cmds : List (Nat × Request)}
    (hcmds : ∀ c ∈ cmds, c.2.word = some .tsAdd) (hne : a ≠ b) {q : Request} (hq : addedName F q = some a) (now : Nat) :
    Undisturbed b (serveAll cmds w₀).2 (serve now q (serveAll cmds w₀).2).2 ∧
        Lists (addedNames F cmds) (serveAll cmds w₀).2 ↔
      (∀ n ∈ addedNames F cmds, isMeta n = false) ∧ (b = lastName a ∨ b = countName a → a ∈ addedNames F cmds) := by
  have hempty : SeriesInv [] w₀.store := by
    rw [h₀]
    exact ⟨by simp, by simp, by simp, by simp, by simp [Lasting]⟩
  have hi := seriesInv_serveAll hcmds hempty
  rw [List.nil_append] at hi
  obtain ⟨entry, last, count, hserve⟩ := serve_tsAdd hq now (serveAll cmds w₀).2
  rw [lists_iff hi, hserve, and_comm]
  refine and_congr_right ?_
  intro hmeta
  constructor
  · intro hsame hclash
    by_contra hnew
    refine disturbed_of_str (lookup_clash hi hmeta hnew hclash) ?_ hsame
    have hi' := seriesInv_addPoint hi a entry last count
    rcases hclash with rfl | rfl
    · rw [← seriesLastKey_eq]
      exact hi'.last a (by simp)
    · rw [← seriesCountKey_eq]
      exact hi'.count a (by simp)
  · intro hclash now' r hr
    exact (serve_readsSeries hr (readAlike_addPoint hi hne hclash entry last count)).symm

end

/-- Series `a` and `b`. -/
theorem ts_apart_iff_ab :
    let cmds : List (Nat × Request) := [(0, ⟨0, ["TS.ADD", "b", "1", "1"]⟩)]
    let add : Request := ⟨0, ["TS.ADD", "a", "2", "2"]⟩
    let w := (serveAll (F := Float) cmds ⟨∅, {}⟩).2
    Undisturbed "b" w (serve 0 add w).2 ∧ Lists (addedNames Float cmds) w := by
  intro cmds add w
  have hcmds : ∀ c ∈ cmds, c.2.word = some .tsAdd := by decide
  have hadd : addedName Float add = some "a" := by decide
  have hb : addedNames Float cmds = ["b"] := by decide
  have hne : "a" ≠ "b" := by decide
  have h₀ : (⟨∅, {}⟩ : World Float).store = ∅ := rfl
  refine (ts_apart_iff h₀ hcmds hne hadd 0).2 ⟨?_, ?_⟩
  · rw [hb]
    decide
  · rintro (h | h)
    · exact absurd h (by decide)
    · exact absurd h (by decide)

/-- **A point of `a` wipes out the series `meta:a:last`**, which was not listed either. -/
theorem ts_interfere :
    let cmds : List (Nat × Request) := [(0, ⟨0, ["TS.ADD", "meta:a:last", "1", "1"]⟩)]
    let add : Request := ⟨0, ["TS.ADD", "a", "2", "2"]⟩
    let w := (serveAll (F := Float) cmds ⟨∅, {}⟩).2
    addedNames Float cmds = ["meta:a:last"] ∧ addedName Float add = some "a" ∧
      ¬Undisturbed "meta:a:last" w (serve 0 add w).2 ∧ ¬Lists ["meta:a:last"] w := by
  intro cmds add w
  let info : Request := ⟨0, ["TS.INFO", "meta:a:last"]⟩
  let list : Request := ⟨0, ["TS.LIST"]⟩
  have hadded : (⟨0, ["TS.ADD", "meta:a:last", "1", "1"]⟩ : Request).word = some .tsAdd := by decide
  have hadd : add.word = some .tsAdd := by decide
  have hinfo : info.word = some .tsInfo := by decide
  have hlist : list.word = some .tsList := by decide
  refine ⟨by decide, by decide, ?_, ?_⟩
  · intro h
    obtain ⟨last, hbefore⟩ : ∃ last, (serve 0 info w).1 =
        some (.str ("name=meta:a:last,points=1,last_value=" ++ last)) := by
      simp only [w, cmds, serveAll, serve_of_word hadded, serve_of_word hinfo]
      exact ⟨_, rfl⟩
    obtain ⟨last', hafter⟩ : ∃ last', (serve 0 info (serve 0 add w).2).1 =
        some (.str ("name=meta:a:last,points=-1,last_value=" ++ last')) := by
      simp only [w, cmds, serveAll, serve_of_word hadded, serve_of_word hadd, serve_of_word hinfo]
      exact ⟨_, rfl⟩
    have heq := h 0 info ⟨.inr hinfo, rfl⟩
    rw [hbefore, hafter] at heq
    have htext := congrArg String.toList (Response.str.inj (Option.some.inj heq))
    simp at htext
  · intro h
    obtain ⟨shown, hshown, -, hmem⟩ := h 0 list hlist
    have hnone : (serve 0 list w).1 = some (strs []) := by
      simp only [w, cmds, serveAll, serve_of_word hadded, serve_of_word hlist]
      rfl
    rw [hnone] at hshown
    rw [← strs_inj (Option.some.inj hshown)] at hmem
    exact absurd ((hmem "meta:a:last").2 (by simp)) (by simp)

end RedisOps.Handler
