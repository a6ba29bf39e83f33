import RedisOps.BTree.Tree

/-!
# Two descents to a leaf

`find_value` leaves a node by the first separator above the key (`btree.rs:191`), `delete_from` by the
first one not below it (`:475`). In a tree in search order a key equal to a separator is right of it, and
there `delete_from` turns left. `split_leaf` copies the first key of the right half up, so every split
makes such a key.

`delete_agrees_iff`: `delete` answers and does what `get` sees exactly when the key is not stored or no
separator on its search path is the key itself.
-/

namespace RedisOps.BTree

open Lib

variable {K V : Type} [LinearOrder K] {pages : PageId → Option (Node K V)} {h fuel : Nat} {id : PageId} {key : K}

/-! ## Search order -/

/-- The key is in a leaf below the page, at most `h` levels down. -/
def Stored (pages : PageId → Option (Node K V)) : Nat → PageId → K → Prop
  | 0, _, _ => False
  | h + 1, id, key => ∃ n, pages id = some n ∧
      if n.isLeaf then key ∈ n.keys else ∃ c ∈ n.children, Stored pages h c key

/-- Keys left of a separator are below it, keys right of it are not. -/
def Separates (stored : PageId → K → Prop) (n : Node K V) : Prop :=
  ∀ (i : Nat) (s : K) (j : Nat) c key, n.keys[i]? = some s → n.children[j]? = some c → stored c key →
    (j ≤ i → key < s) ∧ (i < j → s ≤ key)

/-- A tree of at most `h` levels in search order. -/
def SearchTree (pages : PageId → Option (Node K V)) : Nat → PageId → Prop
  | 0, _ => False
  | h + 1, id => ∃ n, pages id = some n ∧
      if n.isLeaf then n.keys.Pairwise (· < ·) ∧ n.values.length = n.keys.length
      else n.children.length = n.keys.length + 1 ∧ (∀ c ∈ n.children, SearchTree pages h c) ∧
        Separates (Stored pages h) n

/-- A node on the search path of the key has it as a separator. -/
def OnPath (pages : PageId → Option (Node K V)) : Nat → PageId → K → Prop
  | 0, _, _ => False
  | h + 1, id, key => ∃ n, pages id = some n ∧ n.isLeaf = false ∧
      (key ∈ n.keys ∨ ∃ c, n.children[route n key]? = some c ∧ OnPath pages h c key)

/-- One separator between two children. -/
theorem separates_pair {stored : PageId → K → Prop} {s : K} {a b parent next : PageId}
    (hleft : ∀ key, stored a key → key < s) (hright : ∀ key, stored b key → s ≤ key) :
    Separates stored (⟨false, [s], [], [a, b], parent, next⟩ : Node K V) := by
  intro i s j c key hi hc hk
  match i, j, hi, hc with
  | 0, 0, hi, hc =>
    cases hi
    cases hc
    exact ⟨fun _ => hleft key hk, fun hlt => absurd hlt (Nat.lt_irrefl 0)⟩
  | 0, 1, hi, hc =>
    cases hi
    cases hc
    exact ⟨fun hle => absurd hle (by omega), fun _ => hright key hk⟩

/-! ## Routing in one node -/

omit [LinearOrder K] in
theorem child_le {n : Node K V} {j : Nat} {c : PageId} (hlen : n.children.length = n.keys.length + 1)
    (hc : n.children[j]? = some c) : j ≤ n.keys.length := by
  have := (List.getElem?_eq_some_iff.1 hc).1
  omega

section Route
variable {stored : PageId → K → Prop} {n : Node K V} {j : Nat} {c : PageId}

/-- `get` goes to the child that has the key. -/
theorem Separates.route_eq (hs : Separates stored n) (hlen : n.children.length = n.keys.length + 1)
    (hc : n.children[j]? = some c) (hk : stored c key) : route n key = j :=
  findIdx_eq_of_cut (child_le hlen hc)
    (fun i s hi hij => decide_eq_false (not_lt.2 ((hs i s j c key hi hc hk).2 hij)))
    (fun i s hi hji => decide_eq_true ((hs i s j c key hi hc hk).1 hji))

/-- So does `delete`, unless the key is a separator. -/
theorem Separates.routeDelete_eq (hs : Separates stored n) (hlen : n.children.length = n.keys.length + 1)
    (hc : n.children[j]? = some c) (hk : stored c key) (hsep : key ∉ n.keys) : routeDelete n key = j :=
  findIdx_eq_of_cut (child_le hlen hc)
    (fun i s hi hij => by
      have hle := (hs i s j c key hi hc hk).2 hij
      have hne : s ≠ key := fun he => hsep (he ▸ List.mem_of_getElem? hi)
      exact decide_eq_false (not_le.2 (lt_of_le_of_ne hle hne)))
    (fun i s hi hji => decide_eq_true ((hs i s j c key hi hc hk).1 hji).le)

/-- At a separator `delete` stays left of the key. -/
theorem Separates.routeDelete_ne (hs : Separates stored n)
    (hc : n.children[j]? = some c) (hk : stored c key) (hsep : key ∈ n.keys) : routeDelete n key ≠ j := by
  obtain ⟨i, hi⟩ := List.mem_iff_getElem?.1 hsep
  have hij : i < j := by
    by_contra hle
    exact lt_irrefl key ((hs i key j c key hi hc hk).1 (by omega))
  have hle : routeDelete n key ≤ i := by
    by_contra hlt
    have hbelow := List.not_of_lt_findIdx (not_le.1 hlt)
    rw [(List.getElem?_eq_some_iff.1 hi).2] at hbelow
    simp at hbelow
  omega

end Route

/-! ## Descents -/

/-- The leaf a descent ends at, `pick` choosing the child. -/
def descend (pages : PageId → Option (Node K V)) (pick : Node K V → Nat) : Nat → PageId → Option (PageId × Node K V)
  | 0, _ => none
  | fuel + 1, id => do
    let n ← pages id
    if n.isLeaf then some (id, n)
    else do
      let c ← n.children[pick n]?
      descend pages pick fuel c

theorem run_findValue (db : Db K V) (key : K) : ∀ (fuel : Nat) (id : PageId),
    (findValue fuel id key).run exec db =
      ((descend db.pages (route · key) fuel id).map fun p => slotGet key p.2.keys p.2.values, db)
  | 0, _ => rfl
  | fuel + 1, id => by
    have ih := run_findValue db key fuel
    cases hp : db.pages id with
    | none => simp [findValue, descend, Prog.run, exec, hp]
    | some n =>
      cases hl : n.isLeaf with
      | true =>
        cases hi : slotOf n key <;> simp [findValue, descend, Prog.run, exec, hp, hl, hi, slotGet_eq]
      | false =>
        cases hc : n.children[route n key]? with
        | none => simp [findValue, descend, Prog.run, exec, hp, hl, child, hc]
        | some c => simp [findValue, descend, Prog.run, exec, hp, hl, child, hc, ih]

theorem run_deleteFrom (db : Db K V) (key : K) : ∀ (fuel : Nat) (id : PageId),
    (deleteFrom fuel id key).run exec db =
      match descend db.pages (routeDelete · key) fuel id with
      | some (leaf, _) => (deleteFromLeaf leaf key).run exec db
      | none => (none, db)
  | 0, _ => rfl
  | fuel + 1, id => by
    have ih := run_deleteFrom db key fuel
    cases hp : db.pages id with
    | none => simp [deleteFrom, descend, Prog.run, exec, hp]
    | some n =>
      cases hl : n.isLeaf with
      | true => simp [deleteFrom, descend, Prog.run, exec, hp, hl]
      | false =>
        cases hc : n.children[routeDelete n key]? with
        | none => simp [deleteFrom, descend, Prog.run, exec, hp, hl, child, hc]
        | some c => simp [deleteFrom, descend, Prog.run, exec, hp, hl, child, hc, ih]

omit [LinearOrder K] in
/-- **Inversion.** The page is the leaf, or the descent goes on from one of its children. -/
theorem descend_succ {pick : Node K V → Nat} {fuel : Nat} {id leaf : PageId} {n : Node K V}
    (hd : descend pages pick (fuel + 1) id = some (leaf, n)) : ∃ m, pages id = some m ∧
      ((m.isLeaf = true ∧ id = leaf ∧ m = n) ∨
        (m.isLeaf = false ∧ ∃ c, m.children[pick m]? = some c ∧ descend pages pick fuel c = some (leaf, n))) := by
  cases hp : pages id with
  | none => simp [descend, hp] at hd
  | some m =>
    refine ⟨m, rfl, ?_⟩
    cases hl : m.isLeaf with
    | true => exact .inl (by simpa [descend, hp, hl] using hd)
    | false =>
      cases hc : m.children[pick m]? with
      | none => simp [descend, hp, hl, hc] at hd
      | some c => exact .inr ⟨rfl, c, rfl, by simpa [descend, hp, hl, hc] using hd⟩

omit [LinearOrder K] in
theorem descend_page {pick : Node K V → Nat} : ∀ {fuel : Nat} {id leaf : PageId} {n : Node K V},
    descend pages pick fuel id = some (leaf, n) → pages leaf = some n
  | 0, _, _, _, hd => by cases hd
  | fuel + 1, id, leaf, n, hd => by
    obtain ⟨m, hp, ⟨-, rfl, rfl⟩ | ⟨-, c, -, hd⟩⟩ := descend_succ hd
    · exact hp
    · exact descend_page hd

omit [LinearOrder K] in
/-- Rewriting a leaf changes no descent but the leaf it finds. -/
theorem descend_update (pick : Node K V → Nat) {leaf : PageId} {n n' : Node K V} (hp : pages leaf = some n)
    (hl : n.isLeaf = true) (hl' : n'.isLeaf = true) : ∀ (fuel : Nat) (id : PageId),
    descend (Function.update pages leaf (some n')) pick fuel id =
      (descend pages pick fuel id).map fun p => (p.1, if p.1 = leaf then n' else p.2)
  | 0, _ => rfl
  | fuel + 1, id => by
    have ih := descend_update pick hp hl hl' fuel
    by_cases hid : id = leaf
    · subst hid
      simp [descend, hp, hl, hl']
    · cases hpage : pages id with
      | none => simp [descend, Function.update_of_ne hid, hpage]
      | some m =>
        cases hm : m.isLeaf with
        | true => simp [descend, hpage, hm, hid]
        | false =>
          cases hc : m.children[pick m]? <;> simp [descend, Function.update_of_ne hid, hpage, hm, hc, ih]

/-- What a descent in a tree in search order ends at: a leaf of the tree. -/
structure Lands (pages : PageId → Option (Node K V)) (h : Nat) (id leaf : PageId) (n : Node K V) : Prop where
  page : pages leaf = some n
  isLeaf : n.isLeaf = true
  sorted : n.keys.Pairwise (· < ·)
  len : n.values.length = n.keys.length
  stored : ∀ key ∈ n.keys, Stored pages h id key

theorem SearchTree.descend (pick : Node K V → Nat) (hpick : ∀ n, pick n ≤ n.keys.length) :
    ∀ {h fuel : Nat} {id : PageId}, SearchTree pages h id → h ≤ fuel →
      ∃ leaf n, descend pages pick fuel id = some (leaf, n) ∧ Lands pages h id leaf n
  | 0, _, _, ht, _ => ht.elim
  | h + 1, 0, _, _, hf => by omega
  | h + 1, fuel + 1, id, ⟨n, hp, hn⟩, hf => by
    cases hl : n.isLeaf with
    | true =>
      rw [hl, if_pos rfl] at hn
      refine ⟨id, n, by simp [BTree.descend, hp, hl], hp, hl, hn.1, hn.2, fun key hk => ⟨n, hp, ?_⟩⟩
      rw [hl, if_pos rfl]
      exact hk
    | false =>
      rw [hl, if_neg (by simp)] at hn
      obtain ⟨hlen, htrees, -⟩ := hn
      have hlt : pick n < n.children.length := by
        have := hpick n
        omega
      have hc : n.children[pick n]? = some n.children[pick n] := List.getElem?_eq_getElem hlt
      obtain ⟨leaf, m, hd, hm⟩ := SearchTree.descend pick hpick
        (htrees _ (List.getElem_mem hlt)) (Nat.le_of_succ_le_succ hf)
      refine ⟨leaf, m, by simp [BTree.descend, hp, hl, hc, hd], hm.page, hm.isLeaf, hm.sorted, hm.len,
        fun key hk => ⟨n, hp, ?_⟩⟩
      rw [hl, if_neg (by simp)]
      exact ⟨_, List.getElem_mem hlt, hm.stored key hk⟩

theorem route_le (n : Node K V) (key : K) : route n key ≤ n.keys.length := List.findIdx_le_length

theorem routeDelete_le (n : Node K V) (key : K) : routeDelete n key ≤ n.keys.length := List.findIdx_le_length

/-- An internal node of a tree in search order that stores the key: the child that does. -/
theorem SearchTree.stored_child {n : Node K V} (ht : SearchTree pages (h + 1) id)
    (hk : Stored pages (h + 1) id key) (hp : pages id = some n) (hl : n.isLeaf = false) :
    n.children.length = n.keys.length + 1 ∧ Separates (Stored pages h) n ∧
      ∃ c, n.children[route n key]? = some c ∧ SearchTree pages h c ∧ Stored pages h c key := by
  obtain ⟨n', hp', hn⟩ := ht
  obtain ⟨n'', hp'', hk⟩ := hk
  rw [hp, Option.some.injEq] at hp' hp''
  subst hp' hp''
  rw [hl, if_neg (by simp)] at hn hk
  obtain ⟨hlen, htrees, hsep⟩ := hn
  obtain ⟨c, hc, hk⟩ := hk
  obtain ⟨j, hj⟩ := List.mem_iff_getElem?.1 hc
  refine ⟨hlen, hsep, c, ?_, htrees c hc, hk⟩
  rw [hsep.route_eq hlen hj hk, hj]

/-- `get` finds every stored key. -/
theorem mem_of_descend_route : ∀ {h fuel : Nat} {id leaf : PageId} {n : Node K V}, SearchTree pages h id →
    Stored pages h id key → descend pages (route · key) fuel id = some (leaf, n) → key ∈ n.keys
  | 0, _, _, _, _, ht, _, _ => ht.elim
  | _ + 1, 0, _, _, _, _, _, hd => by cases hd
  | h + 1, fuel + 1, id, leaf, n, ht, hk, hd => by
    have ⟨m, hp, hm⟩ := hk
    cases hl : m.isLeaf with
    | true =>
      rw [hl, if_pos rfl] at hm
      have hd' : id = leaf ∧ m = n := by simpa [descend, hp, hl] using hd
      rwa [← hd'.2]
    | false =>
      obtain ⟨-, -, c, hc, htc, hkc⟩ := ht.stored_child hk hp hl
      have hd' : descend pages (route · key) fuel c = some (leaf, n) := by
        simpa [descend, hp, hl, hc] using hd
      exact mem_of_descend_route htc hkc hd'

/-- Without the key on the path the two descents are one. -/
theorem descend_routeDelete_eq : ∀ {h fuel : Nat} {id : PageId}, SearchTree pages h id →
    Stored pages h id key → ¬ OnPath pages h id key →
      descend pages (routeDelete · key) fuel id = descend pages (route · key) fuel id
  | 0, _, _, ht, _, _ => ht.elim
  | _ + 1, 0, _, _, _, _ => rfl
  | h + 1, fuel + 1, id, ht, hk, hpath => by
    have ⟨m, hp, hm⟩ := hk
    cases hl : m.isLeaf with
    | true => simp [descend, hp, hl]
    | false =>
      obtain ⟨hlen, hsep, c, hc, htc, hkc⟩ := ht.stored_child hk hp hl
      have hmem : key ∉ m.keys := fun hmem => hpath ⟨m, hp, hl, .inl hmem⟩
      have hroute : routeDelete m key = route m key := hsep.routeDelete_eq hlen hc hkc hmem
      have hpath' : ¬ OnPath pages h c key := fun hon => hpath ⟨m, hp, hl, .inr ⟨c, hc, hon⟩⟩
      have ih : descend pages (routeDelete · key) fuel c = descend pages (route · key) fuel c :=
        descend_routeDelete_eq htc hkc hpath'
      simpa [descend, hp, hl, hroute, hc] using ih

/-- With the key on the path `delete` comes to a leaf without it. -/
theorem not_mem_of_descend_routeDelete : ∀ {h fuel : Nat} {id leaf : PageId} {n : Node K V},
    SearchTree pages h id → h ≤ fuel → Stored pages h id key → OnPath pages h id key →
      descend pages (routeDelete · key) fuel id = some (leaf, n) → key ∉ n.keys
  | 0, _, _, _, _, ht, _, _, _, _ => ht.elim
  | _ + 1, 0, _, _, _, _, hf, _, _, _ => by omega
  | h + 1, fuel + 1, id, leaf, n, ht, hf, hk, ⟨m, hp, hl, hon⟩, hd => by
    obtain ⟨hlen, hsep, c, hc, htc, hkc⟩ := ht.stored_child hk hp hl
    by_cases hmem : key ∈ m.keys
    · -- a child left of the one that has the key: were it there too, `get` would find it there
      have hne := hsep.routeDelete_ne hc hkc hmem
      obtain ⟨c', hc'⟩ : ∃ c', m.children[routeDelete m key]? = some c' :=
        ⟨_, List.getElem?_eq_getElem (by have := routeDelete_le m key; omega)⟩
      have htc' : SearchTree pages h c' := by
        obtain ⟨m', hp', hm'⟩ := ht
        rw [hp, Option.some.injEq] at hp'
        subst hp'
        rw [hl, if_neg (by simp)] at hm'
        exact hm'.2.1 c' (List.mem_of_getElem? hc')
      obtain ⟨leaf', n', hd', hlands⟩ := htc'.descend (routeDelete · key) (routeDelete_le · key)
        (Nat.le_of_succ_le_succ hf)
      intro hn
      have heq : n' = n := by
        have : descend pages (routeDelete · key) (fuel + 1) id = some (leaf', n') := by
          simpa [descend, hp, hl, hc'] using hd'
        rw [hd] at this
        cases this
        rfl
      subst heq
      exact hne (hsep.route_eq hlen hc' (hlands.stored key hn)).symm
    · have hroute : routeDelete m key = route m key := hsep.routeDelete_eq hlen hc hkc hmem
      have honc : OnPath pages h c key := by
        obtain ⟨c', hc', hon'⟩ := hon.resolve_left hmem
        rw [hc, Option.some.injEq] at hc'
        rwa [hc']
      have hd' : descend pages (routeDelete · key) fuel c = some (leaf, n) := by
        simpa [descend, hp, hl, hroute, hc] using hd
      exact not_mem_of_descend_routeDelete htc (Nat.le_of_succ_le_succ hf) hkc honc hd'

/-! ## `delete` against `get` -/

section Delete
variable {db : Db K V} {leaf : PageId} {n : Node K V}

theorem run_get (fuel : Nat) (db : Db K V) (key : K) : (get fuel key).run exec db =
    ((descend db.pages (route · key) fuel db.root).map fun p => slotGet key p.2.keys p.2.values, db) :=
  run_findValue db key fuel db.root

/-- The leaf without its `i`-th slot. -/
def eraseSlot (n : Node K V) (i : Nat) : Node K V :=
  { n with keys := n.keys.eraseIdx i, values := n.values.eraseIdx i }

/-- A transaction that left the pages as given. -/
def Db.commit (db : Db K V) (pages : PageId → Option (Node K V)) : Db K V :=
  { db with pages := pages, nextTx := db.nextTx + 1, wal := db.wal ++ [.commit db.nextTx] }

theorem run_get_commit (fuel : Nat) (db : Db K V) (key : K) :
    ((get fuel key).run exec (db.commit db.pages)).1 = ((get fuel key).run exec db).1 := by
  rw [run_get, run_get]
  rfl

theorem run_deleteFromLeaf (hp : db.pages leaf = some n) (key : K) :
    (deleteFromLeaf leaf key).run exec db =
      match slotOf n key with
      | some i => (some true, { db with pages := Function.update db.pages leaf (some (eraseSlot n i)) })
      | none => (some false, db) := by
  cases hi : slotOf n key <;> simp [deleteFromLeaf, Prog.run, exec, hp, hi, eraseSlot]

/-- `delete` by what it finds in the leaf `delete_from` comes to. -/
theorem run_delete (hd : descend db.pages (routeDelete · key) fuel db.root = some (leaf, n))
    (hp : db.pages leaf = some n) : (delete fuel key).run exec db =
      match slotOf n key with
      | some i => (some true, db.commit (Function.update db.pages leaf (some (eraseSlot n i))))
      | none => (some false, db.commit db.pages) := by
  have hdel : (delete fuel key).run exec db =
      (deleteFrom fuel db.root key >>= fun found => await (.appendCommit db.nextTx) >>= fun _ => pure found).run
        exec { db with nextTx := db.nextTx + 1 } := rfl
  have hrun := run_deleteFrom { db with nextTx := db.nextTx + 1 } key fuel db.root
  rw [hd] at hrun
  have hleaf := run_deleteFromLeaf (show ({ db with nextTx := db.nextTx + 1 } : Db K V).pages leaf = some n from hp) key
  rw [hdel, Prog.run_bind, hrun]
  dsimp only
  rw [hleaf]
  cases slotOf n key <;> simp [Prog.run, exec, Db.commit]

/-- The leaf without the key's slot: for every other key it is as before. -/
theorem slotGet_eraseSlot (hlands : Lands db.pages h db.root leaf n) {i : Nat} (hi : slotOf n key = some i)
    (k : K) : slotGet k (eraseSlot n i).keys (eraseSlot n i).values =
      if k = key then none else slotGet k n.keys n.values :=
  slotGet_eraseIdx k (hlands.sorted.imp ne_of_lt) hlands.len hi

theorem run_get_erase_self (hlands : Lands db.pages h db.root leaf n) {i : Nat} (hi : slotOf n key = some i)
    (hd : descend db.pages (route · key) fuel db.root = some (leaf, n)) :
    ((get fuel key).run exec (db.commit (Function.update db.pages leaf (some (eraseSlot n i))))).1 =
      some none := by
  rw [run_get]
  simp only [Db.commit]
  have hl' : (eraseSlot n i).isLeaf = true := hlands.isLeaf
  rw [descend_update _ hlands.page hlands.isLeaf hl', hd]
  simp [slotGet_eraseSlot hlands hi]

theorem run_get_erase_of_ne (hlands : Lands db.pages h db.root leaf n) {i : Nat} (hi : slotOf n key = some i)
    {k : K} (hk : k ≠ key) :
    ((get fuel k).run exec (db.commit (Function.update db.pages leaf (some (eraseSlot n i))))).1 =
      ((get fuel k).run exec db).1 := by
  rw [run_get, run_get]
  simp only [Db.commit]
  have hl' : (eraseSlot n i).isLeaf = true := hlands.isLeaf
  rw [descend_update _ hlands.page hlands.isLeaf hl']
  cases hd : descend db.pages (route · k) fuel db.root with
  | none => rfl
  | some p =>
    by_cases hp : p.1 = leaf
    · have hn : p.2 = n := by
        have := descend_page hd
        rw [hp, hlands.page, Option.some.injEq] at this
        exact this.symm
      simp [hp, hn, slotGet_eraseSlot hlands hi, hk]
    · simp [hp]

/-- What is asked of `delete`: it answers whether `get` found the key, after it `get` does not, and no
    other key is touched. -/
def DeleteAgrees (fuel : Nat) (db : Db K V) (key : K) : Prop :=
  ∃ before found db', ((get fuel key).run exec db).1 = some before ∧
    (delete fuel key).run exec db = (some found, db') ∧ (found = true ↔ before.isSome) ∧
    ((get fuel key).run exec db').1 = some none ∧
    ∀ k, k ≠ key → ((get fuel k).run exec db').1 = ((get fuel k).run exec db).1

/-- **`delete` agrees with `get`**, in every tree in search order, exactly on the keys that are not stored
    below a separator equal to them. -/
theorem delete_agrees_iff (ht : SearchTree db.pages h db.root) (hf : h ≤ fuel) (key : K) :
    DeleteAgrees fuel db key ↔ ¬ (Stored db.pages h db.root key ∧ OnPath db.pages h db.root key) := by
  obtain ⟨leaf, n, hget, hlands⟩ := ht.descend (route · key) (route_le · key) hf
  obtain ⟨leaf', n', hdel, hlands'⟩ := ht.descend (routeDelete · key) (routeDelete_le · key) hf
  have hbefore : ((get fuel key).run exec db).1 = some (slotGet key n.keys n.values) := by rw [run_get, hget]; rfl
  have hrun := run_delete hdel hlands'.page
  by_cases hstored : Stored db.pages h db.root key
  · have hmem : key ∈ n.keys := mem_of_descend_route ht hstored hget
    have hsome : (slotGet key n.keys n.values).isSome := (slotGet_isSome hlands.len).2 hmem
    by_cases hon : OnPath db.pages h db.root key
    · -- the other leaf: `false`, although `get` has the key
      refine iff_of_false ?_ (not_not.2 ⟨hstored, hon⟩)
      rintro ⟨before, found, db', hb, hd, hiff, -⟩
      rw [slotOf_eq_none.2 (not_mem_of_descend_routeDelete ht hf hstored hon hdel)] at hrun
      rw [hbefore, Option.some.injEq] at hb
      rw [hrun, Prod.mk.injEq, Option.some.injEq] at hd
      rw [← hb, ← hd.1, iff_true_right hsome] at hiff
      cases hiff
    · -- the same leaf
      refine iff_of_true ?_ fun hboth => hon hboth.2
      rw [descend_routeDelete_eq ht hstored hon, hget, Option.some.injEq, Prod.mk.injEq] at hdel
      obtain ⟨rfl, rfl⟩ := hdel
      obtain ⟨i, hi⟩ : ∃ i, slotOf n key = some i :=
        Option.ne_none_iff_exists'.1 fun hnone => slotOf_eq_none.1 hnone hmem
      rw [hi] at hrun
      exact ⟨_, _, _, hbefore, hrun, by simp [hsome], run_get_erase_self hlands hi hget,
        fun k hk => run_get_erase_of_ne hlands hi hk⟩
  · -- no leaf has the key
    refine iff_of_true ?_ fun hboth => hstored hboth.1
    have habsent : slotGet key n.keys n.values = none :=
      slotGet_of_not_mem fun hmem => hstored (hlands.stored key hmem)
    rw [slotOf_eq_none.2 fun hmem => hstored (hlands'.stored key hmem)] at hrun
    rw [habsent] at hbefore
    refine ⟨_, _, _, hbefore, hrun, by simp, ?_, fun k _ => run_get_commit fuel db k⟩
    rw [run_get_commit, hbefore]

/-- A root over two leaves. -/
theorem searchTree_pair {pages : PageId → Option (Node K V)} {s : K} {root a b parent next : PageId} {left right : Node K V}
    (hroot : pages root = some ⟨false, [s], [], [a, b], parent, next⟩) (ha : pages a = some left)
    (hb : pages b = some right) (hl : left.isLeaf = true) (hl' : right.isLeaf = true)
    (hsorted : left.keys.Pairwise (· < ·)) (hsorted' : right.keys.Pairwise (· < ·))
    (hlen : left.values.length = left.keys.length) (hlen' : right.values.length = right.keys.length)
    (hleft : ∀ key ∈ left.keys, key < s) (hright : ∀ key ∈ right.keys, s ≤ key) : SearchTree pages 2 root := by
  have hleaf : ∀ {c : PageId} {n : Node K V} {key : K}, pages c = some n → n.isLeaf = true → Stored pages 1 c key →
      key ∈ n.keys := by
    rintro c n key hc hn ⟨m, hm, hk⟩
    rw [hc, Option.some.injEq] at hm
    subst hm
    rwa [if_pos hn] at hk
  refine ⟨_, hroot, rfl, ?_, separates_pair (fun key hk => hleft key (hleaf ha hl hk))
    fun key hk => hright key (hleaf hb hl' hk)⟩
  intro c hc
  rcases List.mem_pair.1 hc with rfl | rfl
  · exact ⟨left, ha, by rw [if_pos hl]; exact ⟨hsorted, hlen⟩⟩
  · exact ⟨right, hb, by rw [if_pos hl']; exact ⟨hsorted', hlen'⟩⟩

/-- Two leaves below a root whose separator is the first key on the right, as a split leaves them. -/
def twoLeaves : Db Key Nat where
  pages := fun id => [none, some ⟨true, [keyOf 1, keyOf 2], [1, 2], [], 0, 2⟩,
    some ⟨true, [keyOf 3, keyOf 4], [3, 4], [], 0, 0⟩, some ⟨false, [keyOf 3], [], [1, 2], 0, 0⟩][id]?.join
  root := 3
  nextPage := 4
  wal := []
  nextTx := 5

theorem searchTree_twoLeaves : SearchTree twoLeaves.pages 2 twoLeaves.root :=
  searchTree_pair rfl rfl rfl rfl rfl (by decide) (by decide) rfl rfl (by decide) (by decide)

theorem delete_agrees_iff_inner : DeleteAgrees 2 twoLeaves (keyOf 2) := by
  apply (delete_agrees_iff searchTree_twoLeaves (Nat.le_refl 2) (keyOf 2)).2
  rintro ⟨-, n, hp, -, hon⟩
  cases hp
  rcases hon with hmem | ⟨c, hc, n, hp, hl, -⟩
  · exact absurd hmem (by decide)
  · cases hc
    cases hp
    cases hl

/-- The key that a split copied up cannot be deleted. -/
theorem separator_not_deleted : SearchTree twoLeaves.pages 2 twoLeaves.root ∧
    ((get 2 (keyOf 3)).run exec twoLeaves).1 = some (some 3) ∧
    ((delete 2 (keyOf 3)).run exec twoLeaves).1 = some false ∧ ¬ DeleteAgrees 2 twoLeaves (keyOf 3) := by
  have hget : ((get 2 (keyOf 3)).run exec twoLeaves).1 = some (some 3) := by decide
  have hdel : ((delete 2 (keyOf 3)).run exec twoLeaves).1 = some false := by decide
  refine ⟨searchTree_twoLeaves, hget, hdel, ?_⟩
  rintro ⟨before, found, db', hb, hd, hiff, -⟩
  rw [hget, Option.some.injEq] at hb
  rw [hd, Option.some.injEq] at hdel
  rw [hdel, ← hb] at hiff
  exact absurd hiff (by decide)

end Delete

end RedisOps.BTree
