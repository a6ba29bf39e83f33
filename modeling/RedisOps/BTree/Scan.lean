import RedisOps.BTree.Delete

/-!
# Scanning and counting (`redisdb/src/btree/btree.rs:155-165, 525-573`)

`scan_range` goes through the children of a node from left to right and leaves out those whose separator is not above
`start`; the last child has no separator and is always visited. `end` is looked at in the leaves only.

| here | there |
| --- | --- |
| `scanSeparators`, `scanRange`, `scan` | the loop of `scan_range`, `scan_range`, `scan` |
| `countChildren`, `countKeys`, `count` | the loop of `count_keys`, `count_keys`, `count` |

`scan_exact`: on every tree in search order the scan is the list of its entries within the bounds, in order. The order of
the keys is any; of byte strings it is that of slices, and bounds shorter than a key, as those of
`TimeSeriesDB::init` (`series.rs:39`), are byte strings too.
-/

namespace RedisOps.BTree

open Lib

section Defs
variable {K V : Type} [LinearOrder K]

/-- The loop over the separators from the `i`-th on; `visit` is the recursive call. -/
def scanSeparators (visit : PageId → List (K × V) → Task K V (List (K × V))) (node : Node K V) (start : K) :
    Nat → List K → List (K × V) → Task K V (List (K × V))
  | _, [], results => pure results
  | i, k :: ks, results =>
    if start < k then do
      let c ← child node i
      let results ← visit c results
      scanSeparators visit node start (i + 1) ks results
    else scanSeparators visit node start (i + 1) ks results

def scanRange : Nat → PageId → K → K → List (K × V) → Task K V (List (K × V))
  | 0, _, _, _, _ => .fail
  | fuel + 1, id, start, stop, results => do
    let node ← await (.getPage id)
    if node.isLeaf then
      pure (results ++ (node.keys.zip node.values).filter fun kv => start ≤ kv.1 ∧ kv.1 ≤ stop)
    else do
      let results ← scanSeparators (fun c => scanRange fuel c start stop) node start 0 node.keys results
      let c ← child node node.keys.length
      scanRange fuel c start stop results

def scan (fuel : Nat) (start stop : K) : Task K V (List (K × V)) := do
  let root ← await .readRoot
  scanRange fuel root start stop []

end Defs

section Count
variable {K V : Type}

/-- The loop over the children `is`. -/
def countChildren (visit : PageId → Task K V Nat) (node : Node K V) : List Nat → Nat → Task K V Nat
  | [], count => pure count
  | i :: is, count => do
    let c ← child node i
    let n ← visit c
    countChildren visit node is (count + n)

def countKeys : Nat → PageId → Task K V Nat
  | 0, _ => .fail
  | fuel + 1, id => do
    let node ← await (.getPage id)
    if node.isLeaf then pure node.keys.length
    else countChildren (countKeys fuel) node (List.range (node.keys.length + 1)) 0

def count (fuel : Nat) : Task K V Nat := do
  let root ← await .readRoot
  countKeys fuel root

/-- The entries of the leaves below the page, at most `h` levels down, from left to right. -/
def entries (pages : PageId → Option (Node K V)) : Nat → PageId → List (K × V)
  | 0, _ => []
  | h + 1, id =>
    match pages id with
    | none => []
    | some n => if n.isLeaf then n.keys.zip n.values else n.children.flatMap (entries pages h)

end Count

variable {K V : Type} [LinearOrder K] {pages : PageId → Option (Node K V)} {h fuel : Nat} {id : PageId} {db : Db K V}

/-! ## The entries of a tree in search order -/

/-- **Inversion.** A leaf, or a node over trees that its separators keep apart. -/
theorem SearchTree.entries_cases (ht : SearchTree pages (h + 1) id) : ∃ n, pages id = some n ∧
    (n.isLeaf = true ∧ n.keys.Pairwise (· < ·) ∧ n.values.length = n.keys.length ∧
        entries pages (h + 1) id = n.keys.zip n.values ∨
      n.isLeaf = false ∧ n.children.length = n.keys.length + 1 ∧ (∀ c ∈ n.children, SearchTree pages h c) ∧
        Separates (Stored pages h) n ∧ entries pages (h + 1) id = n.children.flatMap (entries pages h)) := by
  obtain ⟨n, hp, hn⟩ := ht
  refine ⟨n, hp, ?_⟩
  cases hl : n.isLeaf with
  | true =>
    rw [hl, if_pos rfl] at hn
    exact .inl ⟨rfl, hn.1, hn.2, by simp [entries, hp, hl]⟩
  | false =>
    rw [hl, if_neg (by simp)] at hn
    exact .inr ⟨rfl, hn.1, hn.2.1, hn.2.2, by simp [entries, hp, hl]⟩

omit [LinearOrder K] in
theorem stored_of_mem_entries : ∀ {h : Nat} {id : PageId} {kv : K × V}, kv ∈ entries pages h id → Stored pages h id kv.1
  | 0, _, _, hmem => by cases hmem
  | h + 1, id, kv, hmem => by
    rw [entries] at hmem
    cases hp : pages id with
    | none => simp [hp] at hmem
    | some n =>
      refine ⟨n, hp, ?_⟩
      cases hl : n.isLeaf with
      | true =>
        simp only [hp, hl, if_true] at hmem
        exact (List.of_mem_zip hmem).1
      | false =>
        simp only [hp, hl, Bool.false_eq_true, if_false, List.mem_flatMap] at hmem
        obtain ⟨c, hc, hmem⟩ := hmem
        exact ⟨c, hc, stored_of_mem_entries hmem⟩

/-- The key of every leaf slot is the key of an entry. -/
theorem exists_entry_of_stored : ∀ {h : Nat} {id : PageId} {key : K}, SearchTree pages h id → Stored pages h id key →
    ∃ value, (key, value) ∈ entries pages h id
  | 0, _, _, ht, _ => ht.elim
  | h + 1, id, key, ht, ⟨m, hpm, hm⟩ => by
    obtain ⟨n, hp, ⟨hl, -, hlen, hent⟩ | ⟨hl, -, htrees, -, hent⟩⟩ := ht.entries_cases
    · rw [hp, Option.some.injEq] at hpm
      subst hpm
      rw [hl, if_pos rfl, List.mem_iff_getElem?] at hm
      obtain ⟨i, hi⟩ := hm
      have hlt := (List.getElem?_eq_some_iff.1 hi).1
      have hv : n.values[i]? = some n.values[i] := List.getElem?_eq_getElem (by omega)
      refine ⟨n.values[i], ?_⟩
      rw [hent]
      exact List.mem_of_getElem? (List.getElem?_zip_eq_some.2 ⟨hi, hv⟩)
    · rw [hp, Option.some.injEq] at hpm
      subst hpm
      rw [hl, if_neg (by simp)] at hm
      obtain ⟨c, hc, hk⟩ := hm
      obtain ⟨value, hmem⟩ := exists_entry_of_stored (htrees c hc) hk
      rw [hent]
      exact ⟨value, List.mem_flatMap.2 ⟨c, hc, hmem⟩⟩

/-- The entries come in the order of their keys, and no key twice. -/
theorem SearchTree.entries_sorted : ∀ {h : Nat} {id : PageId}, SearchTree pages h id →
    (entries pages h id).Pairwise fun kv kv' => kv.1 < kv'.1
  | 0, _, ht => ht.elim
  | h + 1, id, ht => by
    obtain ⟨n, hp, ⟨-, hsorted, hlen, hent⟩ | ⟨-, hlen, htrees, hsep, hent⟩⟩ := ht.entries_cases
    · rw [hent]
      apply List.Pairwise.of_map Prod.fst (fun _ _ hlt => hlt)
      rwa [List.map_fst_zip (by omega)]
    · rw [hent, List.flatMap_def, List.pairwise_flatten]
      refine ⟨?_, ?_⟩
      · intro l hl
        obtain ⟨c, hc, rfl⟩ := List.mem_map.1 hl
        exact (htrees c hc).entries_sorted
      · rw [List.pairwise_map, List.pairwise_iff_getElem]
        intro i j hi hj hij kv hkv kv' hkv'
        -- the separator between the two children
        have hlt : i < n.keys.length := by omega
        have hs : n.keys[i]? = some n.keys[i] := List.getElem?_eq_getElem hlt
        have hbelow := (hsep i _ i _ kv.1 hs (List.getElem?_eq_getElem hi) (stored_of_mem_entries hkv)).1 le_rfl
        have habove := (hsep i _ j _ kv'.1 hs (List.getElem?_eq_getElem hj) (stored_of_mem_entries hkv')).2 hij
        exact lt_of_lt_of_le hbelow habove

/-! ## `scan` -/

section Scan
variable {visit : PageId → List (K × V) → Task K V (List (K × V))} {node : Node K V} {found : PageId → List (K × V)}
  {start stop : K}

/-- The loop adds what is found below the children it goes through, if there is nothing to find below the others. -/
theorem run_scanSeparators (hlen : node.children.length = node.keys.length + 1)
    (hvisit : ∀ c ∈ node.children, ∀ results, (visit c results).run exec db = (some (results ++ found c), db))
    (hskip : ∀ (i : Nat) k c, node.keys[i]? = some k → node.children[i]? = some c → ¬ start < k → found c = []) :
    ∀ (ks : List K) (i : Nat) (results : List (K × V)), node.keys.drop i = ks →
      (scanSeparators visit node start i ks results).run exec db =
        (some (results ++ ((node.children.drop i).take ks.length).flatMap found), db)
  | [], i, results, _ => by simp [scanSeparators]
  | k :: ks, i, results, hks => by
    have hk : node.keys[i]? = some k := by
      rw [← List.head?_drop, hks, List.head?_cons]
    have hlt : i < node.children.length := by
      have := (List.getElem?_eq_some_iff.1 hk).1
      omega
    have hc : node.children[i]? = some node.children[i] := List.getElem?_eq_getElem hlt
    have hks' : node.keys.drop (i + 1) = ks := by
      rw [← List.tail_drop, hks, List.tail_cons]
    have ih := fun results => run_scanSeparators hlen hvisit hskip ks (i + 1) results hks'
    have htake : (node.children.drop i).take (k :: ks).length =
        node.children[i] :: (node.children.drop (i + 1)).take ks.length := by
      rw [List.drop_eq_getElem_cons hlt, List.length_cons, List.take_succ_cons]
    rw [scanSeparators, htake, List.flatMap_cons, ← List.append_assoc]
    split
    · simp only [child, hc]
      rw [Prog.pure_def, Prog.ret_bind, Prog.run_bind, hvisit _ (List.getElem_mem hlt)]
      exact ih _
    · rename_i hge
      rw [ih, hskip i k _ hk hc hge, List.append_nil]

end Scan

/-- What the scan is to find. -/
def within (start stop : K) (kvs : List (K × V)) : List (K × V) := kvs.filter fun kv => start ≤ kv.1 ∧ kv.1 ≤ stop

theorem run_scanRange (start stop : K) : ∀ {h fuel : Nat} {id : PageId} (results : List (K × V)),
    SearchTree db.pages h id → h ≤ fuel →
      (scanRange fuel id start stop results).run exec db = (some (results ++ within start stop (entries db.pages h id)), db)
  | 0, _, _, _, ht, _ => ht.elim
  | h + 1, 0, _, _, _, hf => by omega
  | h + 1, fuel + 1, id, results, ht, hf => by
    obtain ⟨n, hp, ⟨hl, -, -, hent⟩ | ⟨hl, hlen, htrees, hsep, hent⟩⟩ := ht.entries_cases
    · rw [hent]
      simp [scanRange, Prog.run, exec, hp, hl, within]
    · have hvisit : ∀ c ∈ n.children, ∀ results, (scanRange fuel c start stop results).run exec db =
          (some (results ++ within start stop (entries db.pages h c)), db) :=
        fun c hc results => run_scanRange start stop results (htrees c hc) (Nat.le_of_succ_le_succ hf)
      -- a child left of a separator that is not above `start`: its keys are below `start`
      have hskip : ∀ (i : Nat) k c, n.keys[i]? = some k → n.children[i]? = some c → ¬ start < k →
          within start stop (entries db.pages h c) = [] := by
        intro i k c hk hc hge
        refine List.filter_eq_nil_iff.2 fun kv hkv => ?_
        have hlt := (hsep i k i c kv.1 hk hc (stored_of_mem_entries hkv)).1 le_rfl
        have hno : ¬ start ≤ kv.1 := not_le.2 (lt_of_lt_of_le hlt (not_lt.1 hge))
        simp [hno]
      have hloop := run_scanSeparators hlen hvisit hskip n.keys 0 results rfl
      have hlt : n.keys.length < n.children.length := by omega
      have hlast : n.children[n.keys.length]? = some n.children[n.keys.length] := List.getElem?_eq_getElem hlt
      have hchildren : n.children = n.children.take n.keys.length ++ [n.children[n.keys.length]] := by
        rw [List.take_concat_get' _ _ hlt, List.take_of_length_le (by omega)]
      have hrun : (scanRange (fuel + 1) id start stop results).run exec db =
          (scanSeparators (fun c => scanRange fuel c start stop) n start 0 n.keys results >>= fun results =>
            child n n.keys.length >>= fun c => scanRange fuel c start stop results).run exec db := by
        simp [scanRange, Prog.run, exec, hp, hl]
      have hfound : within start stop (entries db.pages (h + 1) id) =
          n.children.flatMap fun c => within start stop (entries db.pages h c) := by
        rw [hent, within, List.filter_flatMap]
        rfl
      rw [hrun, Prog.run_bind, hloop, hfound]
      simp only [child, hlast]
      rw [Prog.pure_def, Prog.ret_bind, hvisit _ (List.getElem_mem hlt), List.drop_zero, List.append_assoc]
      nth_rewrite 3 [hchildren]
      rw [List.flatMap_append, List.flatMap_singleton]

/-! ## `count` -/

omit [LinearOrder K] in
theorem run_countChildren {visit : PageId → Task K V Nat} {node : Node K V} {found : PageId → Nat}
    (hvisit : ∀ c ∈ node.children, (visit c).run exec db = (some (found c), db)) :
    ∀ (cs : List PageId) (i n : Nat), node.children.drop i = cs →
      (countChildren visit node (List.range' i cs.length) n).run exec db = (some (n + (cs.map found).sum), db)
  | [], i, n, _ => by simp [countChildren]
  | c :: cs, i, n, hcs => by
    have hc : node.children[i]? = some c := by
      rw [← List.head?_drop, hcs, List.head?_cons]
    have hcs' : node.children.drop (i + 1) = cs := by
      rw [← List.tail_drop, hcs, List.tail_cons]
    have ih := run_countChildren hvisit cs (i + 1) (n + found c) hcs'
    rw [List.length_cons, List.range'_succ, countChildren]
    simp only [child, hc]
    rw [Prog.pure_def, Prog.ret_bind, Prog.run_bind, hvisit c (List.mem_of_getElem? hc)]
    rw [List.map_cons, List.sum_cons, ← Nat.add_assoc]
    exact ih

theorem run_countKeys : ∀ {h fuel : Nat} {id : PageId}, SearchTree db.pages h id → h ≤ fuel →
    (countKeys fuel id).run exec db = (some (entries db.pages h id).length, db)
  | 0, _, _, ht, _ => ht.elim
  | h + 1, 0, _, _, hf => by omega
  | h + 1, fuel + 1, id, ht, hf => by
    obtain ⟨n, hp, ⟨hl, -, hlen, hent⟩ | ⟨hl, hlen, htrees, -, hent⟩⟩ := ht.entries_cases
    · rw [hent, List.length_zip, hlen, Nat.min_self]
      simp [countKeys, Prog.run, exec, hp, hl]
    · have hvisit : ∀ c ∈ n.children, (countKeys fuel c).run exec db = (some (entries db.pages h c).length, db) :=
        fun c hc => run_countKeys (htrees c hc) (Nat.le_of_succ_le_succ hf)
      have hloop := run_countChildren hvisit n.children 0 0 rfl
      have hrun : (countKeys (fuel + 1) id).run exec db =
          (countChildren (countKeys fuel) n (List.range (n.keys.length + 1)) 0).run exec db := by
        simp [countKeys, Prog.run, exec, hp, hl]
      rw [hrun, List.range_eq_range', ← hlen, hloop, hent, List.length_flatMap, Nat.zero_add]

/-- **Scans are exact.** On every tree in search order, for all bounds: `scan` is the list of the entries within the
    bounds, in strictly increasing order of their keys, and `count` is the number of all entries, which a scan
    with bounds around all of them gives. The entries are what the leaves store. -/
theorem scan_exact (ht : SearchTree db.pages h db.root) (hf : h ≤ fuel) (start stop : K) :
    (scan fuel start stop).run exec db = (some (within start stop (entries db.pages h db.root)), db) ∧
      (within start stop (entries db.pages h db.root)).Pairwise (fun kv kv' => kv.1 < kv'.1) ∧
      (count fuel).run exec db = (some (entries db.pages h db.root).length, db) ∧
      ((∀ key, Stored db.pages h db.root key → start ≤ key ∧ key ≤ stop) →
        within start stop (entries db.pages h db.root) = entries db.pages h db.root) ∧
      ∀ key, Stored db.pages h db.root key ↔ ∃ value, (key, value) ∈ entries db.pages h db.root := by
  refine ⟨run_scanRange start stop [] ht hf, ht.entries_sorted.filter _, run_countKeys ht hf, fun hall => ?_,
    fun key => ⟨exists_entry_of_stored ht, fun ⟨_, hmem⟩ => stored_of_mem_entries hmem⟩⟩
  refine List.filter_eq_self.2 fun kv hkv => ?_
  exact decide_eq_true (hall kv.1 (stored_of_mem_entries hkv))

/-- The tree of `twoLeaves`, with the bytes of its keys. -/
def rawLeaves : Db Bytes Nat where
  pages := fun id => [none, some ⟨true, [(keyOf 1).1, (keyOf 2).1], [1, 2], [], 0, 2⟩,
    some ⟨true, [(keyOf 3).1, (keyOf 4).1], [3, 4], [], 0, 0⟩, some ⟨false, [(keyOf 3).1], [], [1, 2], 0, 0⟩][id]?.join
  root := 3
  nextPage := 4
  wal := []
  nextTx := 5

theorem searchTree_rawLeaves : SearchTree rawLeaves.pages 2 rawLeaves.root :=
  searchTree_pair rfl rfl rfl rfl rfl (by decide) (by decide) rfl rfl (by decide) (by decide)

/-- The first bound is a prefix of a key and a separator, the second one is below the key it is a prefix of. -/
theorem scan_exact_short_bounds :
    (scan 2 [3] [4]).run exec rawLeaves = (some (within [3] [4] (entries rawLeaves.pages 2 rawLeaves.root)), rawLeaves) ∧
      within [3] [4] (entries rawLeaves.pages 2 rawLeaves.root) = [((keyOf 3).1, 3)] :=
  ⟨(scan_exact searchTree_rawLeaves (Nat.le_refl 2) [3] [4]).1, by decide⟩

end RedisOps.BTree
