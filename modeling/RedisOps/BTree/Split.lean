import RedisOps.BTree.Subtree

/-!
# Cutting a node in two (`redisdb/src/btree/btree.rs:276-314, 392-434`)

`split_leaf` cuts a full leaf in two and `split_internal` a full internal node. A leaf leaves the middle key in the right
half, an internal node leaves it out of both. What both have in common is said of the trees below: `Renews` (the trees
that are there now in place of a tree that was there before) and `Cut` (the key between two such trees).
-/

namespace RedisOps.BTree

open Lib

section Defs
variable {K V : Type}

/-- A tree of the old pages. -/
structure Sound [LinearOrder K] (pages : PageId → Option (Node K V)) (next : PageId) (h : Nat) (id : PageId) : Prop where
  ordered : OrderedTree pages h id
  distinct : (below pages h id).Nodup
  bound : ∀ i ∈ below pages h id, i < next

/-- In place of the tree that was below `id`, with `h` levels, there are the trees below `tops`, on its pages and on new
    ones. No node is full but those of `big`. -/
structure Renews [LinearOrder K] (old pages : PageId → Option (Node K V)) (first next : PageId) (h : Nat) (id : PageId)
    (tops big : List PageId) : Prop where
  ordered : ∀ t ∈ tops, OrderedTree pages h t
  small : ∀ i ∈ tops.flatMap (below pages h), i ∉ big → ∀ n, pages i = some n → n.keys.length < ORDER
  distinct : (tops.flatMap (below pages h)).Nodup
  ids : ∀ i ∈ tops.flatMap (below pages h), i ∈ below old h id ∨ first ≤ i ∧ i < next
  keys : ∀ key ∈ tops.flatMap (keysBelow pages h), key ∈ keysBelow old h id
  entries : tops.flatMap (entries pages h) = entries old h id
  frame : ∀ i, i ∉ below old h id → i < first → pages i = old i

/-- The key between the two trees: one of the keys there were, and not the first of them. -/
structure Cut [LinearOrder K] (old pages : PageId → Option (Node K V)) (h : Nat) (id right : PageId) (middle : K) :
    Prop where
  mem : middle ∈ keysBelow old h id
  above : ∃ key ∈ keysBelow old h id, key < middle
  left : ∀ key ∈ keysBelow pages h id, key < middle
  right : ∀ key ∈ keysBelow pages h right, middle ≤ key

end Defs

variable {K V : Type} [LinearOrder K] {old pages pages' : PageId → Option (Node K V)} {first next : PageId} {h : Nat}
  {id p c : PageId} {n m : Node K V} {middle : K}

/-! ## Old trees -/

namespace Sound

theorem not_mem_child (hs : Sound old first (h + 1) p) (hp : old p = some n) (hc : c ∈ n.subs) : p ∉ below old h c := by
  have hnodup := hs.distinct
  rw [below_node hp, List.nodup_cons] at hnodup
  exact fun hmem => hnodup.1 (List.mem_flatMap.2 ⟨c, hc, hmem⟩)

theorem child (hs : Sound old first (h + 1) p) (hp : old p = some n) (hl : n.isLeaf = false) (hc : c ∈ n.children) :
    Sound old first h c := by
  have hsub : c ∈ n.subs := by rwa [subs_internal hl]
  have hnodup := hs.distinct
  rw [below_node hp, List.nodup_cons, List.nodup_flatMap] at hnodup
  exact ⟨(hs.ordered.fork hp hl).2.1 c hc, hnodup.2.1 c hsub, fun i hi => hs.bound i (mem_below_child hp hsub hi)⟩

end Sound

/-! ## Halves of a node -/

/-- The left page of `split_internal`. -/
def leftFork (n : Node K V) : Node K V :=
  { n with keys := n.keys.take (n.keys.length / 2), children := n.children.take (n.keys.length / 2 + 1) }

def rightFork (n : Node K V) : Node K V :=
  ⟨false, n.keys.drop (n.keys.length / 2 + 1), [], n.children.drop (n.keys.length / 2 + 1), n.parentId, 0⟩

omit [LinearOrder K] in
theorem subs_leftFork (hl : n.isLeaf = false) : (leftFork n).subs = n.children.take (n.keys.length / 2 + 1) :=
  subs_internal (n := leftFork n) hl

omit [LinearOrder K] in
theorem subs_rightFork (n : Node K V) : (rightFork n).subs = n.children.drop (n.keys.length / 2 + 1) := rfl

theorem Separates.leftFork {stored : PageId → K → Prop} (hs : Separates stored n) : Separates stored (leftFork n) := by
  intro i s j x key hi hx hk
  have hi' : n.keys[i]? = some s := by
    simp only [BTree.leftFork, List.getElem?_take] at hi
    split at hi
    · exact hi
    · cases hi
  have hx' : n.children[j]? = some x := by
    simp only [BTree.leftFork, List.getElem?_take] at hx
    split at hx
    · exact hx
    · cases hx
  exact hs i s j x key hi' hx' hk

theorem Separates.rightFork {stored : PageId → K → Prop} (hs : Separates stored n) : Separates stored (rightFork n) := by
  intro i s j x key hi hx hk
  simp only [BTree.rightFork, List.getElem?_drop] at hi hx
  obtain ⟨hbelow, habove⟩ := hs _ s _ x key hi hx hk
  exact ⟨fun hij => hbelow (by omega), fun hij => habove (by omega)⟩

/-- The keys on the two sides of a slot. -/
theorem keys_around {ks : List K} {mid : Nat} (hsorted : ks.Pairwise (· < ·)) (hm : ks[mid]? = some middle) :
    (∀ key ∈ ks.take mid, key < middle) ∧ (∀ key ∈ ks.drop (mid + 1), middle < key) ∧
      (0 < mid → ∃ key ∈ ks, key < middle) := by
  obtain ⟨hlt, hget⟩ := List.getElem?_eq_some_iff.1 hm
  have hcut : ks.take mid ++ middle :: ks.drop (mid + 1) = ks := by
    rw [← hget, ← List.drop_eq_getElem_cons hlt, List.take_append_drop]
  rw [← hcut, List.pairwise_append, List.pairwise_cons] at hsorted
  obtain ⟨-, ⟨hright, -⟩, hleft⟩ := hsorted
  refine ⟨fun key hkey => hleft key hkey middle List.mem_cons_self, hright, fun hpos => ?_⟩
  have hfirst : ks[0] ∈ ks.take mid := List.mem_iff_getElem.2 ⟨0, by simp; omega, by simp⟩
  exact ⟨ks[0], List.getElem_mem _, hleft _ hfirst middle List.mem_cons_self⟩

/-! ## One tree becomes two -/

theorem renews_splitLeaf (hs : Sound old first (h + 1) id) (hp : old id = some n) (hl : n.isLeaf = true)
    (hfull : n.keys.length = ORDER) (hm : n.keys[n.keys.length / 2]? = some middle)
    (hright : pages first = some (rightHalf n)) (hleft : pages id = some (leftHalf n first))
    (hframe : ∀ i, i ≠ id → i < first → pages i = old i) :
    Renews old pages first (first + 1) (h + 1) id [id, first] [] ∧ Cut old pages (h + 1) id first middle := by
  have hid : id < first := hs.bound id (mem_below_self old h id)
  have hsorted := hs.ordered.sorted hp
  have hlen := hs.ordered.values hp hl
  have hl₁ : (leftHalf n first).isLeaf = true := hl
  have hl₂ : (rightHalf n).isLeaf = true := rfl
  have hbelow : [id, first].flatMap (below pages (h + 1)) = [id, first] := by
    simp [below_leaf hleft hl₁, below_leaf hright hl₂]
  have hkeys : keysBelow pages (h + 1) id = n.keys.take (n.keys.length / 2) := keysBelow_leaf hleft hl₁
  have hkeys' : keysBelow pages (h + 1) first = n.keys.drop (n.keys.length / 2) := keysBelow_leaf hright hl₂
  have hold : keysBelow old (h + 1) id = n.keys := keysBelow_leaf hp hl
  have horder : ORDER = 64 := rfl
  refine ⟨⟨?_, ?_, ?_, ?_, ?_, ?_, ?_⟩, ?_⟩
  · intro t ht
    rcases List.mem_pair.1 ht with rfl | rfl
    · exact .leaf hleft hl (hsorted.sublist (List.take_sublist _ _)) (by simp [leftHalf, hlen])
    · exact .leaf hright rfl (hsorted.sublist (List.drop_sublist _ _)) (by simp [rightHalf, hlen])
  · intro i hi _ m hm
    rw [hbelow] at hi
    rcases List.mem_pair.1 hi with rfl | rfl
    · rw [hleft, Option.some.injEq] at hm
      simp only [← hm, leftHalf, List.length_take]
      omega
    · rw [hright, Option.some.injEq] at hm
      simp only [← hm, rightHalf, List.length_drop]
      omega
  · rw [hbelow]
    simpa using hid.ne
  · intro i hi
    rw [hbelow] at hi
    rcases List.mem_pair.1 hi with rfl | rfl
    · exact .inl (mem_below_self old h i)
    · exact .inr ⟨Nat.le_refl _, Nat.lt_succ_self _⟩
  · intro key hkey
    rw [hold]
    simp only [List.flatMap_cons, List.flatMap_nil, List.append_nil, hkeys, hkeys', List.mem_append] at hkey
    exact hkey.elim List.mem_of_mem_take List.mem_of_mem_drop
  · rw [entries_leaf hp hl]
    simp only [List.flatMap_cons, List.flatMap_nil, List.append_nil, entries_leaf hleft hl₁, entries_leaf hright hl₂,
      leftHalf, rightHalf]
    rw [← List.zip_append (by simp [hlen]), List.take_append_drop, List.take_append_drop]
  · intro i hi hlt
    refine hframe i ?_ hlt
    rintro rfl
    exact hi (mem_below_self old h i)
  · obtain ⟨hbefore, -, habove⟩ := keys_around hsorted hm
    refine ⟨?_, ?_, ?_, ?_⟩
    · rw [hold]
      exact List.mem_of_getElem? hm
    · rw [hold]
      exact habove (by omega)
    · rw [hkeys]
      exact hbefore
    · rw [hkeys']
      exact (sorted_take_drop hsorted hm).2

theorem Renews.lt_next {tops big : List PageId} (hr : Renews old pages first next h p tops big)
    (hs : Sound old first h p) (hle : first ≤ next) {i : PageId} (hi : i ∈ tops.flatMap (below pages h)) : i < next := by
  rcases hr.ids i hi with hold | ⟨-, hlt⟩
  · exact Nat.lt_of_lt_of_le (hs.bound i hold) hle
  · exact hlt

/-- An internal node `n` on page `p` is cut in two, the right half on page `next`; nothing else is written, and the trees
    below the children have neither page. -/
structure Forked (pages pages' : PageId → Option (Node K V)) (h : Nat) (p next : PageId) (n : Node K V) : Prop where
  page : pages p = some n
  isLeaf : n.isLeaf = false
  left : pages' p = some (leftFork n)
  right : pages' next = some (rightFork n)
  frame : ∀ i, i ≠ p → i ≠ next → pages' i = pages i
  agree : ∀ c ∈ n.children, Agree pages pages' h c

namespace Forked

omit [LinearOrder K] in
theorem below (hf : Forked pages pages' h p next n) :
    ([p, next].flatMap (BTree.below pages' (h + 1))).Perm (next :: BTree.below pages (h + 1) p) := by
  have hleft : BTree.below pages' (h + 1) p =
      p :: (n.children.take (n.keys.length / 2 + 1)).flatMap (BTree.below pages h) := by
    rw [below_node hf.left, subs_leftFork hf.isLeaf]
    congr 1
    exact List.flatMap_congr fun c hc => (hf.agree c (List.mem_of_mem_take hc)).below
  have hright : BTree.below pages' (h + 1) next =
      next :: (n.children.drop (n.keys.length / 2 + 1)).flatMap (BTree.below pages h) := by
    rw [below_node hf.right, subs_rightFork]
    congr 1
    exact List.flatMap_congr fun c hc => (hf.agree c (List.mem_of_mem_drop hc)).below
  have hall : BTree.below pages (h + 1) p =
      p :: ((n.children.take (n.keys.length / 2 + 1)).flatMap (BTree.below pages h) ++
        (n.children.drop (n.keys.length / 2 + 1)).flatMap (BTree.below pages h)) := by
    rw [below_node hf.page, subs_internal hf.isLeaf, ← List.flatMap_append, List.take_append_drop]
  rw [List.flatMap_cons, List.flatMap_singleton, hleft, hright, hall]
  exact List.perm_middle

omit [LinearOrder K] in
theorem keys_left (hf : Forked pages pages' h p next n) : keysBelow pages' (h + 1) p =
    n.keys.take (n.keys.length / 2) ++ (n.children.take (n.keys.length / 2 + 1)).flatMap (keysBelow pages h) := by
  rw [keysBelow_node hf.left, subs_leftFork hf.isLeaf]
  congr 1
  exact List.flatMap_congr fun c hc => (hf.agree c (List.mem_of_mem_take hc)).keysBelow

omit [LinearOrder K] in
theorem keys_right (hf : Forked pages pages' h p next n) : keysBelow pages' (h + 1) next =
    n.keys.drop (n.keys.length / 2 + 1) ++ (n.children.drop (n.keys.length / 2 + 1)).flatMap (keysBelow pages h) := by
  rw [keysBelow_node hf.right, subs_rightFork]
  congr 1
  exact List.flatMap_congr fun c hc => (hf.agree c (List.mem_of_mem_drop hc)).keysBelow

omit [LinearOrder K] in
/-- The middle key is in neither half, no other key gets lost. -/
theorem mem_keys (hf : Forked pages pages' h p next n) {key : K}
    (hkey : key ∈ [p, next].flatMap (keysBelow pages' (h + 1))) : key ∈ keysBelow pages (h + 1) p := by
  rw [List.flatMap_cons, List.flatMap_singleton, hf.keys_left, hf.keys_right] at hkey
  rw [keysBelow_node hf.page, subs_internal hf.isLeaf]
  simp only [List.mem_append, List.mem_flatMap] at hkey ⊢
  rcases hkey with (hkey | ⟨c, hc, hkey⟩) | hkey | ⟨c, hc, hkey⟩
  · exact .inl (List.mem_of_mem_take hkey)
  · exact .inr ⟨c, List.mem_of_mem_take hc, hkey⟩
  · exact .inl (List.mem_of_mem_drop hkey)
  · exact .inr ⟨c, List.mem_of_mem_drop hc, hkey⟩

omit [LinearOrder K] in
theorem entries (hf : Forked pages pages' h p next n) :
    [p, next].flatMap (BTree.entries pages' (h + 1)) = BTree.entries pages (h + 1) p := by
  rw [List.flatMap_cons, List.flatMap_singleton, entries_internal hf.left hf.isLeaf, entries_internal hf.right rfl,
    subs_leftFork hf.isLeaf, subs_rightFork, ← List.flatMap_append, List.take_append_drop,
    entries_internal hf.page hf.isLeaf, subs_internal hf.isLeaf]
  exact List.flatMap_congr fun c hc => (hf.agree c hc).entries

theorem ordered (hf : Forked pages pages' h p next n) (ht : OrderedTree pages (h + 1) p)
    (hmid : n.keys.length / 2 < n.keys.length) : OrderedTree pages' (h + 1) p ∧ OrderedTree pages' (h + 1) next := by
  have hsorted := ht.sorted hf.page
  obtain ⟨hlen, hsub, hsep⟩ := ht.fork hf.page hf.isLeaf
  constructor
  · refine .internal hf.left hf.isLeaf (hsorted.sublist (List.take_sublist _ _)) ?_ ?_ ?_
    · simp only [leftFork, List.length_take]
      omega
    · exact fun c hc => (hsub c (List.mem_of_mem_take hc)).congr (hf.agree c (List.mem_of_mem_take hc))
    · refine hsep.leftFork.mono fun c hc key hkey => ?_
      rwa [(hf.agree c (List.mem_of_mem_take hc)).keysBelow] at hkey
  · refine .internal hf.right rfl (hsorted.sublist (List.drop_sublist _ _)) ?_ ?_ ?_
    · simp only [rightFork, List.length_drop]
      omega
    · exact fun c hc => (hsub c (List.mem_of_mem_drop hc)).congr (hf.agree c (List.mem_of_mem_drop hc))
    · refine hsep.rightFork.mono fun c hc key hkey => ?_
      rwa [(hf.agree c (List.mem_of_mem_drop hc)).keysBelow] at hkey

/-- The middle key is above the left half and not above the right one. -/
theorem separated (hf : Forked pages pages' h p next n) (ht : OrderedTree pages (h + 1) p)
    (hm : n.keys[n.keys.length / 2]? = some middle) :
    (∀ key ∈ keysBelow pages' (h + 1) p, key < middle) ∧ ∀ key ∈ keysBelow pages' (h + 1) next, middle ≤ key := by
  obtain ⟨-, -, hsep⟩ := ht.fork hf.page hf.isLeaf
  obtain ⟨hbefore, hafter, -⟩ := keys_around (ht.sorted hf.page) hm
  constructor
  · intro key hkey
    rw [hf.keys_left, List.mem_append, List.mem_flatMap] at hkey
    rcases hkey with hkey | ⟨c, hc, hkey⟩
    · exact hbefore key hkey
    · obtain ⟨j, hj, rfl⟩ := List.mem_take_iff_getElem.1 hc
      have hj' : n.children[j]? = some n.children[j] := List.getElem?_eq_getElem _
      exact (hsep _ middle j _ key hm hj' hkey).1 (by omega)
  · intro key hkey
    rw [hf.keys_right, List.mem_append, List.mem_flatMap] at hkey
    rcases hkey with hkey | ⟨c, hc, hkey⟩
    · exact (hafter key hkey).le
    · obtain ⟨j, hj, rfl⟩ := List.mem_drop_iff_getElem.1 hc
      have hj' : n.children[n.keys.length / 2 + 1 + j]? = some n.children[n.keys.length / 2 + 1 + j] :=
        List.getElem?_eq_getElem _
      exact (hsep _ middle _ _ key hm hj' hkey).2 (by omega)

end Forked

/-- Neither page of the halves is below a child. -/
theorem Renews.forked (hr : Renews old pages first next (h + 1) p [p] [p]) (hs : Sound old first (h + 1) p)
    (hle : first ≤ next) (hp : pages p = some n) (hl : n.isLeaf = false) (hright : pages' next = some (rightFork n))
    (hleft : pages' p = some (leftFork n)) (hframe : ∀ i, i ≠ p → i ≠ next → pages' i = pages i) :
    Forked pages pages' h p next n := by
  refine ⟨hp, hl, hleft, hright, hframe, fun c hc i hi => ?_⟩
  have hsub : c ∈ n.subs := by rwa [subs_internal hl]
  have hdistinct := hr.distinct
  rw [List.flatMap_singleton, below_node hp, List.nodup_cons] at hdistinct
  refine hframe i ?_ (hr.lt_next hs hle (by simpa using mem_below_child hp hsub hi)).ne
  rintro rfl
  exact hdistinct.1 (List.mem_flatMap.2 ⟨c, hsub, hi⟩)

theorem renews_splitInternal (hr : Renews old pages first next (h + 1) p [p] [p]) (hs : Sound old first (h + 1) p)
    (hle : first ≤ next) (hf : Forked pages pages' h p next n) (hfull : n.keys.length = ORDER)
    (hm : n.keys[n.keys.length / 2]? = some middle) :
    Renews old pages' first (next + 1) (h + 1) p [p, next] [] ∧ Cut old pages' (h + 1) p next middle := by
  have horder : ORDER = 64 := rfl
  have ht := hr.ordered p (List.mem_singleton_self p)
  obtain ⟨hleft, hright⟩ := hf.ordered ht (by omega)
  have hkeys : ∀ key ∈ keysBelow pages (h + 1) p, key ∈ keysBelow old (h + 1) p := fun key hkey =>
    hr.keys key (by simpa using hkey)
  have hnode : ∀ key ∈ n.keys, key ∈ keysBelow old (h + 1) p := fun key hkey =>
    hkeys key (by rw [keysBelow_node hf.page]; exact List.mem_append_left _ hkey)
  refine ⟨⟨?_, ?_, ?_, ?_, ?_, ?_, ?_⟩, ?_, ?_, ?_, ?_⟩
  · intro t ht
    rcases List.mem_pair.1 ht with rfl | rfl
    · exact hleft
    · exact hright
  · intro i hi _ m hm
    by_cases hip : i = p
    · rw [hip, hf.left, Option.some.injEq] at hm
      simp only [← hm, leftFork, List.length_take]
      omega
    by_cases hin : i = next
    · rw [hin, hf.right, Option.some.injEq] at hm
      simp only [← hm, rightFork, List.length_drop]
      omega
    rw [hf.frame i hip hin] at hm
    have hmem := (List.mem_cons.1 (hf.below.mem_iff.1 hi)).resolve_left hin
    exact hr.small i (by simpa using hmem) (by simpa using hip) m hm
  · rw [hf.below.nodup_iff, List.nodup_cons]
    refine ⟨fun hmem => lt_irrefl _ (hr.lt_next hs hle (by simpa using hmem)), ?_⟩
    simpa using hr.distinct
  · intro i hi
    rcases List.mem_cons.1 (hf.below.mem_iff.1 hi) with rfl | hi
    · exact .inr ⟨hle, Nat.lt_succ_self _⟩
    · exact (hr.ids i (by simpa using hi)).imp_right fun hlt => ⟨hlt.1, Nat.lt_succ_of_lt hlt.2⟩
  · exact fun key hkey => hkeys key (hf.mem_keys hkey)
  · rw [hf.entries]
    simpa using hr.entries
  · intro i hi hlt
    have hip : i ≠ p := by
      rintro rfl
      exact hi (mem_below_self old h i)
    rw [hf.frame i hip (Nat.ne_of_lt (Nat.lt_of_lt_of_le hlt hle)), hr.frame i hi hlt]
  · exact hnode middle (List.mem_of_getElem? hm)
  · obtain ⟨key, hkey, hlt⟩ := (keys_around (ht.sorted hf.page) hm).2.2 (by omega)
    exact ⟨key, hnode key hkey, hlt⟩
  · exact (hf.separated ht hm).1
  · exact (hf.separated ht hm).2

end RedisOps.BTree
