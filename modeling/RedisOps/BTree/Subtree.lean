import RedisOps.BTree.Scan
import RedisOps.BTree.Insert

/-!
# Trees of pages

A tree is what is below a page: its pages (`below`), all their keys (`keysBelow`) and its entries (`entries`). They
depend on those pages only (`Agree`). `OrderedTree` is the search order with the separators among the keys: a
separator of a node below is on the same side as the entries there. Searches need less (`OrderedTree.searchTree`).
-/

namespace RedisOps.BTree

open Lib

section Defs
variable {K V : Type}

/-- The children; a leaf has none. -/
def Node.subs (n : Node K V) : List PageId := if n.isLeaf then [] else n.children

/-- The pages of the tree below a page, that page first, at most `h` levels down. -/
def below (pages : PageId → Option (Node K V)) : Nat → PageId → List PageId
  | 0, _ => []
  | h + 1, id => id ::
    match pages id with
    | none => []
    | some n => n.subs.flatMap (below pages h)

/-- The keys of these pages, separators and keys of entries. -/
def keysBelow (pages : PageId → Option (Node K V)) : Nat → PageId → List K
  | 0, _ => []
  | h + 1, id =>
    match pages id with
    | none => []
    | some n => n.keys ++ n.subs.flatMap (keysBelow pages h)

/-- A tree of at most `h` levels in search order: keys strictly increasing inside of every node, all keys left of a
    separator below it, all keys right of it not below it. -/
def OrderedTree [LinearOrder K] (pages : PageId → Option (Node K V)) : Nat → PageId → Prop
  | 0, _ => False
  | h + 1, id => ∃ n, pages id = some n ∧ n.keys.Pairwise (· < ·) ∧
      if n.isLeaf then n.values.length = n.keys.length
      else n.children.length = n.keys.length + 1 ∧ (∀ c ∈ n.children, OrderedTree pages h c) ∧
        Separates (fun c key => key ∈ keysBelow pages h c) n

end Defs

variable {K V : Type} {pages pages' : PageId → Option (Node K V)} {h : Nat} {id : PageId} {n : Node K V}

theorem subs_leaf (hl : n.isLeaf = true) : n.subs = [] := if_pos hl

theorem subs_internal (hl : n.isLeaf = false) : n.subs = n.children := if_neg (by simp [hl])

theorem below_node (hp : pages id = some n) : below pages (h + 1) id = id :: n.subs.flatMap (below pages h) := by
  rw [below, hp]

theorem keysBelow_node (hp : pages id = some n) :
    keysBelow pages (h + 1) id = n.keys ++ n.subs.flatMap (keysBelow pages h) := by
  rw [keysBelow, hp]

theorem below_leaf (hp : pages id = some n) (hl : n.isLeaf = true) : below pages (h + 1) id = [id] := by
  rw [below_node hp, subs_leaf hl, List.flatMap_nil]

theorem keysBelow_leaf (hp : pages id = some n) (hl : n.isLeaf = true) : keysBelow pages (h + 1) id = n.keys := by
  rw [keysBelow_node hp, subs_leaf hl, List.flatMap_nil, List.append_nil]

theorem entries_leaf (hp : pages id = some n) (hl : n.isLeaf = true) :
    entries pages (h + 1) id = n.keys.zip n.values := by
  rw [entries, hp]
  exact if_pos hl

theorem entries_internal (hp : pages id = some n) (hl : n.isLeaf = false) :
    entries pages (h + 1) id = n.subs.flatMap (entries pages h) := by
  rw [entries, hp, subs_internal hl]
  exact if_neg (by simp [hl])

theorem mem_below_self (pages : PageId → Option (Node K V)) (h : Nat) (id : PageId) : id ∈ below pages (h + 1) id := by
  rw [below]
  exact List.mem_cons_self

theorem mem_below_child (hp : pages id = some n) {c i : PageId} (hc : c ∈ n.subs) (hi : i ∈ below pages h c) :
    i ∈ below pages (h + 1) id := by
  rw [below_node hp]
  exact List.mem_cons_of_mem _ (List.mem_flatMap.2 ⟨c, hc, hi⟩)

/-! ## The pages that matter -/

/-- The two maps have the same pages below `id`. -/
def Agree (pages pages' : PageId → Option (Node K V)) (h : Nat) (id : PageId) : Prop :=
  ∀ i ∈ below pages h id, pages' i = pages i

namespace Agree

theorem page (hag : Agree pages pages' (h + 1) id) : pages' id = pages id := hag id (mem_below_self pages h id)

theorem child (hag : Agree pages pages' (h + 1) id) (hp : pages id = some n) {c : PageId} (hc : c ∈ n.subs) :
    Agree pages pages' h c :=
  fun i hi => hag i (mem_below_child hp hc hi)

theorem below : ∀ {h : Nat} {id : PageId}, Agree pages pages' h id →
    BTree.below pages' h id = BTree.below pages h id
  | 0, _, _ => rfl
  | h + 1, id, hag => by
    cases hp : pages id with
    | none =>
      have hp' : pages' id = none := hag.page.trans hp
      simp [BTree.below, hp, hp']
    | some n =>
      rw [below_node hp, below_node (hag.page.trans hp)]
      congr 1
      exact List.flatMap_congr fun c hc => (hag.child hp hc).below

theorem keysBelow : ∀ {h : Nat} {id : PageId}, Agree pages pages' h id →
    BTree.keysBelow pages' h id = BTree.keysBelow pages h id
  | 0, _, _ => rfl
  | h + 1, id, hag => by
    cases hp : pages id with
    | none =>
      have hp' : pages' id = none := hag.page.trans hp
      simp [BTree.keysBelow, hp, hp']
    | some n =>
      rw [keysBelow_node hp, keysBelow_node (hag.page.trans hp)]
      congr 1
      exact List.flatMap_congr fun c hc => (hag.child hp hc).keysBelow

theorem entries : ∀ {h : Nat} {id : PageId}, Agree pages pages' h id →
    BTree.entries pages' h id = BTree.entries pages h id
  | 0, _, _ => rfl
  | h + 1, id, hag => by
    cases hp : pages id with
    | none =>
      have hp' : pages' id = none := hag.page.trans hp
      simp [BTree.entries, hp, hp']
    | some n =>
      cases hl : n.isLeaf with
      | true => rw [entries_leaf hp hl, entries_leaf (hag.page.trans hp) hl]
      | false =>
        rw [entries_internal hp hl, entries_internal (hag.page.trans hp) hl]
        exact List.flatMap_congr fun c hc => (hag.child hp hc).entries

end Agree

/-! ## Search order -/

variable [LinearOrder K]

/-- Fewer keys are still kept apart. -/
theorem Separates.mono {stored stored' : PageId → K → Prop} (hs : Separates stored n)
    (hsub : ∀ c ∈ n.children, ∀ key, stored' c key → stored c key) : Separates stored' n :=
  fun i s j c key hi hc hk => hs i s j c key hi hc (hsub c (List.mem_of_getElem? hc) key hk)

omit [LinearOrder K] in
theorem mem_keysBelow_of_stored : ∀ {h : Nat} {id : PageId} {key : K}, Stored pages h id key →
    key ∈ keysBelow pages h id
  | 0, _, _, hk => hk.elim
  | h + 1, id, key, ⟨n, hp, hk⟩ => by
    rw [keysBelow_node hp, List.mem_append]
    cases hl : n.isLeaf with
    | true =>
      rw [hl, if_pos rfl] at hk
      exact .inl hk
    | false =>
      rw [hl, if_neg (by simp)] at hk
      obtain ⟨c, hc, hk⟩ := hk
      rw [subs_internal hl]
      exact .inr (List.mem_flatMap.2 ⟨c, hc, mem_keysBelow_of_stored hk⟩)

namespace OrderedTree

theorem leaf (hp : pages id = some n) (hl : n.isLeaf = true) (hsorted : n.keys.Pairwise (· < ·))
    (hlen : n.values.length = n.keys.length) : OrderedTree pages (h + 1) id :=
  ⟨n, hp, hsorted, by rwa [if_pos hl]⟩

theorem internal (hp : pages id = some n) (hl : n.isLeaf = false) (hsorted : n.keys.Pairwise (· < ·))
    (hlen : n.children.length = n.keys.length + 1) (hsub : ∀ c ∈ n.children, OrderedTree pages h c)
    (hsep : Separates (fun c key => key ∈ keysBelow pages h c) n) : OrderedTree pages (h + 1) id :=
  ⟨n, hp, hsorted, by rw [if_neg (by simp [hl])]; exact ⟨hlen, hsub, hsep⟩⟩

theorem sorted (ht : OrderedTree pages (h + 1) id) (hp : pages id = some n) : n.keys.Pairwise (· < ·) := by
  obtain ⟨m, hm, hsorted, -⟩ := ht
  rw [hp, Option.some.injEq] at hm
  rwa [hm]

theorem page (ht : OrderedTree pages (h + 1) id) : ∃ n, pages id = some n := by
  obtain ⟨n, hp, -⟩ := ht
  exact ⟨n, hp⟩

theorem values (ht : OrderedTree pages (h + 1) id) (hp : pages id = some n) (hl : n.isLeaf = true) :
    n.values.length = n.keys.length := by
  obtain ⟨m, hm, -, hcase⟩ := ht
  rw [hp, Option.some.injEq] at hm
  subst hm
  rwa [if_pos hl] at hcase

theorem fork (ht : OrderedTree pages (h + 1) id) (hp : pages id = some n) (hl : n.isLeaf = false) :
    n.children.length = n.keys.length + 1 ∧ (∀ c ∈ n.children, OrderedTree pages h c) ∧
      Separates (fun c key => key ∈ keysBelow pages h c) n := by
  obtain ⟨m, hm, -, hcase⟩ := ht
  rw [hp, Option.some.injEq] at hm
  subst hm
  rwa [if_neg (by simp [hl])] at hcase

theorem congr : ∀ {h : Nat} {id : PageId}, OrderedTree pages h id → Agree pages pages' h id → OrderedTree pages' h id
  | 0, _, ht, _ => ht.elim
  | h + 1, id, ht, hag => by
    obtain ⟨n, hp⟩ := ht.page
    have hp' := hag.page.trans hp
    cases hl : n.isLeaf with
    | true => exact leaf hp' hl (ht.sorted hp) (ht.values hp hl)
    | false =>
      obtain ⟨hlen, hsub, hsep⟩ := ht.fork hp hl
      have hchild : ∀ c ∈ n.children, Agree pages pages' h c := fun c hc =>
        hag.child hp (by rwa [subs_internal hl])
      refine internal hp' hl (ht.sorted hp) hlen (fun c hc => (hsub c hc).congr (hchild c hc)) ?_
      refine hsep.mono fun c hc key hkey => ?_
      rwa [(hchild c hc).keysBelow] at hkey

/-- What `get`, `scan` and `count` need of a tree. -/
theorem searchTree : ∀ {h : Nat} {id : PageId}, OrderedTree pages h id → SearchTree pages h id
  | 0, _, ht => ht
  | h + 1, id, ht => by
    obtain ⟨n, hp⟩ := ht.page
    refine ⟨n, hp, ?_⟩
    cases hl : n.isLeaf with
    | true =>
      rw [if_pos rfl]
      exact ⟨ht.sorted hp, ht.values hp hl⟩
    | false =>
      rw [if_neg (by simp)]
      obtain ⟨hlen, hsub, hsep⟩ := ht.fork hp hl
      exact ⟨hlen, fun c hc => (hsub c hc).searchTree, hsep.mono fun c _ key hk => mem_keysBelow_of_stored hk⟩

end OrderedTree

end RedisOps.BTree
