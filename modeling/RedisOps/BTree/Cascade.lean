import RedisOps.BTree.Split

/-!
# The cascade of a split (`redisdb/src/btree/btree.rs:276-462`)

The split of a leaf goes up: `insert_into_internal` gives the parent one more separator, the parent may be full with it,
`split_internal` cuts it in two. The induction is on the way up from the leaf (`Path`). While a parent has to be told,
the tree below the child has become two trees with a key in between; otherwise one tree is in its place.

| step | the tree below the parent | proof |
| --- | --- | --- |
| `insert_into_internal` | one tree again, its top perhaps full | `renews_insert` |
| `split_internal` | two trees | `renews_splitInternal` |
| nothing to do | one tree | `renews_plug` |
| a new root | one level more | `Overfull.regrown_grow` |
-/

namespace RedisOps.BTree

open Lib

section Defs
variable {K V : Type}

/-- The children but the `j`-th. -/
def Node.siblings (n : Node K V) (j : Nat) : List PageId := n.children.take j ++ n.children.drop (j + 1)

/-- The node `n` on page `p` gets the children `tops` in the place of its `j`-th child `c`, as the node `n'`; nothing else
    is written. -/
structure Grafted [LinearOrder K] (old pages pages' : PageId → Option (Node K V)) (first : PageId) (h : Nat)
    (p c : PageId) (n n' : Node K V) (j : Nat) (tops : List PageId) : Prop where
  sound : Sound old first (h + 1) p
  page : old p = some n
  isLeaf : n.isLeaf = false
  child : n.children[j]? = some c
  page' : pages' p = some n'
  isLeaf' : n'.isLeaf = false
  children' : n'.children = n.children.take j ++ (tops ++ n.children.drop (j + 1))
  frame : ∀ i, i ≠ p → pages' i = pages i

/-- The pages on the way down from the root, each with the number of levels left below it. -/
inductive Path (pages : PageId → Option (Node K V)) (root : PageId) (h : Nat) : Nat → PageId → Prop
  | top : Path pages root h h root
  | down {k j : Nat} {p c : PageId} {n : Node K V} : Path pages root h (k + 1) p → pages p = some n →
      n.isLeaf = false → n.children[j]? = some c → Path pages root h k c

/-- A tree in search order on allocated pages, each with the right parent. One leaf is full. -/
structure Overfull [LinearOrder K] (db : Db K V) (h : Nat) (leaf : PageId) : Prop where
  ordered : OrderedTree db.pages h db.root
  distinct : (below db.pages h db.root).Nodup
  ids : ∀ i ∈ below db.pages h db.root, 1 ≤ i ∧ i < db.nextPage
  root : ∀ n, db.pages db.root = some n → n.parentId = 0
  parent : ∀ p ∈ below db.pages h db.root, ∀ n, db.pages p = some n → ∀ c ∈ n.subs, ∀ m, db.pages c = some m →
    m.parentId = p
  mem : leaf ∈ below db.pages h db.root
  full : ∃ n, db.pages leaf = some n ∧ n.isLeaf = true ∧ n.keys.length = ORDER
  small : ∀ i ∈ below db.pages h db.root, i ≠ leaf → ∀ n, db.pages i = some n → n.keys.length < ORDER

/-- A tree in search order with the same entries, none of its nodes full. -/
structure Regrown [LinearOrder K] (db : Db K V) (h : Nat) (db' : Db K V) (h' : Nat) : Prop where
  ordered : OrderedTree db'.pages h' db'.root
  distinct : (below db'.pages h' db'.root).Nodup
  entries : entries db'.pages h' db'.root = entries db.pages h db.root
  small : ∀ i ∈ below db'.pages h' db'.root, ∀ n, db'.pages i = some n → n.keys.length < ORDER

end Defs

variable {K V : Type} {old pages pages' : PageId → Option (Node K V)} {first next : PageId} {h j : Nat}
  {id p c x right : PageId} {n n' m : Node K V} {middle key : K} {tops : List PageId}

theorem children_cut (hc : n.children[j]? = some c) : n.children = n.children.take j ++ c :: n.children.drop (j + 1) := by
  obtain ⟨hlt, hget⟩ := List.getElem?_eq_some_iff.1 hc
  rw [← hget, ← List.drop_eq_getElem_cons hlt, List.take_append_drop]

theorem children_perm (hc : n.children[j]? = some c) : n.children.Perm (c :: n.siblings j) := by
  conv_lhs => rw [children_cut hc]
  exact List.perm_middle

theorem mem_children_of_siblings (hc : n.children[j]? = some c) (hx : x ∈ n.siblings j) : x ∈ n.children :=
  (children_perm hc).mem_iff.2 (List.mem_cons_of_mem _ hx)

theorem mem_siblings {k : Nat} (hx : n.children[k]? = some x) (hkj : k ≠ j) : x ∈ n.siblings j := by
  rcases Nat.lt_or_gt_of_ne hkj with hlt | hgt
  · refine List.mem_append_left _ (List.mem_of_getElem? (i := k) ?_)
    rwa [List.getElem?_take_of_lt hlt]
  · refine List.mem_append_right _ (List.mem_of_getElem? (i := k - (j + 1)) ?_)
    rwa [List.getElem?_drop, Nat.add_sub_cancel' hgt]

variable [LinearOrder K]

namespace Grafted

theorem below_old (hg : Grafted old pages pages' first h p c n n' j tops) : (below old (h + 1) p).Perm
    (p :: (below old h c ++ (n.siblings j).flatMap (below old h))) := by
  rw [below_node hg.page, subs_internal hg.isLeaf]
  exact ((children_perm hg.child).flatMap_right _).cons p

/-- What is below the siblings is neither below the child nor the parent. -/
theorem apart (hg : Grafted old pages pages' first h p c n n' j tops) {i : PageId} (hx : x ∈ n.siblings j)
    (hi : i ∈ below old h x) : i ∉ below old h c ∧ i ≠ p ∧ i < first := by
  have hmem := List.mem_flatMap.2 ⟨x, hx, hi⟩
  have hnodup := hg.below_old.nodup_iff.1 hg.sound.distinct
  rw [List.nodup_cons, List.nodup_append'] at hnodup
  obtain ⟨hp, -, -, hdisj⟩ := hnodup
  refine ⟨fun hc => hdisj hc hmem, ?_, ?_⟩
  · rintro rfl
    exact hp (List.mem_append_right _ hmem)
  · exact hg.sound.bound i (hg.below_old.mem_iff.2 (List.mem_cons_of_mem _ (List.mem_append_right _ hmem)))

variable (hr : Renews old pages first next h c tops [])
include hr

theorem agree_sibling (hg : Grafted old pages pages' first h p c n n' j tops) (hx : x ∈ n.siblings j) :
    Agree old pages' h x := by
  intro i hi
  obtain ⟨hc, hp, hlt⟩ := hg.apart hx hi
  rw [hg.frame i hp, hr.frame i hc hlt]

theorem agree_top (hg : Grafted old pages pages' first h p c n n' j tops) (hx : x ∈ tops) : Agree pages pages' h x := by
  intro i hi
  refine hg.frame i ?_
  rintro rfl
  rcases hr.ids i (List.mem_flatMap.2 ⟨x, hx, hi⟩) with hold | ⟨hge, -⟩
  · exact hg.sound.not_mem_child hg.page (subs_internal hg.isLeaf ▸ List.mem_of_getElem? hg.child) hold
  · exact Nat.not_le_of_lt (hg.sound.bound i (mem_below_self old h i)) hge

theorem below_new (hg : Grafted old pages pages' first h p c n n' j tops) : (below pages' (h + 1) p).Perm
    (p :: (tops.flatMap (below pages h) ++ (n.siblings j).flatMap (below old h))) := by
  have hperm : n'.children.Perm (tops ++ n.siblings j) := by
    rw [hg.children', Node.siblings, ← List.append_assoc, ← List.append_assoc]
    exact List.perm_append_comm.append_right _
  rw [below_node hg.page', subs_internal hg.isLeaf']
  refine ((hperm.flatMap_right _).trans (.of_eq ?_)).cons p
  rw [List.flatMap_append]
  congr 1
  · exact List.flatMap_congr fun x hx => (hg.agree_top hr hx).below
  · exact List.flatMap_congr fun x hx => (hg.agree_sibling hr hx).below

theorem entries_new (hg : Grafted old pages pages' first h p c n n' j tops) :
    entries pages' (h + 1) p = entries old (h + 1) p := by
  have hleft : (n.children.take j).flatMap (entries pages' h) = (n.children.take j).flatMap (entries old h) :=
    List.flatMap_congr fun x hx => (hg.agree_sibling hr (List.mem_append_left _ hx)).entries
  have hright : (n.children.drop (j + 1)).flatMap (entries pages' h) =
      (n.children.drop (j + 1)).flatMap (entries old h) :=
    List.flatMap_congr fun x hx => (hg.agree_sibling hr (List.mem_append_right _ hx)).entries
  have htops : tops.flatMap (entries pages' h) = entries old h c :=
    (List.flatMap_congr fun x hx => (hg.agree_top hr hx).entries).trans hr.entries
  rw [entries_internal hg.page' hg.isLeaf', subs_internal hg.isLeaf', hg.children', List.flatMap_append,
    List.flatMap_append, hleft, hright, htops, entries_internal hg.page hg.isLeaf, subs_internal hg.isLeaf]
  conv_rhs => rw [children_cut hg.child]
  rw [List.flatMap_append, List.flatMap_cons]

/-- The keys of a tree below the new parent were those of a tree below the old one. -/
theorem keys_new (hg : Grafted old pages pages' first h p c n n' j tops) {key : K} (hx : x ∈ n'.children)
    (hkey : key ∈ keysBelow pages' h x) :
    x ∈ n.siblings j ∧ key ∈ keysBelow old h x ∨ x ∈ tops ∧ key ∈ keysBelow old h c := by
  rw [hg.children', List.mem_append, List.mem_append] at hx
  rcases hx with hx | hx | hx
  · rw [(hg.agree_sibling hr (List.mem_append_left _ hx)).keysBelow] at hkey
    exact .inl ⟨List.mem_append_left _ hx, hkey⟩
  · rw [(hg.agree_top hr hx).keysBelow] at hkey
    exact .inr ⟨hx, hr.keys key (List.mem_flatMap.2 ⟨x, hx, hkey⟩)⟩
  · rw [(hg.agree_sibling hr (List.mem_append_right _ hx)).keysBelow] at hkey
    exact .inl ⟨List.mem_append_right _ hx, hkey⟩

theorem ordered_child (hg : Grafted old pages pages' first h p c n n' j tops) (hx : x ∈ n'.children) :
    OrderedTree pages' h x := by
  obtain ⟨-, hsub, -⟩ := hg.sound.ordered.fork hg.page hg.isLeaf
  have hsib : ∀ y ∈ n.siblings j, OrderedTree pages' h y := fun y hy =>
    (hsub y (mem_children_of_siblings hg.child hy)).congr (hg.agree_sibling hr hy)
  rw [hg.children', List.mem_append, List.mem_append] at hx
  rcases hx with hx | hx | hx
  · exact hsib x (List.mem_append_left _ hx)
  · exact (hr.ordered x hx).congr (hg.agree_top hr hx)
  · exact hsib x (List.mem_append_right _ hx)

/-- The tree below the parent is renewed, provided its separators are right. The parent may be full. -/
theorem renews (hg : Grafted old pages pages' first h p c n n' j tops) (hsorted : n'.keys.Pairwise (· < ·))
    (hlen : n'.children.length = n'.keys.length + 1) (hsep : Separates (fun x key => key ∈ keysBelow pages' h x) n')
    (hkeys : ∀ key ∈ n'.keys, key ∈ keysBelow old (h + 1) p)
    (hsmall : ∀ i ∈ below old (h + 1) p, i ∉ below old h c → ∀ m, old i = some m → m.keys.length < ORDER) :
    Renews old pages' first next (h + 1) p [p] [p] := by
  have hmem : ∀ {i}, i ∈ [p].flatMap (below pages' (h + 1)) → i = p ∨ i ∈ tops.flatMap (below pages h) ∨
      ∃ x ∈ n.siblings j, i ∈ below old h x := by
    intro i hi
    rw [List.flatMap_singleton, (hg.below_new hr).mem_iff, List.mem_cons, List.mem_append] at hi
    exact hi.imp_right (Or.imp_right List.mem_flatMap.1)
  have hsub : c ∈ n.subs := subs_internal hg.isLeaf ▸ List.mem_of_getElem? hg.child
  have hsib : ∀ {x}, x ∈ n.siblings j → x ∈ n.subs := fun hx =>
    subs_internal hg.isLeaf ▸ mem_children_of_siblings hg.child hx
  have hp : p ∉ below old h c := hg.sound.not_mem_child hg.page hsub
  have hlt : p < first := hg.sound.bound p (mem_below_self old h p)
  refine ⟨?_, ?_, ?_, ?_, ?_, ?_, ?_⟩
  · intro t ht
    rw [List.mem_singleton.1 ht]
    exact .internal hg.page' hg.isLeaf' hsorted hlen (fun x hx => hg.ordered_child hr hx) hsep
  · intro i hi hip m hm
    rw [List.mem_singleton] at hip
    rw [hg.frame i hip] at hm
    rcases (hmem hi).resolve_left hip with htop | ⟨x, hx, hix⟩
    · exact hr.small i htop List.not_mem_nil m hm
    · obtain ⟨hic, -, hif⟩ := hg.apart hx hix
      rw [hr.frame i hic hif] at hm
      exact hsmall i (mem_below_child hg.page (hsib hx) hix) hic m hm
  · rw [List.flatMap_singleton, (hg.below_new hr).nodup_iff, List.nodup_cons, List.nodup_append']
    have hnodup := hg.below_old.nodup_iff.1 hg.sound.distinct
    rw [List.nodup_cons, List.nodup_append'] at hnodup
    obtain ⟨hpn, -, hrest, -⟩ := hnodup
    refine ⟨fun hpm => ?_, hr.distinct, hrest, fun i hi hix => ?_⟩
    · rcases List.mem_append.1 hpm with htop | hx
      · exact (hr.ids p htop).elim hp fun hge => Nat.not_le_of_lt hlt hge.1
      · exact hpn (List.mem_append_right _ hx)
    · obtain ⟨x, hx, hix⟩ := List.mem_flatMap.1 hix
      obtain ⟨hic, -, hif⟩ := hg.apart hx hix
      exact (hr.ids i hi).elim hic fun hge => Nat.not_le_of_lt hif hge.1
  · intro i hi
    rcases hmem hi with rfl | htop | ⟨x, hx, hix⟩
    · exact .inl (mem_below_self old h i)
    · exact (hr.ids i htop).imp_left (mem_below_child hg.page hsub)
    · exact .inl (mem_below_child hg.page (hsib hx) hix)
  · intro key hkey
    rw [List.flatMap_singleton, keysBelow_node hg.page', subs_internal hg.isLeaf', List.mem_append,
      List.mem_flatMap] at hkey
    rcases hkey with hkey | ⟨x, hx, hkey⟩
    · exact hkeys key hkey
    rw [keysBelow_node hg.page, List.mem_append, List.mem_flatMap]
    rcases hg.keys_new hr hx hkey with ⟨hx, hkey⟩ | ⟨-, hkey⟩
    · exact .inr ⟨x, hsib hx, hkey⟩
    · exact .inr ⟨c, hsub, hkey⟩
  · rw [List.flatMap_singleton, hg.entries_new hr]
  · intro i hi hif
    have hip : i ≠ p := by
      rintro rfl
      exact hi (mem_below_self old h i)
    rw [hg.frame i hip, hr.frame i (fun hic => hi (mem_below_child hg.page hsub hic)) hif]

end Grafted

/-! ## A parent that is not touched -/

theorem Renews.small_top (hr : Renews old pages first next h p [p] [p])
    (hsmall : ∀ n, pages p = some n → n.keys.length < ORDER) : Renews old pages first next h p [p] [] := by
  refine { hr with small := fun i hi _ m hm => ?_ }
  by_cases hip : i = p
  · subst hip
    exact hsmall m hm
  · exact hr.small i hi (by simpa using hip) m hm

theorem renews_plug (hr : Renews old pages first next h c [c] []) (hs : Sound old first (h + 1) p)
    (hp : old p = some n) (hl : n.isLeaf = false) (hc : n.children[j]? = some c)
    (hsmall : ∀ i ∈ below old (h + 1) p, i ∉ below old h c → ∀ m, old i = some m → m.keys.length < ORDER) :
    Renews old pages first next (h + 1) p [p] [] := by
  have hpc : p ∉ below old h c := hs.not_mem_child hp (subs_internal hl ▸ List.mem_of_getElem? hc)
  have hp' : pages p = some n := by rw [hr.frame p hpc (hs.bound p (mem_below_self old h p)), hp]
  have hg : Grafted old pages pages first h p c n n j [c] :=
    ⟨hs, hp, hl, hc, hp', hl, children_cut hc, fun _ _ => rfl⟩
  obtain ⟨hlen, -, hsep⟩ := hs.ordered.fork hp hl
  have hnode : ∀ key ∈ n.keys, key ∈ keysBelow old (h + 1) p := fun key hkey => by
    rw [keysBelow_node hp]
    exact List.mem_append_left _ hkey
  refine (hg.renews hr (hs.ordered.sorted hp) hlen ?_ hnode hsmall).small_top fun m hm => ?_
  · refine hsep.mono fun x hx key hkey => ?_
    rcases hg.keys_new hr hx hkey with ⟨-, hkey⟩ | ⟨htop, hkey⟩
    · exact hkey
    · rwa [List.mem_singleton.1 htop]
  · rw [hp', Option.some.injEq] at hm
    exact hm ▸ hsmall p (mem_below_self old h p) hpc n hp

/-! ## One more separator -/

/-- The record `insert_into_internal` writes. -/
def internalInsert (n : Node K V) (key : K) (left right : PageId) : Node K V :=
  { n with
    keys := n.keys.insertIdx (insertPos key n.keys) key
    children := n.children.take (insertPos key n.keys) ++
      left :: right :: n.children.drop (insertPos key n.keys + 1) }

/-- The new separator is between its neighbours. -/
theorem Cut.fits (hcut : Cut old pages h c right middle) (hsep : Separates (fun x key => key ∈ keysBelow old h x) n)
    (hc : n.children[j]? = some c) {i : Nat} {s : K} (hi : n.keys[i]? = some s) :
    (i < j → s < middle) ∧ (j ≤ i → middle < s) := by
  obtain ⟨key, hkey, hlt⟩ := hcut.above
  exact ⟨fun hij => ((hsep i s j c key hi hc hkey).2 hij).trans_lt hlt,
    fun hji => (hsep i s j c middle hi hc hcut.mem).1 hji⟩

/-- The slots of the children after the insertion: those behind the child move up by one. -/
theorem children_insert_cases {xs : List PageId} (hj : j < xs.length) {k : Nat}
    (hx : (xs.take j ++ c :: right :: xs.drop (j + 1))[k]? = some x) :
    k < j ∧ xs[k]? = some x ∨ k = j ∧ x = c ∨ k = j + 1 ∧ x = right ∨ j + 1 < k ∧ xs[k - 1]? = some x := by
  have hlen : (xs.take j).length = j := by simpa using hj.le
  rcases lt_or_ge k j with hkj | hkj
  · rw [List.getElem?_append_left (hlen.symm ▸ hkj), List.getElem?_take_of_lt hkj] at hx
    exact .inl ⟨hkj, hx⟩
  rw [List.getElem?_append_right (hlen.symm ▸ hkj), hlen] at hx
  obtain ⟨d, rfl⟩ := Nat.exists_eq_add_of_le hkj
  rw [Nat.add_sub_cancel_left] at hx
  match d, hx with
  | 0, hx => exact .inr (.inl ⟨rfl, (Option.some.inj hx).symm⟩)
  | 1, hx => exact .inr (.inr (.inl ⟨rfl, (Option.some.inj hx).symm⟩))
  | d + 2, hx =>
    rw [List.getElem?_cons_succ, List.getElem?_cons_succ, List.getElem?_drop] at hx
    refine .inr (.inr (.inr ⟨by omega, ?_⟩))
    rwa [show j + (d + 2) - 1 = j + 1 + d by omega]

/-- The halves below the new separator, the other trees where they were: everything is kept apart. -/
theorem Separates.insert {stored stored' : PageId → K → Prop} (hs : Separates stored n) (hc : n.children[j]? = some c)
    (hlen : n.children.length = n.keys.length + 1) (hpos : insertPos middle n.keys = j) (hmid : stored c middle)
    (hsib : ∀ x ∈ n.siblings j, ∀ key, stored' x key → stored x key)
    (hleft : ∀ key, stored' c key → stored c key ∧ key < middle)
    (hright : ∀ key, stored' right key → stored c key ∧ middle ≤ key) :
    Separates stored' (internalInsert n middle c right) := by
  have hj : j < n.children.length := (List.getElem?_eq_some_iff.1 hc).1
  intro i s k x key hi hx hk
  simp only [internalInsert, hpos] at hi hx
  -- the old slot `k₀` of a child that holds the key, and on which side of the new separator it is
  obtain ⟨k₀, x₀, hx₀, hk₀, hslot, hside⟩ : ∃ k₀ x₀, n.children[k₀]? = some x₀ ∧ stored x₀ key ∧
      (k ≤ j ∧ k₀ = k ∨ j < k ∧ k = k₀ + 1) ∧ (k ≤ j → key < middle) ∧ (j < k → middle ≤ key) := by
    rcases children_insert_cases hj hx with ⟨hkj, hx⟩ | ⟨rfl, rfl⟩ | ⟨rfl, rfl⟩ | ⟨hjk, hx⟩
    · have hkey := hsib x (mem_siblings hx hkj.ne) key hk
      have ht : n.keys[k]? = some n.keys[k] := List.getElem?_eq_getElem (by omega)
      have hlt : key < n.keys[k] := (hs k _ k x key ht hx hkey).1 (Nat.le_refl k)
      have hle : n.keys[k] ≤ middle := (hs k _ j c middle ht hc hmid).2 hkj
      exact ⟨k, x, hx, hkey, .inl ⟨hkj.le, rfl⟩, fun _ => hlt.trans_le hle, fun hjk => absurd hjk (by omega)⟩
    · obtain ⟨hkey, hlt⟩ := hleft key hk
      exact ⟨k, x, hc, hkey, .inl ⟨Nat.le_refl k, rfl⟩, fun _ => hlt, fun hjk => absurd hjk (Nat.lt_irrefl k)⟩
    · obtain ⟨hkey, hle⟩ := hright key hk
      exact ⟨j, c, hc, hkey, .inr ⟨Nat.lt_succ_self j, rfl⟩, fun hkj => absurd hkj (by omega), fun _ => hle⟩
    · have hkey := hsib x (mem_siblings hx (by omega)) key hk
      have hlen' : k - 1 < n.children.length := (List.getElem?_eq_some_iff.1 hx).1
      have ht : n.keys[j]? = some n.keys[j] := List.getElem?_eq_getElem (by omega)
      have hlt : middle < n.keys[j] := (hs j _ j c middle ht hc hmid).1 (Nat.le_refl j)
      have hle : n.keys[j] ≤ key := (hs j _ (k - 1) x key ht hx hkey).2 (by omega)
      exact ⟨k - 1, x, hx, hkey, .inr ⟨by omega, by omega⟩, fun hkj => absurd hkj (by omega), fun _ => hlt.le.trans hle⟩
  rcases insertIdx_cases hi with ⟨hij, hi⟩ | ⟨rfl, rfl⟩ | ⟨hij, hi⟩
  · obtain ⟨hbelow, habove⟩ := hs i s k₀ x₀ key hi hx₀ hk₀
    exact ⟨fun hki => hbelow (by omega), fun hik => habove (by omega)⟩
  · exact hside
  · obtain ⟨hbelow, habove⟩ := hs (i - 1) s k₀ x₀ key hi hx₀ hk₀
    exact ⟨fun hki => hbelow (by omega), fun hik => habove (by omega)⟩

theorem renews_insert (hr : Renews old pages first next h c [c, right] []) (hcut : Cut old pages h c right middle)
    (hs : Sound old first (h + 1) p) (hp : old p = some n) (hl : n.isLeaf = false) (hc : n.children[j]? = some c)
    (hp' : pages' p = some (internalInsert n middle c right)) (hframe : ∀ i, i ≠ p → pages' i = pages i)
    (hsmall : ∀ i ∈ below old (h + 1) p, i ∉ below old h c → ∀ m, old i = some m → m.keys.length < ORDER) :
    Renews old pages' first next (h + 1) p [p] [p] := by
  have hsorted := hs.ordered.sorted hp
  obtain ⟨hlen, -, hsep⟩ := hs.ordered.fork hp hl
  have hj : j < n.children.length := (List.getElem?_eq_some_iff.1 hc).1
  have hpos : insertPos middle n.keys = j := insertPos_eq_of_cut (by omega)
    (fun i s hi hij => (hcut.fits hsep hc hi).1 hij) fun i s hi hji => ((hcut.fits hsep hc hi).2 hji).le
  have hnew : middle ∉ n.keys := fun hmem => by
    obtain ⟨i, hi⟩ := List.mem_iff_getElem?.1 hmem
    rcases lt_or_ge i j with hij | hji
    · exact lt_irrefl middle ((hcut.fits hsep hc hi).1 hij)
    · exact lt_irrefl middle ((hcut.fits hsep hc hi).2 hji)
  have hg : Grafted old pages pages' first h p c n (internalInsert n middle c right) j [c, right] := by
    refine ⟨hs, hp, hl, hc, hp', hl, ?_, hframe⟩
    rw [internalInsert, hpos]
    rfl
  have hcmem : c ∈ n.subs := subs_internal hl ▸ List.mem_of_getElem? hc
  refine hg.renews hr (sorted_insertPos hsorted hnew) ?_ ?_ ?_ hsmall
  · simp only [internalInsert, hpos, List.length_append, List.length_take, List.length_cons, List.length_drop]
    rw [List.length_insertIdx_of_le_length (by omega)]
    omega
  · have hleft := hg.agree_top hr (x := c) (by simp)
    have hright := hg.agree_top hr (x := right) (by simp)
    refine hsep.insert hc hlen hpos hcut.mem (fun x hx key hkey => ?_) (fun key hkey => ?_) fun key hkey => ?_
    · rwa [(hg.agree_sibling hr hx).keysBelow] at hkey
    · rw [hleft.keysBelow] at hkey
      exact ⟨hr.keys key (by simp [hkey]), hcut.left key hkey⟩
    · rw [hright.keysBelow] at hkey
      exact ⟨hr.keys key (by simp [hkey]), hcut.right key hkey⟩
  · intro key hkey
    rw [keysBelow_node hp, List.mem_append, List.mem_flatMap]
    rcases (List.mem_insertIdx (insertPos_le middle n.keys)).1 hkey with rfl | hkey
    · exact .inr ⟨c, hcmem, hcut.mem⟩
    · exact .inl hkey

/-! ## A new root -/

theorem ordered_newRoot (hr : Renews old pages first next h id [id, right] []) (hcut : Cut old pages h id right middle)
    (hp' : pages' next = some ⟨false, [middle], [], [id, right], 0, 0⟩)
    (hag : ∀ x ∈ [id, right], Agree pages pages' h x) : OrderedTree pages' (h + 1) next := by
  refine .internal hp' rfl (List.pairwise_singleton _ _) rfl (fun x hx => (hr.ordered x hx).congr (hag x hx)) ?_
  refine separates_pair (fun key hkey => ?_) fun key hkey => ?_
  · rw [(hag id (by simp)).keysBelow] at hkey
    exact hcut.left key hkey
  · rw [(hag right (by simp)).keysBelow] at hkey
    exact hcut.right key hkey

/-! ## The way up -/

namespace Path

variable {root : PageId} {H : Nat}

theorem sound (hs : Sound old first H root) (hpath : Path old root H h c) : Sound old first h c := by
  induction hpath with
  | top => exact hs
  | down _ hp hl hc ih => exact ih.child hp hl (List.mem_of_getElem? hc)

omit [LinearOrder K] in
theorem mem_root (hpath : Path old root H h c) {i : PageId} (hi : i ∈ BTree.below old h c) : i ∈ BTree.below old H root := by
  induction hpath with
  | top => exact hi
  | down _ hp hl hc ih => exact ih (mem_below_child hp (subs_internal hl ▸ List.mem_of_getElem? hc) hi)

omit [LinearOrder K] in
theorem le (hpath : Path old root H h c) : h ≤ H := by
  induction hpath with
  | top => exact Nat.le_refl H
  | down _ _ _ _ ih => exact Nat.le_of_succ_le ih

omit [LinearOrder K] in
/-- Every page of the tree is on such a way. -/
theorem of_mem : ∀ {h : Nat} {c i : PageId}, Path old root H h c → i ∈ BTree.below old h c → ∃ k, Path old root H (k + 1) i
  | 0, _, _, _, hi => by cases hi
  | h + 1, c, i, hpath, hi => by
    rw [BTree.below, List.mem_cons] at hi
    rcases hi with rfl | hi
    · exact ⟨h, hpath⟩
    cases hp : old c with
    | none => simp [hp] at hi
    | some n =>
      simp only [hp, List.mem_flatMap] at hi
      obtain ⟨x, hx, hi⟩ := hi
      cases hl : n.isLeaf with
      | true =>
        rw [subs_leaf hl] at hx
        cases hx
      | false =>
        rw [subs_internal hl] at hx
        obtain ⟨j, hj⟩ := List.mem_iff_getElem?.1 hx
        exact of_mem (.down hpath hp hl hj) hi

end Path

section Run

variable {db : Db K V} {fuel : Nat}

omit [LinearOrder K] in
theorem run_splitInternal (insertUp : PageId → K → PageId → PageId → Task K V Unit) (hp : db.pages id = some n)
    (hm : n.keys[n.keys.length / 2]? = some middle) :
    (splitInternal insertUp id).run exec db = (linkHalves insertUp n id db.nextPage middle).run exec
      (db.halve id (leftFork n) (rightFork n)) := by
  simp [splitInternal, Prog.run, exec, hp, hm, Db.halve, Db.write, leftFork, rightFork]

omit [LinearOrder K] in
theorem run_linkHalves_up (insertUp : PageId → K → PageId → PageId → Task K V Unit) (hn : n.parentId = p)
    (hp : p ≠ 0) :
    (linkHalves insertUp n id right middle).run exec db = (insertUp p middle id right).run exec db := by
  rw [linkHalves, if_neg (hn ▸ hp), hn]

theorem run_insertIntoInternal (hp : db.pages id = some n) :
    (insertIntoInternal (fuel + 1) id middle c right).run exec db =
      if ORDER ≤ (internalInsert n middle c right).keys.length then
        (splitInternal (insertIntoInternal fuel) id).run exec (db.write id (internalInsert n middle c right))
      else (some (), db.write id (internalInsert n middle c right)) := by
  by_cases hfull : ORDER ≤ (internalInsert n middle c right).keys.length
  · rw [if_pos hfull]
    simp only [internalInsert] at hfull
    simp [insertIntoInternal, Prog.run, exec, hp, hfull, Db.write, internalInsert]
  · rw [if_neg hfull]
    simp only [internalInsert] at hfull
    simp [insertIntoInternal, Prog.run, exec, hp, hfull, Db.write, internalInsert]

omit [LinearOrder K] in
theorem halve_left (left right : Node K V) : (db.halve id left right).pages id = some left := by
  simp [Db.halve, Db.write]

omit [LinearOrder K] in
theorem halve_right (left right : Node K V) (hid : id < db.nextPage) :
    (db.halve id left right).pages db.nextPage = some right := by
  simp [Db.halve, Db.write, hid.ne']

omit [LinearOrder K] in
theorem halve_frame (left right : Node K V) {i : PageId} (hid : i ≠ id) (hnext : i ≠ db.nextPage) :
    (db.halve id left right).pages i = db.pages i := by
  simp [Db.halve, Db.write, hid, hnext]

theorem Renews.forked_halve (hr : Renews old db.pages first db.nextPage (h + 1) p [p] [p])
    (hs : Sound old first (h + 1) p) (hle : first ≤ db.nextPage) (hp : db.pages p = some n) (hl : n.isLeaf = false) :
    Forked db.pages (db.halve p (leftFork n) (rightFork n)).pages h p db.nextPage n := by
  have hlt : p < db.nextPage := hr.lt_next hs hle (by simpa using mem_below_self db.pages h p)
  exact hr.forked hs hle hp hl (halve_right _ _ hlt) (halve_left _ _) fun i hip hin => halve_frame _ _ hip hin

end Run

section Up

variable {db₀ db : Db K V} {H fuel : Nat} {leaf : PageId}

namespace Overfull

theorem sound (ho : Overfull db₀ H leaf) : Sound db₀.pages db₀.nextPage H db₀.root :=
  ⟨ho.ordered, ho.distinct, fun i hi => (ho.ids i hi).2⟩

/-- Next to the full leaf there is no full node. -/
theorem small_beside (ho : Overfull db₀ H leaf) (hpath : Path db₀.pages db₀.root H (h + 1) p)
    (hleaf : leaf ∈ below db₀.pages h c) :
    ∀ i ∈ below db₀.pages (h + 1) p, i ∉ below db₀.pages h c → ∀ m, db₀.pages i = some m → m.keys.length < ORDER := by
  refine fun i hi hic => ho.small i (hpath.mem_root hi) ?_
  rintro rfl
  exact hic hleaf

/-- No more is to be done: the tree of the root is renewed as well. -/
theorem renews_root (ho : Overfull db₀ H leaf) (hpath : Path db₀.pages db₀.root H h c)
    (hleaf : leaf ∈ below db₀.pages h c) (hr : Renews db₀.pages pages db₀.nextPage next h c [c] []) :
    Renews db₀.pages pages db₀.nextPage next H db₀.root [db₀.root] [] := by
  induction hpath with
  | top => exact hr
  | down hpath hp hl hc ih =>
    have hmem := mem_below_child hp (subs_internal hl ▸ List.mem_of_getElem? hc) hleaf
    exact ih hmem (renews_plug hr (hpath.sound ho.sound) hp hl hc (ho.small_beside hpath hleaf))

theorem regrown (ho : Overfull db₀ H leaf) (hpath : Path db₀.pages db₀.root H h c)
    (hleaf : leaf ∈ below db₀.pages h c) (hr : Renews db₀.pages db.pages db₀.nextPage next h c [c] [])
    (hroot : db.root = db₀.root) : Regrown db₀ H db H := by
  have hr := ho.renews_root hpath hleaf hr
  refine ⟨?_, ?_, ?_, ?_⟩ <;> rw [hroot]
  · exact hr.ordered _ (List.mem_singleton_self _)
  · simpa using hr.distinct
  · simpa using hr.entries
  · exact fun i hi => hr.small i (by simpa using hi) List.not_mem_nil

end Overfull

/-- A new root over the two trees that are now in the place of the old root's. -/
theorem Overfull.regrown_grow (ho : Overfull db₀ H leaf) (hle : db₀.nextPage ≤ db.nextPage)
    (hr : Renews db₀.pages db.pages db₀.nextPage db.nextPage H db₀.root [db₀.root, right] [])
    (hcut : Cut db₀.pages db.pages H db₀.root right middle) :
    Regrown db₀ H (db.grow middle db₀.root right) (H + 1) := by
  have hp' : (db.grow middle db₀.root right).pages db.nextPage =
      some ⟨false, [middle], [], [db₀.root, right], 0, 0⟩ := by simp [Db.grow, Db.write]
  have hframe : ∀ i, i ≠ db.nextPage → (db.grow middle db₀.root right).pages i = db.pages i := fun i hi => by
    simp [Db.grow, Db.write, hi]
  have hag : ∀ x ∈ [db₀.root, right], Agree db.pages (db.grow middle db₀.root right).pages H x := fun x hx i hi =>
    hframe i (hr.lt_next ho.sound hle (List.mem_flatMap.2 ⟨x, hx, hi⟩)).ne
  have hbelow : below (db.grow middle db₀.root right).pages (H + 1) db.nextPage =
      db.nextPage :: [db₀.root, right].flatMap (below db.pages H) := by
    rw [below_node hp']
    congr 1
    exact List.flatMap_congr fun x hx => (hag x hx).below
  refine ⟨ordered_newRoot hr hcut hp' hag, ?_, ?_, ?_⟩
  · change (below _ (H + 1) db.nextPage).Nodup
    rw [hbelow, List.nodup_cons]
    exact ⟨fun hmem => lt_irrefl _ (hr.lt_next ho.sound hle hmem), hr.distinct⟩
  · change entries _ (H + 1) db.nextPage = _
    rw [entries_internal hp' rfl, ← hr.entries]
    exact List.flatMap_congr fun x hx => (hag x hx).entries
  · change ∀ i ∈ below _ (H + 1) db.nextPage, _
    rw [hbelow]
    intro i hi m hm
    rcases List.mem_cons.1 hi with rfl | hi
    · rw [hp', Option.some.injEq] at hm
      rw [← hm]
      change 1 < ORDER
      decide
    · rw [hframe i (hr.lt_next ho.sound hle hi).ne] at hm
      exact hr.small i hi List.not_mem_nil m hm

/-- **Run.** From a tree below `c` that has become two, all the way up. -/
theorem Overfull.linkHalves (ho : Overfull db₀ H leaf) (hpath : Path db₀.pages db₀.root H h c)
    (hleaf : leaf ∈ below db₀.pages h c) (hold : db₀.pages c = some n) (hn : m.parentId = n.parentId)
    (hroot : db.root = db₀.root) (hle : db₀.nextPage ≤ db.nextPage)
    (hr : Renews db₀.pages db.pages db₀.nextPage db.nextPage h c [c, right] [])
    (hcut : Cut db₀.pages db.pages h c right middle) (hfuel : H ≤ h + fuel) :
    ∃ db' h', (BTree.linkHalves (insertIntoInternal fuel) m c right middle).run exec db = (some (), db') ∧
      Regrown db₀ H db' h' := by
  induction hpath generalizing db fuel n m right middle with
  | top => exact ⟨_, _, run_linkHalves_top _ (hn.trans (ho.root n hold)) _ _ _, ho.regrown_grow hle hr hcut⟩
  | @down h j p c node hpath hp hl hc ih =>
    have hs := hpath.sound ho.sound
    have hcsub : c ∈ node.subs := subs_internal hl ▸ List.mem_of_getElem? hc
    have hmem := mem_below_child hp hcsub hleaf
    have hpmem := hpath.mem_root (mem_below_self db₀.pages h p)
    have hpc := hs.not_mem_child hp hcsub
    have hbeside := ho.small_beside hpath hleaf
    have hpage : db.pages p = some node := by rw [hr.frame p hpc (ho.ids p hpmem).2, hp]
    obtain ⟨fuel, rfl⟩ : ∃ f, fuel = f + 1 := ⟨fuel - 1, by have := hpath.le; omega⟩
    rw [run_linkHalves_up _ (hn.trans (ho.parent p hpmem node hp c hcsub n hold))
      (Nat.pos_iff_ne_zero.1 (ho.ids p hpmem).1), run_insertIntoInternal hpage]
    have hpage' : (db.write p (internalInsert node middle c right)).pages p =
        some (internalInsert node middle c right) := by simp [Db.write]
    have hins := renews_insert hr hcut hs hp hl hc hpage' (fun i hi => by simp [Db.write, hi]) hbeside
    by_cases hfull : ORDER ≤ (internalInsert node middle c right).keys.length
    · -- the parent is full with the new key, and splits
      rw [if_pos hfull]
      have hlen : (internalInsert node middle c right).keys.length = ORDER := by
        refine le_antisymm ?_ hfull
        rw [internalInsert, List.length_insertIdx_of_le_length (insertPos_le middle node.keys)]
        exact hbeside p (mem_below_self db₀.pages h p) hpc node hp
      obtain ⟨middle', hm'⟩ : ∃ x, (internalInsert node middle c right).keys[
          (internalInsert node middle c right).keys.length / 2]? = some x :=
        ⟨_, List.getElem?_eq_getElem (by rw [hlen]; decide)⟩
      have hforked := Renews.forked_halve hins hs hle hpage' hl
      obtain ⟨hr', hcut'⟩ := renews_splitInternal hins hs hle hforked hlen hm'
      rw [run_splitInternal _ hpage' hm']
      exact ih hmem hp rfl hroot (Nat.le_succ_of_le hle) hr' hcut' (by omega)
    · rw [if_neg hfull]
      refine ⟨_, _, rfl, ho.regrown hpath hmem (hins.small_top fun m hm => ?_) hroot⟩
      rw [hpage', Option.some.injEq] at hm
      exact hm ▸ not_le.1 hfull

/-- **A split cascade preserves the contents.** From every tree in search order with one full leaf, `split_leaf` and all
    the calls it triggers end with a tree in search order that has the same entries and no full node, under the old root
    or a new one. -/
theorem split_preserves (ho : Overfull db₀ H leaf) (hfuel : H ≤ fuel) :
    ∃ db' h', (splitLeaf fuel leaf).run exec db₀ = (some (), db') ∧ Regrown db₀ H db' h' := by
  obtain ⟨k, hpath⟩ := Path.of_mem .top ho.mem
  obtain ⟨node, hp, hl, hfull⟩ := ho.full
  obtain ⟨middle, hm⟩ : ∃ x, node.keys[node.keys.length / 2]? = some x :=
    ⟨_, List.getElem?_eq_getElem (by rw [hfull]; decide)⟩
  have hlt : leaf < db₀.nextPage := (ho.ids leaf ho.mem).2
  obtain ⟨hr, hcut⟩ := renews_splitLeaf (hpath.sound ho.sound) hp hl hfull hm (halve_right (leftHalf _ _) _ hlt)
    (halve_left _ _) fun i hi hif => halve_frame _ _ hi hif.ne
  rw [run_splitLeaf_halve fuel hp hm]
  exact ho.linkHalves hpath (mem_below_self db₀.pages k leaf) hp rfl rfl (Nat.le_succ _) hr hcut (by omega)

/-- Scans answer what they answered before the split. -/
theorem Regrown.scan {h' fuel' : Nat} (hr : Regrown db₀ H db h') (ht : OrderedTree db₀.pages H db₀.root)
    (hf : H ≤ fuel) (hf' : h' ≤ fuel') (start stop : K) :
    ((BTree.scan fuel' start stop).run exec db).1 = ((BTree.scan fuel start stop).run exec db₀).1 := by
  have hbefore : (BTree.scan fuel start stop).run exec db₀ = _ := run_scanRange start stop [] ht.searchTree hf
  have hafter : (BTree.scan fuel' start stop).run exec db = _ := run_scanRange start stop [] hr.ordered.searchTree hf'
  rw [hbefore, hafter, hr.entries]

end Up

/-- A root with 63 separators over 64 leaves, the first one full. -/
def overfull : Db Nat Nat where
  pages id :=
    if id = 1 then some ⟨true, List.range 64, List.range 64, [], 65, 2⟩
    else if 2 ≤ id ∧ id ≤ 64 then some ⟨true, [62 + id], [62 + id], [], 65, 0⟩
    else if id = 65 then some ⟨false, (List.range 63).map (64 + ·), [], (List.range 64).map (1 + ·), 0, 0⟩
    else none
  root := 65
  nextPage := 66
  wal := []
  nextTx := 1

theorem leaf_overfull {c : Nat} (hc : c ∈ (List.range 64).map (1 + ·)) : ∃ n, overfull.pages c = some n ∧
    n.isLeaf = true ∧ n.keys.Pairwise (· < ·) ∧ n.values.length = n.keys.length ∧ n.parentId = 65 ∧
    (c ≠ 1 → n.keys.length < ORDER) ∧ ∀ key ∈ n.keys, key < 63 + c ∧ (c ≠ 1 → 62 + c ≤ key) := by
  obtain ⟨j, hj, rfl⟩ := List.mem_map.1 hc
  have hlt := List.mem_range.1 hj
  by_cases hone : 1 + j = 1
  · rw [hone]
    exact ⟨_, rfl, rfl, List.pairwise_lt_range, rfl, rfl, fun h => absurd rfl h,
      fun key hkey => ⟨List.mem_range.1 hkey, fun h => absurd rfl h⟩⟩
  · refine ⟨⟨true, [62 + (1 + j)], [62 + (1 + j)], [], 65, 0⟩, ?_, rfl, List.pairwise_singleton _ _, rfl, rfl,
      fun _ => ?_, fun key hkey => ?_⟩
    · change (if 1 + j = 1 then _ else if 2 ≤ 1 + j ∧ 1 + j ≤ 64 then _ else _) = _
      rw [if_neg hone, if_pos (by omega)]
    · change 1 < ORDER
      decide
    · obtain rfl := List.mem_singleton.1 hkey
      exact ⟨by omega, fun _ => le_rfl⟩

theorem below_overfull : below overfull.pages 2 overfull.root = 65 :: (List.range 64).map (1 + ·) := by decide

theorem ordered_overfull : OrderedTree overfull.pages 2 overfull.root := by
  have hsorted : ((List.range 63).map (64 + ·)).Pairwise (· < ·) :=
    List.pairwise_lt_range.map _ fun a b hab => Nat.add_lt_add_left hab 64
  refine .internal rfl rfl hsorted rfl (fun c hc => ?_) fun i s j c key hi hc hkey => ?_
  · obtain ⟨n, hp, hl, hn, hlen, -⟩ := leaf_overfull hc
    exact .leaf hp hl hn hlen
  · obtain ⟨n, hp, hl, -, -, -, -, hkeys⟩ := leaf_overfull (List.mem_of_getElem? hc)
    have hmem : key ∈ keysBelow overfull.pages 1 c := hkey
    rw [keysBelow_leaf hp hl] at hmem
    obtain ⟨hbelow, habove⟩ := hkeys key hmem
    simp only [List.getElem?_map, Option.map_eq_some_iff, List.getElem?_eq_some_iff, List.getElem_range,
      exists_prop] at hi hc
    obtain ⟨_, ⟨_, rfl⟩, hs⟩ := hi
    obtain ⟨_, ⟨_, rfl⟩, hcj⟩ := hc
    have hs : 64 + i = s := hs
    have hcj : (1 + j : Nat) = (c : Nat) := hcj
    refine ⟨fun hji => by omega, fun hij => ?_⟩
    have := habove (by omega)
    omega

theorem overfull_ok : Overfull overfull 2 1 where
  ordered := ordered_overfull
  distinct := by
    rw [below_overfull]
    decide
  ids := by
    rw [below_overfull]
    decide
  root := by
    intro n hn
    cases hn
    rfl
  parent := by
    intro p hp n hn c hc m hm
    rw [below_overfull] at hp
    rcases List.mem_cons.1 hp with rfl | hp
    · obtain rfl := Option.some.inj hn
      obtain ⟨m', hm', -, -, -, hparent, -⟩ := leaf_overfull hc
      exact Option.some.inj (hm.symm.trans hm') ▸ hparent
    · obtain ⟨n', hn', hl, -⟩ := leaf_overfull hp
      obtain rfl := Option.some.inj (hn.symm.trans hn')
      rw [subs_leaf hl] at hc
      cases hc
  mem := by
    rw [below_overfull]
    decide
  full := ⟨_, rfl, rfl, rfl⟩
  small := by
    intro i hi hne n hn
    rw [below_overfull] at hi
    rcases List.mem_cons.1 hi with rfl | hi
    · obtain rfl := Option.some.inj hn
      decide
    · obtain ⟨n', hn', -, -, -, -, hsmall, -⟩ := leaf_overfull hi
      exact Option.some.inj (hn.symm.trans hn') ▸ hsmall hne

/-- The root is full with the separator of the two leaves, splits too, and gets a new root. -/
theorem split_preserves_overfull : ∃ db' h', (splitLeaf 2 1).run exec overfull = (some (), db') ∧
    (db'.pages db'.root).map Node.children = some [65, 67] ∧ Regrown overfull 2 db' h' := by
  obtain ⟨db', h', hrun, hregrown⟩ := split_preserves overfull_ok (Nat.le_refl 2)
  refine ⟨db', h', hrun, ?_, hregrown⟩
  rw [show db' = ((splitLeaf 2 1).run exec overfull).2 by rw [hrun]]
  decide

end RedisOps.BTree
