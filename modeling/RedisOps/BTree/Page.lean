import RedisOps.Lib.Bytes

/-!
# Pages and their header (`redisdb/src/btree/page.rs`, `btree.rs:9-82`)

A page is 4096 bytes. An access outside of it is a panic, `none` here. The header packs four fields at
hand-chosen offsets:

| field | offset | bytes |
| --- | --- | --- |
| `is_leaf` | 0 | 4 |
| `num_keys` | 1 | 4 |
| `parent_id` | 5 | 8 |
| `next_leaf` | 13 | 8 |

`is_leaf` is written and read as four bytes, three of which belong to `num_keys`, written after it. So a
leaf reads back as a leaf only when the low three bytes of its `num_keys` are zero
(`header_codec_iff`).
-/

namespace RedisOps.BTree

open Lib

def PAGE_SIZE : Nat := 4096
def ORDER : Nat := 64
def HEADER_SIZE : Nat := 32
def KEY_SIZE : Nat := 32
def VALUE_SIZE : Nat := 64

/-! ## Pages -/

structure Page where
  id : UInt64
  data : Bytes
  dirty : Bool
  size : data.length = PAGE_SIZE

namespace Page

/-- `Page::new` -/
def new (id : UInt64) : Page := ⟨id, List.replicate PAGE_SIZE 0, false, by simp⟩

/-- `&self.data[offset..offset + len]` -/
def readSlice (page : Page) (offset len : Nat) : Option Bytes :=
  if offset + len ≤ PAGE_SIZE then some (slice page.data offset len) else none

/-- `self.data[offset..offset + data.len()].copy_from_slice(data)` -/
def writeSlice (page : Page) (offset : Nat) (data : Bytes) : Option Page :=
  if h : offset + data.length ≤ PAGE_SIZE then
    some { page with
      data := splice page.data offset data, dirty := true
      size := by rw [length_splice (by rw [page.size]; exact h), page.size] }
  else none

def readU32 (page : Page) (offset : Nat) : Option UInt32 :=
  (page.readSlice offset 4).map fun bs => UInt32.ofNat (ofLe bs)

def writeU32 (page : Page) (offset : Nat) (val : UInt32) : Option Page :=
  page.writeSlice offset (leBytes 4 val.toNat)

def readU64 (page : Page) (offset : Nat) : Option UInt64 :=
  (page.readSlice offset 8).map fun bs => UInt64.ofNat (ofLe bs)

def writeU64 (page : Page) (offset : Nat) (val : UInt64) : Option Page :=
  page.writeSlice offset (leBytes 8 val.toNat)

theorem readSlice_of_le (page : Page) {offset len : Nat} (h : offset + len ≤ PAGE_SIZE) :
    page.readSlice offset len = some (slice page.data offset len) := if_pos h

theorem isSome_readSlice {page : Page} {offset len : Nat} :
    (page.readSlice offset len).isSome ↔ offset + len ≤ PAGE_SIZE := by
  unfold readSlice
  split <;> simp_all

theorem isSome_writeSlice {page : Page} {offset : Nat} {bs : Bytes} :
    (page.writeSlice offset bs).isSome ↔ offset + bs.length ≤ PAGE_SIZE := by
  unfold writeSlice
  split <;> simp_all

section Write
variable {page page' : Page} {offset : Nat} {bs : Bytes} (h : page.writeSlice offset bs = some page')
include h

theorem writeSlice_inv : offset + bs.length ≤ page.data.length ∧ page'.id = page.id ∧
    page'.data = splice page.data offset bs := by
  unfold writeSlice at h
  split at h
  · rename_i hle
    cases h
    exact ⟨by rw [page.size]; exact hle, rfl, rfl⟩
  · cases h

theorem slice_writeSlice : slice page'.data offset bs.length = bs := by
  obtain ⟨hle, -, hdata⟩ := writeSlice_inv h
  rw [hdata]
  exact slice_splice (by omega)

/-- A write is not seen outside of its range. -/
theorem slice_writeSlice_of_disjoint {offset' len : Nat}
    (hd : offset' + len ≤ offset ∨ offset + bs.length ≤ offset') :
    slice page'.data offset' len = slice page.data offset' len := by
  obtain ⟨hle, -, hdata⟩ := writeSlice_inv h
  rw [hdata]
  exact slice_splice_of_disjoint hle hd

theorem getElem?_writeSlice_of_le {i : Nat} (hi : offset + bs.length ≤ i) :
    page'.data[i]? = page.data[i]? := by
  obtain ⟨hle, -, hdata⟩ := writeSlice_inv h
  rw [hdata, getElem?_splice hle, if_neg (by omega)]

end Write

end Page

/-! ## The header -/

/-- The decoded header; `page_id` is the id of the page. -/
structure BTreeNode where
  pageId : UInt64
  isLeaf : Bool
  numKeys : UInt32
  parentId : UInt64
  nextLeaf : UInt64
  deriving DecidableEq, Repr

namespace BTreeNode

def fromPage (page : Page) : Option BTreeNode := do
  let isLeaf ← page.readU32 0
  let numKeys ← page.readU32 1
  let parentId ← page.readU64 5
  let nextLeaf ← page.readU64 13
  pure ⟨page.id, isLeaf == 1, numKeys, parentId, nextLeaf⟩

def saveToPage (node : BTreeNode) (page : Page) : Option Page := do
  let page ← page.writeU32 0 (if node.isLeaf then 1 else 0)
  let page ← page.writeU32 1 node.numKeys
  let page ← page.writeU64 5 node.parentId
  page.writeU64 13 node.nextLeaf

/-- The first byte of the header. -/
def leafByte (node : BTreeNode) : Nat := if node.isLeaf then 1 else 0

/-- What `save_to_page` leaves: of `is_leaf` the first byte only, the other fields whole, and the rest of
    the page as it was. -/
structure Saved (node : BTreeNode) (page page' : Page) : Prop where
  id : page'.id = page.id
  isLeaf : slice page'.data 0 1 = leBytes 1 node.leafByte
  numKeys : slice page'.data 1 4 = leBytes 4 node.numKeys.toNat
  parentId : slice page'.data 5 8 = leBytes 8 node.parentId.toNat
  nextLeaf : slice page'.data 13 8 = leBytes 8 node.nextLeaf.toNat
  rest : ∀ i, HEADER_SIZE ≤ i → page'.data[i]? = page.data[i]?

theorem saveToPage_spec (node : BTreeNode) (page : Page) :
    ∃ page', node.saveToPage page = some page' ∧ node.Saved page page' := by
  have hsome : ∀ (p : Page) (offset w n : Nat), offset + w ≤ 32 →
      ∃ p', p.writeSlice offset (leBytes w n) = some p' := fun p offset w n h =>
    Option.isSome_iff_exists.1 (Page.isSome_writeSlice.2 (by simp [PAGE_SIZE]; omega))
  obtain ⟨p₁, h₁⟩ := hsome page 0 4 (if node.isLeaf then (1 : UInt32) else 0).toNat (by omega)
  obtain ⟨p₂, h₂⟩ := hsome p₁ 1 4 node.numKeys.toNat (by omega)
  obtain ⟨p₃, h₃⟩ := hsome p₂ 5 8 node.parentId.toNat (by omega)
  obtain ⟨p₄, h₄⟩ := hsome p₃ 13 8 node.nextLeaf.toNat (by omega)
  have hsave : node.saveToPage page = some p₄ := by
    simp only [saveToPage, Page.writeU32, Page.writeU64, h₁, h₂, h₃, Option.bind_eq_bind, Option.bind_some]
    exact h₄
  have hflag : (if node.isLeaf then (1 : UInt32) else 0).toNat = node.leafByte := by
    unfold leafByte
    split <;> rfl
  rw [hflag] at h₁
  have d₁ := Page.slice_writeSlice h₁
  have d₂ := Page.slice_writeSlice h₂
  have d₃ := Page.slice_writeSlice h₃
  have d₄ := Page.slice_writeSlice h₄
  simp only [length_leBytes] at d₁ d₂ d₃ d₄
  refine ⟨p₄, hsave, ?_, ?_, ?_, ?_, d₄, fun i hi => ?_⟩
  · rw [(Page.writeSlice_inv h₄).2.1, (Page.writeSlice_inv h₃).2.1, (Page.writeSlice_inv h₂).2.1,
      (Page.writeSlice_inv h₁).2.1]
  · -- the three other bytes of `is_leaf` are overwritten by `num_keys`
    rw [Page.slice_writeSlice_of_disjoint h₄ (.inl (by omega)),
      Page.slice_writeSlice_of_disjoint h₃ (.inl (by omega)),
      Page.slice_writeSlice_of_disjoint h₂ (.inl (by omega)), ← take_slice _ 0 1 3, d₁]
    exact take_leBytes 1 3 _
  · rw [Page.slice_writeSlice_of_disjoint h₄ (.inl (by omega)),
      Page.slice_writeSlice_of_disjoint h₃ (.inl (by omega)), d₂]
  · rw [Page.slice_writeSlice_of_disjoint h₄ (.inl (by omega)), d₃]
  · unfold HEADER_SIZE at hi
    rw [Page.getElem?_writeSlice_of_le h₄ (by simp; omega), Page.getElem?_writeSlice_of_le h₃ (by simp; omega),
      Page.getElem?_writeSlice_of_le h₂ (by simp; omega), Page.getElem?_writeSlice_of_le h₁ (by simp; omega)]

/-- `is_leaf` is read back with the low three bytes of `num_keys` above its own. -/
theorem Saved.ofLe_isLeaf {node : BTreeNode} {page page' : Page} (h : node.Saved page page') :
    ofLe (slice page'.data 0 4) = node.leafByte + 256 * (node.numKeys.toNat % 2 ^ 24) := by
  have hkeys : slice page'.data 1 3 = leBytes 3 node.numKeys.toNat := by
    rw [← take_slice _ 1 3 1, h.numKeys]
    exact take_leBytes 3 1 _
  have hbyte : (UInt8.ofNat node.leafByte).toNat = node.leafByte := by
    unfold leafByte
    split <;> rfl
  rw [show 4 = 1 + 3 from rfl, slice_add, h.isLeaf, hkeys]
  change (UInt8.ofNat node.leafByte).toNat + 256 * ofLe (leBytes 3 node.numKeys.toNat) = _
  rw [hbyte, ofLe_leBytes, show 256 ^ 3 = 2 ^ 24 from rfl]

/-- The fields of a saved page: all of them, but a leaf is one only when the low three bytes of its
    `num_keys` are zero. -/
theorem Saved.fromPage_eq {node : BTreeNode} {page page' : Page} (h : node.Saved page page') :
    fromPage page' = some { node with
      pageId := page.id, isLeaf := node.isLeaf && decide (node.numKeys.toNat % 2 ^ 24 = 0) } := by
  have hleaf : (UInt32.ofNat (ofLe (slice page'.data 0 4)) == 1) =
      (node.isLeaf && decide (node.numKeys.toNat % 2 ^ 24 = 0)) := by
    have hlt : node.leafByte + 256 * (node.numKeys.toNat % 2 ^ 24) < 2 ^ 32 := by
      unfold leafByte
      split <;> omega
    rw [h.ofLe_isLeaf, Bool.eq_iff_iff, beq_iff_eq, ← UInt32.toNat_inj, UInt32.toNat_ofNat',
      Nat.mod_eq_of_lt hlt]
    cases hn : node.isLeaf <;> simp [leafByte, hn]
  have hread : ∀ {offset len : Nat}, offset + len ≤ 32 →
      page'.readSlice offset len = some (slice page'.data offset len) := fun hle =>
    page'.readSlice_of_le (by unfold PAGE_SIZE; omega)
  simp [fromPage, Page.readU32, Page.readU64, hread, h.id, h.numKeys, h.parentId, h.nextLeaf,
    hleaf, ofLe_leBytes_of_lt (w := 4) node.numKeys.toNat_lt, ofLe_leBytes_of_lt (w := 8) node.parentId.toNat_lt,
    ofLe_leBytes_of_lt (w := 8) node.nextLeaf.toNat_lt]

/-- **The header codec.** What is saved reads back, with the rest of the page untouched, exactly when the node
    is internal or its `num_keys` has nothing in its low three bytes. -/
theorem header_codec_iff (page : Page) (node : BTreeNode) :
    (∃ page' node', node.saveToPage page = some page' ∧ fromPage page' = some node' ∧
      (node'.isLeaf = node.isLeaf ∧ node'.numKeys = node.numKeys ∧ node'.parentId = node.parentId ∧
        node'.nextLeaf = node.nextLeaf) ∧
      ∀ i, HEADER_SIZE ≤ i → page'.data[i]? = page.data[i]?) ↔
    node.isLeaf = false ∨ node.numKeys.toNat % 2 ^ 24 = 0 := by
  obtain ⟨page', hsave, hsaved⟩ := node.saveToPage_spec page
  have hfrom := hsaved.fromPage_eq
  constructor
  · rintro ⟨_, node', hsave', hfrom', ⟨hleaf, -⟩, -⟩
    rw [hsave, Option.some.injEq] at hsave'
    subst hsave'
    rw [hfrom, Option.some.injEq] at hfrom'
    subst hfrom'
    cases hl : node.isLeaf
    · exact .inl rfl
    · exact .inr (by simpa [hl] using hleaf)
  · intro hcond
    refine ⟨page', _, hsave, hfrom, ⟨?_, rfl, rfl, rfl⟩, hsaved.rest⟩
    rcases hcond with hl | hn
    · simp [hl]
    · rw [decide_eq_true hn, Bool.and_true]

/-- A leaf with one key reads back as an internal node. -/
theorem leaf_header_lost : ¬ ∀ (page : Page) (node : BTreeNode),
    ∃ page' node', node.saveToPage page = some page' ∧ fromPage page' = some node' ∧
      (node'.isLeaf = node.isLeaf ∧ node'.numKeys = node.numKeys ∧ node'.parentId = node.parentId ∧
        node'.nextLeaf = node.nextLeaf) ∧
      ∀ i, HEADER_SIZE ≤ i → page'.data[i]? = page.data[i]? := by
  intro hall
  obtain ⟨page', hsave, hsaved⟩ := saveToPage_spec ⟨1, true, 1, 0, 0⟩ (Page.new 1)
  obtain ⟨p, node', hsave', hfrom', ⟨hleaf, -⟩, -⟩ := hall (Page.new 1) ⟨1, true, 1, 0, 0⟩
  rw [hsave, Option.some.injEq] at hsave'
  subst hsave'
  rw [hsaved.fromPage_eq, Option.some.injEq] at hfrom'
  subst hfrom'
  exact absurd hleaf (by decide)

end BTreeNode

end RedisOps.BTree
