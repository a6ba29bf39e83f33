import RedisOps.BTree.Bounds
import RedisOps.Lib.Cells

/-!
# The slot accessors (`btree.rs:41-74`)

Keys and values lie behind the header in turns, 32 and 64 bytes. A `Cell` is one of either; `Cell.apart` is the
arithmetic on which everything done with slots rests: two cells have no byte in common. So a page is an array of
cells (`lawful`), whichever of `write_key` and `write_value` are called and in whatever order (`cells_runAll`).
-/

namespace RedisOps.BTree

open Lib BTreeNode

inductive Cell
  | key (index : Nat)
  | value (index : Nat)
  deriving DecidableEq, Repr

/-- Cut off, or filled up with zeros, to `size` bytes. -/
def fit (size : Nat) (bs : Bytes) : Bytes :=
  if size ≤ bs.length then bs.take size else bs ++ List.replicate (size - bs.length) 0

theorem buffer_eq_fit (size : Nat) (bs : Bytes) : buffer size bs = fit size bs := by
  unfold buffer fit
  split
  · rename_i h
    rw [Nat.sub_eq_zero_of_le h, List.replicate_zero, List.append_nil]
  · rename_i h
    rw [List.take_of_length_le (Nat.le_of_not_le h)]

namespace Cell

def offset : Cell → Nat
  | .key i => keyOffset i
  | .value i => valueOffset i

def size : Cell → Nat
  | .key _ => KEY_SIZE
  | .value _ => VALUE_SIZE

/-- All bytes of the cell are in the page. -/
def InPage (c : Cell) : Prop := c.offset + c.size ≤ PAGE_SIZE

instance (c : Cell) : Decidable c.InPage := inferInstanceAs (Decidable (_ ≤ _))

def read (page : Page) : Cell → Option Bytes
  | .key i => readKey page i
  | .value i => readValue page i

def write (page : Page) : Cell × Bytes → Option Page
  | (.key i, bs) => writeKey page i bs
  | (.value i, bs) => writeValue page i bs

theorem read_eq (page : Page) (c : Cell) : read page c = page.readSlice c.offset c.size := by
  cases c <;> rfl

theorem write_eq (page : Page) (c : Cell) (bs : Bytes) :
    write page (c, bs) = page.writeSlice c.offset (buffer c.size bs) := by
  cases c <;> rfl

theorem isSome_write {page : Page} {c : Cell} {bs : Bytes} : (write page (c, bs)).isSome ↔ c.InPage := by
  rw [write_eq, Page.isSome_writeSlice, length_buffer, InPage]

theorem header_le (c : Cell) : HEADER_SIZE ≤ c.offset := by
  cases c with
  | key i => exact Nat.le_add_right _ _
  | value i =>
    change HEADER_SIZE ≤ HEADER_SIZE + i * (KEY_SIZE + VALUE_SIZE) + KEY_SIZE
    omega

/-- **No byte belongs to two cells.** -/
theorem apart {c d : Cell} (h : d ≠ c) : d.offset + d.size ≤ c.offset ∨ c.offset + c.size ≤ d.offset := by
  cases c <;> cases d <;>
    simp only [ne_eq, Cell.key.injEq, Cell.value.injEq, reduceCtorEq, not_false_eq_true, offset, size, keyOffset,
      valueOffset, HEADER_SIZE, KEY_SIZE, VALUE_SIZE] at h ⊢ <;>
    omega

section Write
variable {page page' : Page} {c : Cell} {bs : Bytes} (h : write page (c, bs) = some page')
include h

theorem slice_write_self : slice page'.data c.offset c.size = buffer c.size bs := by
  have hself := Page.slice_writeSlice (write_eq page c bs ▸ h)
  rwa [length_buffer] at hself

theorem read_write : read page' c = some (buffer c.size bs) := by
  have hin : c.InPage := isSome_write.1 (by rw [h]; rfl)
  rw [read_eq, Page.readSlice_of_le page' hin, slice_write_self h]

/-- A write is not seen outside of its cell. -/
theorem slice_write {off len : Nat} (hd : off + len ≤ c.offset ∨ c.offset + c.size ≤ off) :
    slice page'.data off len = slice page.data off len := by
  apply Page.slice_writeSlice_of_disjoint (write_eq page c bs ▸ h)
  rwa [length_buffer]

theorem read_write_ne {d : Cell} (hd : d ≠ c) : read page' d = read page d := by
  rw [read_eq, read_eq, Page.readSlice, Page.readSlice, slice_write h (apart hd)]

theorem header_write : slice page'.data 0 HEADER_SIZE = slice page.data 0 HEADER_SIZE := by
  apply slice_write h
  rw [Nat.zero_add]
  exact .inl (header_le c)

end Write

/-- The cells of a page. -/
def cells : Cells Page Cell Bytes := ⟨read, write, fun c => buffer c.size⟩

theorem lawful : cells.Lawful where
  get_put h := read_write h
  get_put_ne h hne := read_write_ne h hne

/-- **A page is an array of cells**: whatever is written, each cell reads as what was written there last. -/
theorem cells_runAll {page page' : Page} {ws : List (Cell × Bytes)} (hrun : runAll write page ws = some page') :
    read page' = ws.foldl cells.update (read page) ∧
      slice page'.data 0 HEADER_SIZE = slice page.data 0 HEADER_SIZE := by
  refine ⟨lawful.get_runAll hrun, ?_⟩
  induction ws generalizing page with
  | nil =>
    cases hrun
    rfl
  | cons w ws ih =>
    obtain ⟨mid, hwrite, hrest⟩ := Option.bind_eq_some_iff.1 hrun
    rw [ih hrest, header_write hwrite]

/-- Which writes there are is only a matter of the indices. -/
theorem isSome_runAll {page : Page} {ws : List (Cell × Bytes)} :
    (runAll write page ws).isSome ↔ ∀ w ∈ ws, w.1.InPage := by
  induction ws generalizing page with
  | nil => simp [runAll]
  | cons w ws ih =>
    have hwrite : (write page w).isSome ↔ w.1.InPage := isSome_write
    rw [List.forall_mem_cons, ← hwrite, runAll, List.foldlM_cons]
    change (Option.bind (write page w) fun mid => runAll write mid ws).isSome ↔ (write page w).isSome ∧ _
    cases write page w with
    | none => simp
    | some mid => simpa using @ih mid

theorem cells_runAll_twice : ∃ page', runAll write (.new 1) [(.key 0, [1]), (.value 0, [2]), (.key 0, [3])] = some page' ∧
    read page' = [(Cell.key 0, [1]), (.value 0, [2]), (.key 0, [3])].foldl cells.update (read (.new 1)) ∧
    slice page'.data 0 HEADER_SIZE = slice (Page.new 1).data 0 HEADER_SIZE := by
  have hin : ∀ w ∈ [(Cell.key 0, ([1] : Bytes)), (.value 0, [2]), (.key 0, [3])], w.1.InPage := by decide
  have hruns : (runAll write (.new 1) _).isSome := isSome_runAll.2 hin
  obtain ⟨page', hrun⟩ := Option.isSome_iff_exists.1 hruns
  exact ⟨page', hrun, cells_runAll hrun⟩

end Cell

/-- **The slot accessors.** A slot reads back what was written to it, cut off or filled up, and neither the header nor
    another slot of either kind is changed. -/
theorem slots_independent (page : Page) (i : Nat) (k v : Bytes) :
    ((Cell.key i).InPage → ∃ page', writeKey page i k = some page' ∧ readKey page' i = some (fit KEY_SIZE k) ∧
      slice page'.data 0 HEADER_SIZE = slice page.data 0 HEADER_SIZE ∧
      (∀ j, j ≠ i → readKey page' j = readKey page j) ∧ ∀ j, readValue page' j = readValue page j) ∧
    ((Cell.value i).InPage → ∃ page', writeValue page i v = some page' ∧
      readValue page' i = some (fit VALUE_SIZE v) ∧ slice page'.data 0 HEADER_SIZE = slice page.data 0 HEADER_SIZE ∧
      (∀ j, j ≠ i → readValue page' j = readValue page j) ∧ ∀ j, readKey page' j = readKey page j) := by
  constructor
  · intro hin
    obtain ⟨page', h⟩ := Option.isSome_iff_exists.1 ((@Cell.isSome_write page (.key i) k).2 hin)
    refine ⟨page', h, ?_, Cell.header_write h, ?_, ?_⟩
    · rw [← buffer_eq_fit]
      exact Cell.read_write h
    · intro j hj
      exact Cell.read_write_ne (d := .key j) h (by simpa using hj)
    · intro j
      exact Cell.read_write_ne (d := .value j) h (by simp)
  · intro hin
    obtain ⟨page', h⟩ := Option.isSome_iff_exists.1 ((@Cell.isSome_write page (.value i) v).2 hin)
    refine ⟨page', h, ?_, Cell.header_write h, ?_, ?_⟩
    · rw [← buffer_eq_fit]
      exact Cell.read_write h
    · intro j hj
      exact Cell.read_write_ne (d := .value j) h (by simpa using hj)
    · intro j
      exact Cell.read_write_ne (d := .key j) h (by simp)

/-- The last slot with its value in the page. -/
theorem slots_independent_last : (Cell.value LAST_SLOT).InPage ∧ ∃ page',
    writeValue (Page.new 1) LAST_SLOT [7] = some page' ∧
      readValue page' LAST_SLOT = some (7 :: List.replicate 63 0) ∧
      slice page'.data 0 HEADER_SIZE = slice (Page.new 1).data 0 HEADER_SIZE ∧
      ∀ j, readKey page' j = readKey (Page.new 1) j := by
  have hin : (Cell.value LAST_SLOT).InPage := by decide
  obtain ⟨page', hwrite, hread, hheader, -, hkeys⟩ := (slots_independent (Page.new 1) LAST_SLOT [] [7]).2 hin
  exact ⟨hin, page', hwrite, hread, hheader, hkeys⟩

end RedisOps.BTree
