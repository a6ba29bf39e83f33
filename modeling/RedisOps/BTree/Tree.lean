import RedisOps.BTree.Page
import RedisOps.Lib.Prog
import RedisOps.Lib.Slots

/-!
# The B-tree on node records (`redisdb/src/btree/btree.rs`)

Pages are taken as decoded records; the byte layout is `BTree/Page.lean`. `num_keys` is the length of
`keys`, and moving the slots from `pos` on by one before writing slot `pos` is `insertIdx`.

| here | there |
| --- | --- |
| `PageOp`, `exec` | `BufferPool::get_page`, `put_page`, `alloc_page`, the `root_id` lock, the `WAL` methods |
| `findValue`, `get` | `find_value`, `get` (`btree.rs:135-138, 174-198`) |
| `insertInto`, `insertIntoLeaf`, `put` | `insert_into`, `insert_into_leaf`, `put` (`:140-145, 200-274`) |
| `splitLeaf`, `insertIntoInternal`, `splitInternal` | the same (`:276-462`) |
| `deleteFrom`, `deleteFromLeaf`, `delete` | the same (`:147-153, 464-523`) |

Every function is a program over the operations it awaits. The recursive ones take `fuel`, a bound on the
depth of the recursion; running out of it fails, like the stack overflow of a page that is its own
descendant.
-/

namespace RedisOps.BTree

open Lib

/-- Page ids start at 1; a `parentId` of 0 is no parent. -/
abbrev PageId := Nat

/-- The keys that fill their slot; shorter ones are padded by `write_key`. -/
abbrev Key := { bs : Bytes // bs.length = KEY_SIZE }

def keyOf (b : UInt8) : Key := ⟨b :: List.replicate 31 0, rfl⟩

structure Node (K V : Type) where
  isLeaf : Bool
  keys : List K
  values : List V
  children : List PageId
  parentId : PageId
  nextLeaf : PageId
  deriving DecidableEq

/-- A log record; the data of a write is the page it serialises. -/
inductive Record (K V : Type) where
  | write (tx : Nat) (id : PageId) (data : Node K V)
  | commit (tx : Nat)
  deriving DecidableEq

/-- What all tasks share. -/
structure Db (K V : Type) where
  pages : PageId → Option (Node K V)
  root : PageId
  nextPage : PageId
  wal : List (Record K V)
  nextTx : Nat

inductive PageOp (K V : Type) where
  | getPage (id : PageId)
  | putPage (id : PageId) (node : Node K V)
  | allocPage
  | readRoot
  | writeRoot (id : PageId)
  | nextTxId
  | appendWrite (id : PageId) (node : Node K V)
  | appendCommit (tx : Nat)

@[reducible] def PageOp.Ret {K V : Type} : PageOp K V → Type
  | .getPage _ => Node K V
  | .allocPage | .readRoot => PageId
  | .nextTxId => Nat
  | .putPage _ _ | .writeRoot _ | .appendWrite _ _ | .appendCommit _ => Unit

variable {K V : Type}

/-- The operations without I/O errors; `none` is a page that is nowhere. `append_write` stamps the record
    with the counter that `next_tx_id` has already moved on (`wal.rs:49-52`). -/
def exec : (o : PageOp K V) → Db K V → Option (o.Ret × Db K V)
  | .getPage id, db => (db.pages id).map (·, db)
  | .putPage id node, db => some ((), { db with pages := Function.update db.pages id (some node) })
  | .allocPage, db => some (db.nextPage, { db with nextPage := db.nextPage + 1 })
  | .readRoot, db => some (db.root, db)
  | .writeRoot id, db => some ((), { db with root := id })
  | .nextTxId, db => some (db.nextTx, { db with nextTx := db.nextTx + 1 })
  | .appendWrite id node, db => some ((), { db with wal := db.wal ++ [.write db.nextTx id node] })
  | .appendCommit tx, db => some ((), { db with wal := db.wal ++ [.commit tx] })

/-- A part of the engine, as a program over the operations. -/
abbrev Task (K V : Type) : Type → Type := Prog (PageOp K V) PageOp.Ret

def await (o : PageOp K V) : Task K V o.Ret := Prog.call o

@[simp] theorem await_def (o : PageOp K V) : await o = .op o .ret := rfl

/-- The `i`-th child; in a well-formed internal node it is there. -/
def child (node : Node K V) (i : Nat) : Task K V PageId :=
  match node.children[i]? with
  | some id => pure id
  | none => .fail

section
variable [LinearOrder K]

/-- The first slot with the key. -/
def slotOf (node : Node K V) (key : K) : Option Nat := node.keys.findIdx? fun k => decide (k = key)

theorem slotOf_eq_none {n : Node K V} {key : K} : slotOf n key = none ↔ key ∉ n.keys := by
  rw [slotOf, List.findIdx?_eq_none_iff]
  exact ⟨fun h hm => by simpa using h key hm, fun h k hk => by
    simp only [decide_eq_false_iff_not]
    rintro rfl
    exact h hk⟩

/-- The leaf part of `find_value`. -/
theorem slotGet_eq (n : Node K V) (key : K) : slotGet key n.keys n.values =
    match slotOf n key with
    | some i => n.values[i]?
    | none => none := by
  rw [slotGet_eq_findIdx?, slotOf]
  cases n.keys.findIdx? fun k => decide (k = key) <;> rfl

/-- The child `find_value` and `insert_into` descend to: the first separator above the key. -/
def route (node : Node K V) (key : K) : Nat := node.keys.findIdx fun k => decide (key < k)

/-- The child `delete_from` descends to: the first separator not below the key (`:475`). -/
def routeDelete (node : Node K V) (key : K) : Nat := node.keys.findIdx fun k => decide (key ≤ k)

/-! ## Reading -/

def findValue : Nat → PageId → K → Task K V (Option V)
  | 0, _, _ => .fail
  | fuel + 1, id, key => do
    let node ← await (.getPage id)
    if node.isLeaf then
      match slotOf node key with
      | some i => pure node.values[i]?
      | none => pure none
    else do
      let c ← child node (route node key)
      findValue fuel c key

def get (fuel : Nat) (key : K) : Task K V (Option V) := do
  let root ← await .readRoot
  findValue fuel root key

/-! ## Inserting -/

/-- The end of both splits: a new root over the two halves of a parentless node, or one more separator in
    the parent (`:318-341`, `:436-459`). The halves of a new root keep `parent_id` 0. -/
def linkHalves (insertUp : PageId → K → PageId → PageId → Task K V Unit) (node : Node K V)
    (id right : PageId) (middle : K) : Task K V Unit :=
  if node.parentId = 0 then do
    let newRoot ← await .allocPage
    let rootNode : Node K V := ⟨false, [middle], [], [id, right], 0, 0⟩
    await (.putPage newRoot rootNode)
    await (.appendWrite newRoot rootNode)
    await (.writeRoot newRoot)
  else insertUp node.parentId middle id right

/-- `split_internal`: a node that splits has `ORDER` keys, so its middle key is there. -/
def splitInternal (insertUp : PageId → K → PageId → PageId → Task K V Unit) (id : PageId) :
    Task K V Unit := do
  let node ← await (.getPage id)
  let mid := node.keys.length / 2
  let right ← await .allocPage
  let rightNode : Node K V :=
    ⟨false, node.keys.drop (mid + 1), [], node.children.drop (mid + 1), node.parentId, 0⟩
  await (.putPage right rightNode)
  await (.appendWrite right rightNode)
  let leftNode := { node with keys := node.keys.take mid, children := node.children.take (mid + 1) }
  await (.putPage id leftNode)
  await (.appendWrite id leftNode)
  match node.keys[mid]? with
  | some middle => linkHalves insertUp node id right middle
  | none => .fail

/-- The new separator goes behind every smaller one; the children from there on move up, and the slot of
    the old child gets `left` again, `right` after it. -/
def insertIntoInternal : Nat → PageId → K → PageId → PageId → Task K V Unit
  | 0, _, _, _, _ => .fail
  | fuel + 1, id, key, left, right => do
    let node ← await (.getPage id)
    let pos := insertPos key node.keys
    let newNode := { node with
      keys := node.keys.insertIdx pos key
      children := node.children.take pos ++ left :: right :: node.children.drop (pos + 1) }
    await (.putPage id newNode)
    await (.appendWrite id newNode)
    if newNode.keys.length ≥ ORDER then splitInternal (insertIntoInternal fuel) id

def splitLeaf (fuel : Nat) (id : PageId) : Task K V Unit := do
  let node ← await (.getPage id)
  let mid := node.keys.length / 2
  let right ← await .allocPage
  let rightNode : Node K V :=
    ⟨true, node.keys.drop mid, node.values.drop mid, [], node.parentId, node.nextLeaf⟩
  await (.putPage right rightNode)
  await (.appendWrite right rightNode)
  let leftNode := { node with
    keys := node.keys.take mid, values := node.values.take mid, nextLeaf := right }
  await (.putPage id leftNode)
  await (.appendWrite id leftNode)
  match node.keys[mid]? with
  | some middle => linkHalves (insertIntoInternal fuel) node id right middle
  | none => .fail

def insertIntoLeaf (fuel : Nat) (id : PageId) (key : K) (value : V) : Task K V Unit := do
  let node ← await (.getPage id)
  match slotOf node key with
  | some i => do
    let newNode := { node with values := node.values.set i value }
    await (.putPage id newNode)
    await (.appendWrite id newNode)
  | none => do
    let pos := insertPos key node.keys
    let newNode := { node with
      keys := node.keys.insertIdx pos key, values := node.values.insertIdx pos value }
    await (.putPage id newNode)
    await (.appendWrite id newNode)
    if newNode.keys.length ≥ ORDER then splitLeaf fuel id

def insertInto : Nat → PageId → K → V → Task K V Unit
  | 0, _, _, _ => .fail
  | fuel + 1, id, key, value => do
    let node ← await (.getPage id)
    if node.isLeaf then insertIntoLeaf fuel id key value
    else do
      let c ← child node (route node key)
      insertInto fuel c key value

def put (fuel : Nat) (key : K) (value : V) : Task K V Unit := do
  let root ← await .readRoot
  let tx ← await .nextTxId
  insertInto fuel root key value
  await (.appendCommit tx)

/-! ## Deleting -/

/-- `delete_from_leaf` writes nothing to the log (`:516-520`). -/
def deleteFromLeaf (id : PageId) (key : K) : Task K V Bool := do
  let node ← await (.getPage id)
  match slotOf node key with
  | some i => do
    await (.putPage id { node with keys := node.keys.eraseIdx i, values := node.values.eraseIdx i })
    pure true
  | none => pure false

def deleteFrom : Nat → PageId → K → Task K V Bool
  | 0, _, _ => .fail
  | fuel + 1, id, key => do
    let node ← await (.getPage id)
    if node.isLeaf then deleteFromLeaf id key
    else do
      let c ← child node (routeDelete node key)
      deleteFrom fuel c key

def delete (fuel : Nat) (key : K) : Task K V Bool := do
  let root ← await .readRoot
  let tx ← await .nextTxId
  let found ← deleteFrom fuel root key
  await (.appendCommit tx)
  pure found

end

/-! ## Opening -/

/-- `BTree::new` with no page anywhere. -/
def Db.new : Db K V := ⟨fun _ => none, 0, 1, [], 1⟩

/-- `init` on an empty file (`:117-132`). -/
def init : Task K V Unit := do
  let root ← await .allocPage
  await (.putPage root ⟨true, [], [], [], 0, 0⟩)
  await (.writeRoot root)

end RedisOps.BTree
