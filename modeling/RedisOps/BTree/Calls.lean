import RedisOps.BTree.Delete
import RedisOps.Lib.Protocol

/-!
# Calls of the engine (`btree.rs:140-153`)

`put` and `delete` read the root, take a transaction id, change pages and append a commit record with the id
(`run_call`). What the two do in between is said once, for all that the log and the page allocator are asked:

* `inserts_insertInto` — an insertion logs every page at once after it has put it, logs at least one, and makes
  a page the root only when it has just allocated it;
* `all_deleteFrom` — a deletion reads pages and puts pages; it logs nothing.
-/

namespace RedisOps.BTree

open Lib

variable {K V α : Type}

inductive Call (K V : Type) where
  | put (key : K) (value : V)
  | delete (key : K)
  deriving DecidableEq

section
variable [LinearOrder K]

/-- The program of a call; it answers what `delete` answers. -/
def Call.prog (fuel : Nat) : Call K V → Task K V (Option Bool)
  | .put key value => do
    BTree.put fuel key value
    pure none
  | .delete key => some <$> BTree.delete fuel key

/-- What a call does between taking its transaction id and committing it. -/
def Call.body (fuel : Nat) (root : PageId) : Call K V → Task K V (Option Bool)
  | .put key value => do
    insertInto fuel root key value
    pure none
  | .delete key => some <$> deleteFrom fuel root key

theorem run_call (fuel : Nat) (db : Db K V) (call : Call K V) :
    (call.prog fuel).run exec db =
      match (call.body fuel db.root).run exec { db with nextTx := db.nextTx + 1 } with
      | (some answer, db') => (some answer, { db' with wal := db'.wal ++ [.commit db.nextTx] })
      | (none, db') => (none, db') := by
  cases call with
  | put key value =>
    have hprog : ((Call.put key value).prog fuel).run exec db =
        ((insertInto fuel db.root key value >>= fun _ =>
          .op (.appendCommit db.nextTx) fun _ => .ret ()) >>= fun _ => .ret none).run exec
            { db with nextTx := db.nextTx + 1 } := rfl
    have hbody : (Call.put key value).body fuel db.root =
        insertInto fuel db.root key value >>= fun _ => .ret none := rfl
    rw [hprog, hbody, Prog.run_bind, Prog.run_bind, Prog.run_bind]
    rcases (insertInto fuel db.root key value).run exec _ with ⟨_ | _, _⟩ <;> rfl
  | delete key =>
    have hprog : ((Call.delete key).prog fuel).run exec db =
        ((deleteFrom fuel db.root key >>= fun found =>
          .op (.appendCommit db.nextTx) fun _ => .ret found) >>= fun found => .ret (some found)).run exec
            { db with nextTx := db.nextTx + 1 } := rfl
    have hbody : (Call.delete key : Call K V).body fuel db.root =
        deleteFrom fuel db.root key >>= fun found => .ret (some found) := rfl
    rw [hprog, hbody, Prog.run_bind, Prog.run_bind, Prog.run_bind]
    rcases (deleteFrom fuel db.root key).run exec _ with ⟨_ | _, _⟩ <;> rfl

end

/-! ## Insertions -/

/-- How far an insertion is: whether it has logged a page, the page it has put and not logged, and the page it
    has allocated last. -/
structure Insertion (K V : Type) where
  logged : Bool
  unlogged : Option (PageId × Node K V)
  fresh : Option PageId

def Insertion.start : Insertion K V := ⟨false, none, none⟩

def insertion : Protocol (PageOp K V) PageOp.Ret (Insertion K V) where
  ok s
    | .getPage _ => True
    | .putPage _ _ | .allocPage => s.unlogged = none
    | .appendWrite id n => s.unlogged = some (id, n)
    | .writeRoot id => s.fresh = some id
    | .readRoot | .nextTxId | .appendCommit _ => False
  next s
    | .putPage id n, _ => { s with unlogged := some (id, n) }
    | .appendWrite _ _, _ => { s with logged := true, unlogged := none }
    | .allocPage, id => { s with fresh := some id }
    | _, _ => s

/-- Every page that was put is logged, and there was one. -/
def Insertion.Done (s : Insertion K V) : Prop := s.logged = true ∧ s.unlogged = none

/-- The program is an insertion, or the rest of one. -/
def Inserts (p : Task K V α) : Prop :=
  ∀ s, s.unlogged = none → Prog.Obeys insertion (fun s _ => Insertion.Done s) s p

theorem Inserts.bind_ret {β : Type} {p : Task K V α} (hp : Inserts p) (b : β) : Inserts (p >>= fun _ => .ret b) := by
  intro s hs
  rw [Prog.obeys_bind]
  exact (hp s hs).mono fun s _ h => h

theorem inserts_getPage {id : PageId} {k : Node K V → Task K V α} (hk : ∀ n, Inserts (k n)) :
    Inserts (await (.getPage id) >>= k) := fun s hs => ⟨trivial, fun n => hk n s hs⟩

theorem inserts_allocPage {k : PageId → Task K V α} (hk : ∀ id, Inserts (k id)) :
    Inserts (await .allocPage >>= k) := fun s hs => ⟨hs, fun id => hk id { s with fresh := some id } hs⟩

/-- `put_page` and `append_write`; what follows may also be nothing. -/
theorem obeys_write {id : PageId} {n : Node K V} {p : Task K V α} {s : Insertion K V} (hs : s.unlogged = none)
    (hp : Prog.Obeys insertion (fun s _ => Insertion.Done s) { s with logged := true, unlogged := none } p) :
    Prog.Obeys insertion (fun s _ => Insertion.Done s) s
      (await (.putPage id n) >>= fun _ => await (.appendWrite id n) >>= fun _ => p) :=
  ⟨hs, fun _ => ⟨rfl, fun _ => hp⟩⟩

theorem inserts_write {id : PageId} {n : Node K V} {p : Task K V α} (hp : Inserts p) :
    Inserts (await (.putPage id n) >>= fun _ => await (.appendWrite id n) >>= fun _ => p) :=
  fun _ hs => obeys_write hs (hp _ rfl)

theorem inserts_linkHalves {insertUp : PageId → K → PageId → PageId → Task K V Unit}
    (hup : ∀ id key left right, Inserts (insertUp id key left right)) (n : Node K V) (id right : PageId)
    (middle : K) : Inserts (linkHalves insertUp n id right middle) := by
  unfold linkHalves
  split
  · -- the new root is the page allocated last
    intro s hs
    refine ⟨hs, fun newRoot => obeys_write hs ⟨rfl, fun _ => ?_⟩⟩
    exact ⟨rfl, rfl⟩
  · exact hup _ _ _ _

theorem inserts_splitInternal {insertUp : PageId → K → PageId → PageId → Task K V Unit}
    (hup : ∀ id key left right, Inserts (insertUp id key left right)) (id : PageId) :
    Inserts (splitInternal insertUp id) := by
  unfold splitInternal
  refine inserts_getPage fun n => inserts_allocPage fun right => inserts_write (inserts_write ?_)
  split
  · exact inserts_linkHalves hup n id right _
  · exact fun _ _ => trivial

section
variable [LinearOrder K]

theorem inserts_insertIntoInternal : ∀ (fuel : Nat) (id : PageId) (key : K) (left right : PageId),
    Inserts (insertIntoInternal fuel id key left right : Task K V Unit)
  | 0, _, _, _, _ => fun _ _ => trivial
  | fuel + 1, id, key, left, right => by
    have ih := inserts_insertIntoInternal fuel
    unfold insertIntoInternal
    refine inserts_getPage fun n s hs => obeys_write hs ?_
    split
    · exact inserts_splitInternal ih id _ rfl
    · exact ⟨rfl, rfl⟩

theorem inserts_splitLeaf (fuel : Nat) (id : PageId) : Inserts (splitLeaf fuel id : Task K V Unit) := by
  unfold splitLeaf
  refine inserts_getPage fun n => inserts_allocPage fun right => inserts_write (inserts_write ?_)
  split
  · exact inserts_linkHalves (inserts_insertIntoInternal fuel) n id right _
  · exact fun _ _ => trivial

theorem inserts_insertIntoLeaf (fuel : Nat) (id : PageId) (key : K) (value : V) :
    Inserts (insertIntoLeaf fuel id key value) := by
  unfold insertIntoLeaf
  apply inserts_getPage
  intro n
  split
  · exact fun s hs => ⟨hs, fun _ => ⟨rfl, fun _ => ⟨rfl, rfl⟩⟩⟩
  · refine fun s hs => obeys_write hs ?_
    split
    · exact inserts_splitLeaf fuel id _ rfl
    · exact ⟨rfl, rfl⟩

theorem inserts_insertInto : ∀ (fuel : Nat) (id : PageId) (key : K) (value : V),
    Inserts (insertInto fuel id key value)
  | 0, _, _, _ => fun _ _ => trivial
  | fuel + 1, id, key, value => by
    have ih := inserts_insertInto fuel
    unfold insertInto
    apply inserts_getPage
    intro n
    split
    · exact inserts_insertIntoLeaf fuel id key value
    · unfold child
      split
      · exact ih _ key value
      · exact fun _ _ => trivial

theorem inserts_body_put (fuel : Nat) (root : PageId) (key : K) (value : V) :
    Inserts ((Call.put key value).body fuel root) := (inserts_insertInto fuel root key value).bind_ret none

/-! ## Deletions -/

/-- The operations of a deletion. -/
def PageOp.IsPage : PageOp K V → Prop
  | .getPage _ | .putPage _ _ => True
  | _ => False

theorem all_deleteFromLeaf (id : PageId) (key : K) :
    Prog.All PageOp.IsPage (fun _ => True) (deleteFromLeaf id key : Task K V Bool) := by
  unfold deleteFromLeaf
  refine ⟨trivial, ?_⟩
  intro n
  dsimp only [Prog.ret_bind']
  split
  · exact ⟨trivial, fun _ => trivial⟩
  · trivial

theorem all_deleteFrom : ∀ (fuel : Nat) (id : PageId) (key : K),
    Prog.All PageOp.IsPage (fun _ => True) (deleteFrom fuel id key : Task K V Bool)
  | 0, _, _ => trivial
  | fuel + 1, id, key => by
    have ih := all_deleteFrom fuel
    unfold deleteFrom
    refine ⟨trivial, ?_⟩
    intro n
    change Prog.All _ _ (if n.isLeaf = true then _ else child n (routeDelete n key) >>= _)
    split
    · exact all_deleteFromLeaf id key
    · unfold child
      split
      · exact ih _ key
      · trivial

theorem all_body_delete (fuel : Nat) (root : PageId) (key : K) :
    Prog.All PageOp.IsPage (fun _ => True) ((Call.delete key : Call K V).body fuel root) :=
  (Prog.all_bind _ _).2 (all_deleteFrom fuel root key)

end

end RedisOps.BTree
