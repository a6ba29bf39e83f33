import RedisOps.ZSet.Basic
import RedisOps.Lib.Text

/-!
# The store (`redisdb/src/store/mod.rs`)

One definition per method of `Store`, under the source's name. Every method takes the single lock once,
so each of them is one atomic step. The clock is an argument (`now`, in milliseconds); `HashMap` is an
association list without duplicate keys, listed in an unspecified order.

`none` as the result of `lrange` is a panic (a slice past the end of the list). Integer arithmetic wraps,
as in the release profile.
-/

namespace RedisOps.Store

open Lib Zset

inductive Value (F : Type) where
  | str (s : String)
  | bytes (b : Bytes)
  | zset (z : ZSet F)
  | list (l : List String)

structure Entry (F : Type) where
  typ : Value F
  expAt : Option Nat

/-- `Entry::expired` (`store/mod.rs:21-25`). -/
def Entry.expired {F : Type} (now : Nat) (e : Entry F) : Bool :=
  match e.expAt with
  | some t => decide (t ≤ now)
  | none => false

/-- `Inner::data`. -/
abbrev Data (F : Type) := AList (fun _ : String => Entry F)

variable {F : Type}

/-- Replace the value of an entry, keeping its expiry (`e.typ = …` through `get_mut`). -/
def setTyp (s : Data F) (key : String) (e : Entry F) (v : Value F) : Data F :=
  s.insert key { e with typ := v }

/-- A new entry never expires. -/
def insertNew (s : Data F) (key : String) (v : Value F) : Data F := s.insert key ⟨v, none⟩

/-! ## The sweeper -/

/-- Keep the entries that satisfy `p` (`HashMap::retain`). -/
def retain (p : Entry F → Bool) (s : Data F) : Data F :=
  ⟨s.entries.filter fun x => p x.2, s.nodupKeys.sublist List.filter_sublist⟩

/-- One tick of the task spawned by `new_with_expiry` (`:50-63`). -/
def sweep (now : Nat) (s : Data F) : Data F := retain (fun e => !e.expired now) s

/-! ## Keys and strings -/

/-- `(value, wrong_type)` (`:75-85`). -/
def getStr (now : Nat) (s : Data F) (key : String) : Option String × Bool :=
  match s.lookup key with
  | some e =>
    if e.expired now then (none, false) else
    match e.typ with
    | .str v => (some v, false)
    | .bytes b => (some (fromUtf8Lossy b), false)
    | _ => (none, true)
  | none => (none, false)

def setStr (s : Data F) (key val : String) : Data F := insertNew s key (.str val)

def del (s : Data F) (key : String) : Bool × Data F := ((s.lookup key).isSome, s.erase key)

/-- `keys` (`:103-112`). -/
def keys (now : Nat) (s : Data F) : List String :=
  (s.entries.filter fun x => !x.2.expired now).map fun x => x.1

/-- `expire` (`:114-122`): `ms as u64`. -/
def expire (now : Nat) (s : Data F) (key : String) (ms : Int64) : Bool × Data F :=
  match s.lookup key with
  | some e => (true, s.insert key { e with expAt := some (now + ms.toUInt64.toNat) })
  | none => (false, s)

/-- `ttl_ms` (`:124-136`). -/
def ttlMs (now : Nat) (s : Data F) (key : String) : Int64 :=
  match s.lookup key with
  | some e =>
    match e.expAt with
    | some t => Int64.ofNat (t - now)
    | none => -1
  | none => -2

/-! ## Sorted sets -/

section ZSet
variable [Score F]

/-- `(added, wrong_type)` (`:140-164`). -/
def zAdd (s : Data F) (key name : String) (score : F) : (Bool × Bool) × Data F :=
  match s.lookup key with
  | none => ((true, false), insertNew s key (.zset (ZSet.new.add name score).2))
  | some e =>
    match e.typ with
    | .zset z => (((z.add name score).1, false), setTyp s key e (.zset (z.add name score).2))
    | _ => ((false, true), s)

def zRem (s : Data F) (key name : String) : (Bool × Bool) × Data F :=
  match s.lookup key with
  | some e =>
    match e.typ with
    | .zset z => (((z.remove name).1, false), setTyp s key e (.zset (z.remove name).2))
    | _ => ((false, true), s)
  | none => ((false, false), s)

def zScore (s : Data F) (key name : String) : Option F × Bool :=
  match s.lookup key with
  | some e =>
    match e.typ with
    | .zset z => (z.score name, false)
    | _ => (none, true)
  | none => (none, false)

def zQuery (s : Data F) (key : String) (minScore : F) (minName : String) (offset limit : Int64) :
    List (Zset.Entry F) × Bool :=
  match s.lookup key with
  | some e =>
    match e.typ with
    | .zset z => (z.query minScore minName offset limit, false)
    | _ => ([], true)
  | none => ([], false)

end ZSet

/-! ## Lists -/

/-- `lpush` (`:216-237`). -/
def lpush (s : Data F) (key val : String) : Data F :=
  match s.lookup key with
  | some e =>
    match e.typ with
    | .list l => setTyp s key e (.list (val :: l))
    | _ => s
  | none => insertNew s key (.list [val])

def rpop (s : Data F) (key : String) : Option String × Data F :=
  match s.lookup key with
  | some e =>
    match e.typ with
    | .list l =>
      match l.getLast? with
      | some v => (some v, setTyp s key e (.list l.dropLast))
      | none => (none, s)
    | _ => (none, s)
  | none => (none, s)

def lpop (s : Data F) (key : String) : Option String × Data F :=
  match s.lookup key with
  | some e =>
    match e.typ with
    | .list (v :: l) => (some v, setTyp s key e (.list l))
    | _ => (none, s)
  | none => (none, s)

/-- An `i64` that the code knows to be an index, as `usize`: a negative one becomes huge. -/
def asUsize (v : Int64) : Nat := v.toUInt64.toNat

/-- The slice taken by `lrange` (`:305-321`). With `stop = i64::MAX` the sum wraps and the slice ends
    past the list. -/
def listRange (l : List String) (start stop : Int64) : Option (List String) :=
  let len := Int64.ofNat l.length
  let s := asUsize (if start < 0 then max (len + start) 0 else start)
  let e := asUsize (if stop < 0 then max (len + stop + 1) 0 else min (stop + 1) len)
  if s ≥ e then some [] else if e > l.length then none else some (slice l s (e - s))

def lrange (s : Data F) (key : String) (start stop : Int64) : Option (List String) :=
  match s.lookup key with
  | some e =>
    match e.typ with
    | .list l => listRange l start stop
    | _ => some []
  | none => some []

/-- The element `lindex` looks at (`:334-341`). -/
def listIndex (l : List String) (idx : Int64) : Option String :=
  let i := if idx < 0 then Int64.ofNat l.length + idx else idx
  if i ≥ 0 then l[asUsize i]? else none

def lindex (s : Data F) (key : String) (idx : Int64) : Option String :=
  match s.lookup key with
  | some e =>
    match e.typ with
    | .list l => listIndex l idx
    | _ => none
  | none => none

def llen (s : Data F) (key : String) : Int64 :=
  match s.lookup key with
  | some e =>
    match e.typ with
    | .list l => Int64.ofNat l.length
    | _ => -1
  | none => 0

/-- `retain` with a counter (`:375-383`): drop the first `count` occurrences. -/
def retainCount (val : String) (count : Int64) : List String → Int64 → List String × Int64
  | [], removed => ([], removed)
  | v :: l, removed =>
    if v = val ∧ removed < count then retainCount val count l (removed + 1)
    else
      let r := retainCount val count l removed
      (v :: r.1, r.2)

/-- The backwards loop (`:385-395`): `i` counts down from the length. -/
def removeBack (val : String) (absCount : Int64) : Nat → List String → Int64 → List String × Int64
  | 0, l, removed => (l, removed)
  | i + 1, l, removed =>
    if removed < absCount then
      if l[i]? = some val then removeBack val absCount i (l.eraseIdx i) (removed + 1)
      else removeBack val absCount i l removed
    else (l, removed)

/-- The list and the count left by `lrem` (`:369-396`). -/
def listRem (l : List String) (count : Int64) (val : String) : List String × Int64 :=
  if count = 0 then
    let l' := l.filter (· ≠ val)
    (l', Int64.ofNat (l.length - l'.length))
  else if count > 0 then retainCount val count l 0
  else removeBack val (-count) l.length l 0

def lrem (s : Data F) (key : String) (count : Int64) (val : String) : Int64 × Data F :=
  match s.lookup key with
  | some e =>
    match e.typ with
    | .list l => ((listRem l count val).2, setTyp s key e (.list (listRem l count val).1))
    | _ => (0, s)
  | none => (0, s)

/-! ## Bits -/

/-- `resize` with zeros, then set or clear one bit of one byte. -/
def writeBit (b : Bytes) (bit : UInt32) (on : Bool) : Bytes :=
  let byteIdx := (bit / 8).toNat
  let mask : UInt8 := 1 <<< (bit % 8).toUInt8
  let b := if byteIdx ≥ b.length then b ++ List.replicate (byteIdx + 1 - b.length) 0 else b
  b.modify byteIdx fun x => if on then x ||| mask else x &&& ~~~mask

/-- `set_bit` (`:406-451`). -/
def setBit (s : Data F) (key : String) (bit : UInt32) (on : Bool) : Data F :=
  match s.lookup key with
  | some e =>
    match e.typ with
    | .bytes b => setTyp s key e (.bytes (writeBit b bit on))
    | .str v => setTyp s key e (.bytes (writeBit (utf8 v) bit on))
    | _ => s
  | none => insertNew s key (.bytes (writeBit (List.replicate ((bit / 8).toNat + 1) 0) bit on))

/-- The bytes the bit readers look at: none when the key is absent, expired or holds another type. -/
def bitsOf (now : Nat) (s : Data F) (key : String) : Option Bytes :=
  match s.lookup key with
  | some e =>
    if e.expired now then none else
    match e.typ with
    | .bytes b => some b
    | .str v => some (utf8 v)
    | _ => none
  | none => none

def readBit (b : Bytes) (bit : UInt32) : Bool :=
  match b[(bit / 8).toNat]? with
  | some x => (x >>> (bit % 8).toUInt8) &&& 1 = 1
  | none => false

def getBit (now : Nat) (s : Data F) (key : String) (bit : UInt32) : Bool :=
  match bitsOf now s key with
  | some b => readBit b bit
  | none => false

def countOnes (x : UInt8) : Nat := (List.range 8).countP fun i => x.toNat.testBit i

def bitcount (now : Nat) (s : Data F) (key : String) : Int64 :=
  match bitsOf now s key with
  | some b => Int64.ofNat (b.map countOnes).sum
  | none => 0

/-- `bitfield_get` (`:489-511`): positions wrap at `2^32`, shift amounts at `64`. -/
def bitfieldGet (now : Nat) (s : Data F) (key : String) (offset width : UInt32) : UInt64 :=
  match bitsOf now s key with
  | some b =>
    (List.range width.toNat).foldl
      (fun r i => if readBit b (offset + UInt32.ofNat i) then r ||| (1 <<< UInt64.ofNat i) else r) 0
  | none => 0

/-- The flag written for bit `i` of a field (`:516`). -/
def fieldBit (val : UInt64) (i : Nat) : Bool := (val >>> UInt64.ofNat i) &&& 1 = 1

end RedisOps.Store
