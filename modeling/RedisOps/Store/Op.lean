import RedisOps.Store.Basic
import RedisOps.Lib.Prog

/-!
# The store operations a command is made of

`dispatch` is an `async fn`: between two `.await`s on the store other clients may run. A command is
therefore a program over `Op`, one operation per lock acquisition, with `exec` for the meaning of an
operation on the shared state. `none` is a panic of the handler.
-/

namespace RedisOps.Store

open Lib Zset

/-- `AuthConfig` (`redisdb/src/handler.rs:6-10`). -/
structure AuthConfig where
  password : Option String := none
  tlsCert : Option String := none
  tlsKey : Option String := none

/-- What all connections share. -/
structure World (F : Type) where
  store : Data F
  auth : AuthConfig

inductive Op (F : Type) where
  | keys
  | getStr (key : String)
  | setStr (key val : String)
  | del (key : String)
  | expire (key : String) (ms : Int64)
  | ttlMs (key : String)
  | zAdd (key name : String) (score : F)
  | zRem (key name : String)
  | zScore (key name : String)
  | zQuery (key : String) (minScore : F) (minName : String) (offset limit : Int64)
  | lpush (key val : String)
  | rpop (key : String)
  | lpop (key : String)
  | lrange (key : String) (start stop : Int64)
  | lindex (key : String) (idx : Int64)
  | llen (key : String)
  | lrem (key : String) (count : Int64) (val : String)
  | setBit (key : String) (bit : UInt32) (on : Bool)
  | getBit (key : String) (bit : UInt32)
  | bitcount (key : String)
  | bitfieldGet (key : String) (offset width : UInt32)
  | readAuth
  | setTlsCert (val : String)
  | setTlsKey (val : String)

@[reducible] def Op.Ret {F : Type} : Op F → Type
  | .keys => List String
  | .getStr _ => Option String × Bool
  | .del _ | .expire _ _ | .getBit _ _ => Bool
  | .ttlMs _ | .llen _ | .lrem _ _ _ | .bitcount _ => Int64
  | .zAdd _ _ _ | .zRem _ _ => Bool × Bool
  | .zScore _ _ => Option F × Bool
  | .zQuery _ _ _ _ _ => List (Zset.Entry F) × Bool
  | .rpop _ | .lpop _ | .lindex _ _ => Option String
  | .lrange _ _ _ => List String
  | .bitfieldGet _ _ _ => UInt64
  | .readAuth => AuthConfig
  | .setStr _ _ | .lpush _ _ | .setBit _ _ _ | .setTlsCert _ | .setTlsKey _ => Unit

variable {F : Type} [Score F]

/-- The operation's answer and the state after it, at time `now`. -/
def exec (now : Nat) : (o : Op F) → World F → Option (o.Ret × World F)
  | .keys, w => some (keys now w.store, w)
  | .getStr key, w => some (getStr now w.store key, w)
  | .setStr key val, w => some ((), { w with store := setStr w.store key val })
  | .del key, w => some ((del w.store key).1, { w with store := (del w.store key).2 })
  | .expire key ms, w =>
    some ((expire now w.store key ms).1, { w with store := (expire now w.store key ms).2 })
  | .ttlMs key, w => some (ttlMs now w.store key, w)
  | .zAdd key name score, w =>
    some ((zAdd w.store key name score).1, { w with store := (zAdd w.store key name score).2 })
  | .zRem key name, w => some ((zRem w.store key name).1, { w with store := (zRem w.store key name).2 })
  | .zScore key name, w => some (zScore w.store key name, w)
  | .zQuery key minScore minName offset limit, w =>
    some (zQuery w.store key minScore minName offset limit, w)
  | .lpush key val, w => some ((), { w with store := lpush w.store key val })
  | .rpop key, w => some ((rpop w.store key).1, { w with store := (rpop w.store key).2 })
  | .lpop key, w => some ((lpop w.store key).1, { w with store := (lpop w.store key).2 })
  | .lrange key start stop, w => (lrange w.store key start stop).map (·, w)
  | .lindex key idx, w => some (lindex w.store key idx, w)
  | .llen key, w => some (llen w.store key, w)
  | .lrem key count val, w =>
    some ((lrem w.store key count val).1, { w with store := (lrem w.store key count val).2 })
  | .setBit key bit on, w => some ((), { w with store := setBit w.store key bit on })
  | .getBit key bit, w => some (getBit now w.store key bit, w)
  | .bitcount key, w => some (bitcount now w.store key, w)
  | .bitfieldGet key offset width, w => some (bitfieldGet now w.store key offset width, w)
  | .readAuth, w => some (w.auth, w)
  | .setTlsCert val, w => some ((), { w with auth := { w.auth with tlsCert := some val } })
  | .setTlsKey val, w => some ((), { w with auth := { w.auth with tlsKey := some val } })

/-! ## What an operation writes -/

omit [Score F] in
/-- The key an operation may write. -/
def writeKey : Op F → Option String
  | .setStr key _ | .del key | .expire key _ | .zAdd key _ _ | .zRem key _ | .lpush key _ | .rpop key
  | .lpop key | .lrem key _ _ | .setBit key _ _ => some key
  | _ => none

omit [Score F] in
theorem lookup_insertNew_ne {s : Data F} {key key' : String} (h : key' ≠ key) (v : Value F) :
    (insertNew s key v).lookup key' = s.lookup key' :=
  AList.lookup_insert_ne h

omit [Score F] in
theorem lookup_lpush_ne {s : Data F} {key key' : String} (h : key' ≠ key) (val : String) :
    (lpush s key val).lookup key' = s.lookup key' := by
  unfold lpush
  split
  · split
    · exact AList.lookup_insert_ne h
    · rfl
  · exact lookup_insertNew_ne h _

/-- **Frame.** The entries of the other keys stay as they are. -/
theorem exec_frame {now : Nat} {o : Op F} {w w' : World F} {r : o.Ret} {key : String}
    (h : exec now o w = some (r, w')) (ho : writeKey o ≠ some key) :
    w'.store.lookup key = w.store.lookup key := by
  cases o <;> simp only [exec, Option.some.injEq, Prod.mk.injEq, Option.map_eq_some_iff] at h
  case lrange => obtain ⟨_, _, _, rfl⟩ := h; rfl
  case del k | setStr k _ =>
    obtain ⟨-, rfl⟩ := h
    have hk : key ≠ k := fun e => ho (by simp [writeKey, e])
    simp [del, setStr, AList.lookup_erase_ne hk, lookup_insertNew_ne hk]
  case lpush k _ =>
    obtain ⟨-, rfl⟩ := h
    have hk : key ≠ k := fun e => ho (by simp [writeKey, e])
    exact lookup_lpush_ne hk _
  case expire k _ | zAdd k _ _ | zRem k _ | rpop k | lpop k | lrem k _ _ | setBit k _ _ =>
    obtain ⟨-, rfl⟩ := h
    have hk : key ≠ k := fun e => ho (by simp [writeKey, e])
    simp only [expire, zAdd, zRem, rpop, lpop, lrem, setBit]
    repeat' split
    all_goals first | rfl | exact AList.lookup_insert_ne hk
  all_goals obtain ⟨-, rfl⟩ := h; rfl

end RedisOps.Store
