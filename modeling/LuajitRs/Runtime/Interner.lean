import LuajitRs.Lib.Probe
import LuajitRs.Runtime.Gc.Pool

/-! The string interner: an open-addressed table of string objects, a table from string ids to
objects, and the pool that owns the objects. Interning, growing and sweeping follow the source
loop by loop; a loop carries the number of slots as fuel. -/
namespace LuajitRs
open Lib.Probe

/-! ### String hashing (FNV-1a 64) -/

def FNV_OFFSET : UInt64 := 0xcbf29ce484222325
def FNV_PRIME : UInt64 := 0x00000100000001b3

/-- One FNV-1a step. -/
def fnvStep (h : UInt64) (b : UInt8) : UInt64 := (h ^^^ b.toUInt64) * FNV_PRIME

/-- Continue a stream with `s`, eight bytes at a time and then byte by byte. -/
def fnv1aCont (state : UInt64) : List UInt8 → UInt64
  | b0 :: b1 :: b2 :: b3 :: b4 :: b5 :: b6 :: b7 :: rest =>
    fnv1aCont ([b0, b1, b2, b3, b4, b5, b6, b7].foldl fnvStep state) rest
  | s => s.foldl fnvStep state

def fnv1aState (s : List UInt8) : UInt64 := fnv1aCont FNV_OFFSET s

/-- Fold a 64-bit FNV state into the 32-bit interned hash. -/
def fnv1aFold (state : UInt64) : UInt32 := state.toUInt32 ^^^ (state >>> 32).toUInt32

/-- The hash that every caller of `internWithHash` must pass. -/
def strHash (s : List UInt8) : UInt32 := fnv1aFold (fnv1aState s)

theorem fnv1aCont_eq_foldl (state : UInt64) (s : List UInt8) :
    fnv1aCont state s = s.foldl fnvStep state := by
  fun_induction fnv1aCont state s with
  | case1 state b0 b1 b2 b3 b4 b5 b6 b7 rest ih => simpa using ih
  | case2 => rfl

/-- A concatenation may continue the stream of its first part. -/
theorem fnv1aCont_fnv1aState (s t : List UInt8) :
    fnv1aCont (fnv1aState s) t = fnv1aState (s ++ t) := by
  simp [fnv1aState, fnv1aCont_eq_foldl]

/-! ### Strings and slots -/

def INLINE_CAP : ℕ := 40

/-- A string object; short contents are stored inline and long ones in a box of their own. -/
structure LuaString where
  sid : UInt32
  hash : UInt32
  bytes : List UInt8
  deriving DecidableEq, Repr

/-- The size of a string object on a 64-bit host. -/
def LuaString.size : ℕ := 56

def LuaString.gcSize (s : LuaString) : ℕ :=
  LuaString.size + if s.bytes.length ≤ INLINE_CAP then 0 else s.bytes.length

structure Interner where
  slots : List (Slot ℕ)
  nuse : ℕ
  ndead : ℕ
  byId : List (Option ℕ)
  freeIds : List UInt32
  pool : Pool LuaString
  bytes : ℕ
  emptySid : UInt32

namespace Interner

def MAX_LOAD_NUM : ℕ := 7
def MAX_LOAD_DEN : ℕ := 10

def shouldGrow (it : Interner) : Bool :=
  it.slots.length * MAX_LOAD_NUM ≤ (it.nuse + it.ndead) * MAX_LOAD_DEN

theorem shouldGrow_iff {it : Interner} :
    it.shouldGrow ↔ it.slots.length * 7 ≤ (it.nuse + it.ndead) * 10 := decide_eq_true_iff

/-- The comparison of a probe with the string at `p`. A pointer to freed memory never matches. -/
def sameString (heap : ℕ → Option (GcBox LuaString)) (s : List UInt8) (hash : UInt32) (p : ℕ) : Bool :=
  match heap p with
  | some box => box.data.hash = hash && box.data.bytes = s
  | none => false

/-- A probe for a string stops where it is, or at an empty slot. -/
def probeStop (heap : ℕ → Option (GcBox LuaString)) (s : List UInt8) (hash : UInt32) : Slot ℕ → Bool
  | .empty => true
  | .tombstone => false
  | .occupied p => sameString heap s hash p

/-- What the probe of `intern` ends with: the object, or the slot for a new one. -/
inductive Found
  | hit (p : ℕ)
  | absent (slot : ℕ)
  deriving DecidableEq, Repr

/-- The probe loop of `intern_with_hash`, which remembers the first tombstone. -/
def probe (heap : ℕ → Option (GcBox LuaString)) (slots : List (Slot ℕ)) (s : List UInt8)
    (hash : UInt32) : ℕ → ℕ → Option ℕ → Except Fault Found
  | 0, _, _ => .error .diverge
  | k+1, idx, firstDead =>
    match slots[idx]? with
    | none => .error .outOfBounds
    | some .empty => .ok (.absent (firstDead.getD idx))
    | some .tombstone =>
      probe heap slots s hash k ((idx + 1) &&& (slots.length - 1)) (firstDead.or (some idx))
    | some (.occupied p) =>
      if sameString heap s hash p then .ok (.hit p)
      else probe heap slots s hash k ((idx + 1) &&& (slots.length - 1)) firstDead

/-- The other probe loops: step to the first slot that satisfies `stop`. -/
def advance (stop : Slot ℕ → Bool) (slots : List (Slot ℕ)) : ℕ → ℕ → Except Fault ℕ
  | 0, _ => .error .diverge
  | k+1, idx =>
    match slots[idx]? with
    | none => .error .outOfBounds
    | some c => if stop c then .ok idx else advance stop slots k ((idx + 1) &&& (slots.length - 1))

/-- The loop of `grow`: every object goes to the first empty slot from its hash. -/
def reinsert (heap : ℕ → Option (GcBox LuaString)) :
    List (Slot ℕ) → List (Slot ℕ) → Except Fault (List (Slot ℕ))
  | [], newSlots => .ok newSlots
  | .occupied p :: rest, newSlots =>
    match heap p with
    | none => .error .dangling
    | some box => do
      let idx ← advance Slot.isEmpty newSlots newSlots.length
        (box.data.hash.toNat &&& (newSlots.length - 1))
      reinsert heap rest (newSlots.set idx (.occupied p))
  | _ :: rest, newSlots => reinsert heap rest newSlots

def grow (it : Interner) : Except Fault Interner := do
  let slots ← reinsert it.pool.heap it.slots (List.replicate (it.slots.length * 2) .empty)
  return { it with slots := slots, ndead := 0 }

/-- Grow when the load is high, and probe again for a slot. -/
def makeRoom (it : Interner) (hash : UInt32) (slot : ℕ) : Except Fault (Interner × ℕ) :=
  if it.shouldGrow then do
    let it ← it.grow
    let slot ← advance (fun c => c.isEmpty || c.isTombstone) it.slots it.slots.length
      (hash.toNat &&& (it.slots.length - 1))
    return (it, slot)
  else .ok (it, slot)

/-- The id of a new string: a recycled one, or the index of a new entry of `byId`. -/
def newId (it : Interner) : UInt32 × List UInt32 × List (Option ℕ) :=
  match it.freeIds with
  | id :: rest => (id, rest, it.byId)
  | [] => (UInt32.ofNat it.byId.length, [], it.byId ++ [none])

/-- Allocate the string and enter it into `byId` and the slot. -/
def place (it : Interner) (s : List UInt8) (hash : UInt32) (slot fresh : ℕ) :
    Except Fault (Interner × UInt32) :=
  let (sid, freeIds, byId) := it.newId
  let str : LuaString := ⟨sid, hash, s⟩
  let (pool, p) := it.pool.alloc LuaString.size str fresh
  match it.slots[slot]? with
  | none => .error .outOfBounds
  | some c =>
    if sid.toNat < byId.length then
      .ok ({ it with
        slots := it.slots.set slot (.occupied p), nuse := it.nuse + 1,
        ndead := it.ndead - if c.isTombstone then 1 else 0,
        byId := byId.set sid.toNat (some p), freeIds := freeIds, pool := pool,
        bytes := it.bytes + str.gcSize }, sid)
    else .error .outOfBounds

def insertNew (it : Interner) (s : List UInt8) (hash : UInt32) (slot fresh : ℕ) :
    Except Fault (Interner × UInt32) := do
  let (it, slot) ← it.makeRoom hash slot
  it.place s hash slot fresh

/-- `intern_with_hash`; a string that exists is marked so that the running cycle keeps it. -/
def internWithHash (it : Interner) (s : List UInt8) (hash : UInt32) (fresh : ℕ) :
    Except Fault (Interner × UInt32) :=
  match probe it.pool.heap it.slots s hash it.slots.length
      (hash.toNat &&& (it.slots.length - 1)) none with
  | .error e => .error e
  | .ok (.absent slot) => it.insertNew s hash slot fresh
  | .ok (.hit p) =>
    match it.pool.get p with
    | none => .error .dangling
    | some str => .ok ({ it with pool := it.pool.modifyHeader p GcHeader.setMarked }, str.sid)

def intern (it : Interner) (s : List UInt8) (fresh : ℕ) : Except Fault (Interner × UInt32) :=
  it.internWithHash s (strHash s) fresh

/-- The interner before its first string. -/
def bare : Interner := ⟨List.replicate 512 .empty, 0, 0, [], [], Pool.new, 0, 0⟩

def new (fresh : ℕ) : Except Fault Interner :=
  (bare.intern [] fresh).map fun r => { r.1 with emptySid := r.2 }

def tryLookup (it : Interner) (id : UInt32) : Option ℕ := it.byId[id.toNat]?.join

/-! ### Sweeping -/

/-- Mark every string without bytes, so that the sweep keeps the empty string. -/
def pinEmpty : List (Slot ℕ) → Pool LuaString → Except Fault (Pool LuaString)
  | [], pool => .ok pool
  | .occupied p :: rest, pool =>
    match pool.get p with
    | none => .error .dangling
    | some s => pinEmpty rest (if s.bytes = [] then pool.modifyHeader p GcHeader.setMarked else pool)
  | _ :: rest, pool => pinEmpty rest pool

/-- The callback of the sweep: the slot of a freed string becomes a tombstone and its id a hole. -/
def onFree (heap : ℕ → Option (GcBox LuaString)) (s : LuaString) (it : Interner) :
    Except Fault Interner := do
  let idx ← advance (probeStop heap s.bytes s.hash) it.slots it.slots.length (s.hash.toNat &&& (it.slots.length - 1))
  let it := match it.slots[idx]? with
    | some (.occupied _) =>
      { it with slots := it.slots.set idx .tombstone, nuse := it.nuse - 1, ndead := it.ndead + 1 }
    | _ => it
  if s.sid.toNat < it.byId.length then return { it with byId := it.byId.set s.sid.toNat none }
  else throw .outOfBounds

def sweep (it : Interner) (currentWhite : UInt8) : Except Fault Interner := do
  let pool ← pinEmpty it.slots it.pool
  let (pool, it) ← pool.sweepTricolor LuaString.size currentWhite onFree it
  return { it with pool := pool, bytes := (pool.objects.map fun a =>
    ((pool.get a).map LuaString.gcSize).getD 0).sum }

end Interner
end LuajitRs
