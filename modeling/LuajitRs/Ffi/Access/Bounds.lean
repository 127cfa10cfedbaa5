import LuajitRs.Ffi.Access.Position

/-! Which accesses stay within the storage that they name. -/
namespace LuajitRs.Ffi
open Lib Lib.Bytes

/-! ### What an access may touch -/

def Touch.place : Touch → Place
  | .read p _ => p
  | .write p _ => p

def Touch.size : Touch → ℕ
  | .read _ n => n
  | .write _ bs => bs.length

/-- What an access returns when there is nothing to read. -/
def Val.IsEmpty : Val → Prop
  | .nil | .method _ => True
  | .num x => x = .zero
  | .obj _ => False
  | .bytes bs => bs = []

/-- The access stops with a Lua error, if it stops. -/
def LuaError : FfiError → Prop
  | .fault _ => False
  | .runtime _ => True

theorem ensures_lift {α : Type} {m : Except Fault α} {Q : α → Prop} : Ensures LuaError (lift m) Q ↔ Returns m Q := by
  cases m with
  | ok a => exact Iff.rfl
  | error f => exact Iff.rfl

/-- One operation on C data with its arguments. -/
inductive Access
  | get (cd : ℕ) (key : LuaValue)
  | put (cd : ℕ) (key val : LuaValue)
  | string (cd : ℕ) (len : Option LuaValue)
  | copy (dst : ℕ) (src len : LuaValue)
  | fill (dst : ℕ) (len : LuaValue) (byte : Option LuaValue)
  deriving DecidableEq, Repr

namespace FfiState
variable (s : FfiState)

def run : Access → Except FfiError (Val × List Touch)
  | .get cd key => s.cdataIndex cd key
  | .put cd key val => (s.cdataNewindex cd key val).map fun ts => (.nil, ts)
  | .string cd len => s.ffiString (.cdata cd) len
  | .copy dst src len => (s.ffiCopy (.cdata dst) src len).map fun ts => (.nil, ts)
  | .fill dst len byte => (s.ffiFill (.cdata dst) len byte).map fun ts => (.nil, ts)

/-- The touch lies in a storage. -/
def Inside (root : ℕ) (t : Touch) : Prop := ∃ a, t.place = .payload root a ∧ a + t.size ≤ (s.payload root).length

/-- The touch lies in a storage and starts at a position. -/
def At (root : ℕ) (pos : ℤ) (t : Touch) : Prop :=
  ∃ a : ℕ, t.place = .payload root a ∧ (a : ℤ) = pos ∧ a + t.size ≤ (s.payload root).length

/-- The `n` bytes from a position on lie in a storage. -/
def Fits (root : ℕ) (pos : ℤ) (n : ℕ) : Prop := Within pos n (s.payload root).length

/-- An access to `n` bytes at a position touches them only, and nothing when they do not fit. -/
def Held (root : ℕ) (pos : ℤ) (n : ℕ) (r : Val × List Touch) : Prop :=
  (∀ t ∈ r.2, s.At root pos t) ∧ (¬ s.Fits root pos n → r.1.IsEmpty ∧ r.2 = [])

def elemSize (cd : ℕ) : ℕ := (s.cts.raw (s.elemTypeId cd)).size

/-- The offset and the size of a member that is read, none when the type has no such member. -/
def memberRead (cd : ℕ) (name : String) : Option (ℕ × ℕ) :=
  match s.cts.complexPart (s.rawOf cd) name with
  | some off => some (off, (s.cts.raw (ctypeCid (s.rawOf cd).info)).size)
  | none =>
    if ctypeIsPointer (s.rawOf cd).info then none
    else
      match s.cts.fieldOffset (s.typeOf cd) name with
      | .ok (some (fid, off)) => some (off, (s.cts.raw fid).size)
      | _ => none

/-- The offset and the size of a member that is written. -/
def memberWritten (cd : ℕ) (name : String) : Option (ℕ × ℕ) :=
  if ctypeIsPointer (s.rawOf cd).info then none
  else
    match s.cts.fieldOffset (s.typeOf cd) name with
    | .ok (some (fid, off)) => some (off, (s.cts.raw fid).size)
    | _ => none

/-- The distance and the size of the part of an object that a key names. -/
def named (cd : ℕ) (key : LuaValue) (member : String → Option (ℕ × ℕ)) : Option (ℤ × ℕ) :=
  match s.indexNumber key with
  | .ok (some idx) => some (idx * s.elemSize cd, s.elemSize cd)
  | _ =>
    match key with
    | .str k => (member (s.text k)).map fun m => ((m.1 : ℤ), m.2)
    | _ => none

/-- An access by a key touches what the key names, or at least nothing outside of the storage. -/
def KeyHeld (cd : ℕ) (part : Option (ℤ × ℕ)) (r : Val × List Touch) : Prop :=
  match part with
  | some (d, n) => s.Held (s.heap.locate cd).2 ((s.heap.locate cd).1 + d) n r
  | none => ∀ t ∈ r.2, s.Inside (s.heap.locate cd).2 t

/-- The start of an object lies in its storage. -/
def Starts (cd : ℕ) : Prop := s.Fits (s.heap.locate cd).2 (s.heap.locate cd).1 0

/-- A copy reads at its source and writes at its destination, and does nothing unless both start in their storage. -/
def CopyHeld (dst : ℕ) (src : LuaValue) (r : Val × List Touch) : Prop :=
  (∀ t ∈ r.2, s.At (s.heap.locate dst).2 (s.heap.locate dst).1 t ∨
    ∃ sc, src = .cdata sc ∧ s.At (s.heap.locate sc).2 (s.heap.locate sc).1 t) ∧
  ((¬ s.Starts dst ∨ ∃ sc, src = .cdata sc ∧ ¬ s.Starts sc) → r.2 = [])

/-- The access never faults, touches only what it names in the storage of the object, and reads and changes nothing
where that does not fit. -/
def Safe (op : Access) : Prop :=
  match op with
  | .get cd key => Ensures LuaError (s.run op) (s.KeyHeld cd (s.named cd key (s.memberRead cd)))
  | .put cd key _ => Ensures LuaError (s.run op) (s.KeyHeld cd (s.named cd key (s.memberWritten cd)))
  | .string cd _ => Ensures LuaError (s.run op) (s.Held (s.heap.locate cd).2 (s.heap.locate cd).1 0)
  | .copy dst src _ => Ensures LuaError (s.run op) (s.CopyHeld dst src)
  | .fill dst _ _ => Ensures LuaError (s.run op) (s.Held (s.heap.locate dst).2 (s.heap.locate dst).1 0)

/-- An object that is no raw pointer; the bulk functions never follow one. -/
def Owned : Access → Prop
  | .get cd _ => ctypeIsPtr (s.rawOf cd).info = false
  | .put cd _ _ => ctypeIsPtr (s.rawOf cd).info = false
  | _ => True

/-! ### When it does -/

/-- The position of an element is computed without an overflow, and is the exact one unless it misses the storage. -/
def ElementInBounds (cd : ℕ) (idx : ℤ) : Prop :=
  s.elemSize cd = 0 ∨
    s.heap.Resolves cd ∧
      let pos := elemPos (s.heap.locate cd).1 idx (s.elemSize cd)
      I64 pos ∧ (0 ≤ pos → pos + s.elemSize cd < 2^63) ∧
        (wrapI64 (idx * s.elemSize cd) = idx * s.elemSize cd ∨ ¬ s.Fits (s.heap.locate cd).2 pos (s.elemSize cd))

/-- The position of a field is computed without an overflow. -/
def FieldInBounds (cd off n : ℕ) : Prop :=
  s.heap.Resolves cd ∧ I64 ((s.heap.locate cd).1 + off) ∧ EndFits ((s.heap.locate cd).1 + off) n

/-- A scalar that is no float lies in the first 4 GiB. -/
def Narrow (cd off : ℕ) (isFp : Bool) (sz : ℕ) : Prop :=
  isFp = true ∧ (sz = 8 ∨ sz = 4) ∨ ¬ (sz = 1 ∨ sz = 2 ∨ sz = 4 ∨ sz = 8) ∨
    (s.Fits (s.heap.locate cd).2 ((s.heap.locate cd).1 + off) sz → (s.heap.locate cd).1 + off < 2^32)

/-- The address that the first bytes of an object hold, zero where there is no room for one. -/
def heldAddr (cd : ℕ) : BitVec 64 :=
  match index (s.heap.locate cd).1 8 (s.payload (s.heap.locate cd).2).length with
  | some a => le 64 (window (s.payload (s.heap.locate cd).2) a 8)
  | none => 0

/-- The bytes that a scalar is read from lie in its storage. -/
def ScalarFits (obj : ℕ) (isFp : Bool) (a sz : ℕ) : Prop := ∀ t ∈ scalarTouch obj isFp a sz, s.Inside obj t

/-- The scalar behind the address that an array starts with lies in the storage of the array, or is not read. -/
def DerefScalarInBounds (cd off : ℕ) (isFp : Bool) (sz : ℕ) : Prop :=
  I64 ((s.heap.locate cd).1 + 8) ∧
    ((s.heap.locate cd).1 + 8 ≤ (s.payload (s.heap.locate cd).2).length → 0 ≤ (s.heap.locate cd).1) ∧
    (s.heldAddr cd = 0 ∨ ∃ j a, s.findStorage (s.heldAddr cd).toInt sz s.storages = .ok (some (j, a)) ∧
      s.ScalarFits j isFp (a + off) sz ∧ (j = (s.heap.locate cd).2 ∨ scalarTouch j isFp (a + off) sz = []))

/-- The object behind the address that an array starts with lies in the storage of the array. -/
def DerefObjectInBounds (cd off sz : ℕ) : Prop :=
  EndFits (s.heap.locate cd).1 8 ∧
    (s.heldAddr cd = 0 ∨ I64 ((s.heldAddr cd).toInt + off) ∧
      ∃ a, s.findStorage ((s.heldAddr cd).toInt + off) sz s.storages = .ok (some ((s.heap.locate cd).2, a)))

/-- A field that is read. -/
def ReadInBounds (cd fid off : ℕ) : Prop :=
  let ct := s.cts.raw fid
  s.heap.Resolves cd ∧
    if ctypeIsScalar ct.info then
      (if ctypeIsPointer (s.rawOf cd).info then s.DerefScalarInBounds cd off (ctypeIsFp ct.info) ct.size
        else s.FieldInBounds cd off ct.size ∧ s.Narrow cd off (ctypeIsFp ct.info) ct.size) ∧
      ((fid = CTypeID.int64 ∨ fid = CTypeID.uint64) → s.FieldInBounds cd off 8)
    else if ctypeIsPointer (s.rawOf cd).info then s.DerefObjectInBounds cd off ct.size
    else s.Fits (s.heap.locate cd).2 ((s.heap.locate cd).1 + off) ct.size

def GetInBounds (cd : ℕ) (name : String) : Prop :=
  s.isFuncPtrType (s.typeOf cd) ∧ (name = "free" ∨ name = "set") ∨
    match s.cts.complexPart (s.rawOf cd) name with
    | some off => s.FieldInBounds cd off (s.cts.raw (ctypeCid (s.rawOf cd).info)).size
    | none =>
      match s.cts.fieldOffset (s.elemTypeId cd) name with
      | .ok (some (fid, off)) => s.ReadInBounds cd fid off
      | .ok none => True
      | .error _ => False

/-- A field that is written. -/
def WriteInBounds (cd fid off : ℕ) (val : LuaValue) : Prop :=
  let sz := (s.cts.raw fid).size
  if ctypeIsComplex (s.cts.raw fid).info then s.FieldInBounds cd off sz
  else
    match val with
    | .cdata src =>
      s.heap.Resolves src ∧
        if ctypeIsPtr (s.cts.raw fid).info then
          if sz = 8 ∨ sz = 4 then s.FieldInBounds cd off sz
          else s.heap.Resolves cd ∧ I64 ((s.heap.locate cd).1 + off)
        else if ctypeIsPointer (s.rawOf cd).info then
          s.heap.Resolves cd ∧ EndFits (s.heap.locate cd).1 8 ∧ s.heldAddr cd = 0
        else s.FieldInBounds cd off sz
    | _ =>
      if ctypeIsPointer (s.rawOf cd).info then
        s.heap.Resolves cd ∧ EndFits (s.heap.locate cd).1 8 ∧ s.heldAddr cd = 0
      else s.FieldInBounds cd off (max sz 1)

def PutInBounds (cd : ℕ) (name : String) (val : LuaValue) : Prop :=
  match s.cts.complexPart (s.cts.raw (s.elemTypeId cd)) name with
  | some off => s.FieldInBounds cd off (s.cts.raw (ctypeCid (s.cts.raw (s.elemTypeId cd)).info)).size
  | none =>
    match s.cts.fieldOffset (s.elemTypeId cd) name with
    | .ok (some (fid, off)) => s.WriteInBounds cd fid off val
    | .ok none => True
    | .error _ => False

/-- A key that can be converted, as a number or as a name. -/
def KeyInBounds (cd : ℕ) (key : LuaValue) (member : String → Prop) : Prop :=
  match s.indexNumber key with
  | .ok (some idx) => s.ElementInBounds cd idx
  | .ok none => ∀ k, key = .str k → member (s.text k)
  | .error _ => False

/-- The length of the storage of an object. -/
def storageLength (cd : ℕ) : ℕ := (s.payload (s.heap.locate cd).2).length

/-- A run of bytes from the start of an object does not start behind the storage, and is empty when it starts before
the storage. -/
def RunInBounds (cd n : ℕ) : Prop :=
  s.heap.Resolves cd ∧ (s.heap.locate cd).1 ≤ s.storageLength cd ∧ ((s.heap.locate cd).1 < 0 → n = 0)

/-- The room from the start of an object to the end of its storage. -/
def room (cd : ℕ) : ℕ := s.storageLength cd - (s.heap.locate cd).1.toNat

/-- The number of bytes that a copy moves. -/
def copyCount (dst : ℕ) (src : LuaValue) (len : ℕ) : ℕ :=
  match src with
  | .cdata sc => min (min len (s.room dst)) (s.room sc)
  | .str k => if len = 0 then min ((s.bytes k).length + 1) (s.room dst) else min (min len (s.room dst)) (s.bytes k).length
  | _ => 0

/-- The condition under which an access is safe. -/
def InBounds : Access → Prop
  | .get cd key => s.KeyInBounds cd key (s.GetInBounds cd)
  | .put cd key val => s.KeyInBounds cd key fun name => s.PutInBounds cd name val
  | .string cd none => s.RunInBounds cd (s.storageLength cd)
  | .string cd (some len) => s.RunInBounds cd (min (lengthArg len) (s.storageLength cd))
  | .fill dst len _ => s.RunInBounds dst (min (lengthArg len) (s.storageLength dst))
  | .copy dst src len =>
    match src with
    | .cdata sc => s.RunInBounds dst (s.copyCount dst src (lengthArg len)) ∧ s.RunInBounds sc (s.copyCount dst src (lengthArg len))
    | .str _ => s.RunInBounds dst (s.copyCount dst src (lengthArg len))
    | _ => s.heap.Resolves dst

end FfiState

end LuajitRs.Ffi
