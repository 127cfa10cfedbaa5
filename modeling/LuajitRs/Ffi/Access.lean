import LuajitRs.Ffi.Call
import LuajitRs.Ffi.CType

/-! Access to C data: elements by index, fields by name, and the bulk functions. Each operation returns its value and
lists the bytes that it touches, in the storage of an object or behind a raw address. -/
namespace LuajitRs.Ffi
open Lib.Bytes

/-- The runtime around an access: raw memory, the bytes of a string, its text as a name, and the values of a table
from the first to its length. -/
structure FfiState extends Host where
  mem : BitVec 64 → UInt8
  bytes : ℕ → List UInt8
  text : ℕ → String
  seq : ℕ → List LuaValue
  /-- No payload is longer than the largest allocation. -/
  payload_lt : ∀ obj, (heap.get obj).data.length < 2^63
  /-- No declaration changes a predefined number. -/
  predefined_kept : ∀ id, CTypeID.bool ≤ id → id ≤ CTypeID.complexDouble → cts.get id = CTState.new.get id
  /-- The complex types are predefined. -/
  complex_predefined : ∀ id, ctypeIsComplex (cts.get id).info = true →
    id = CTypeID.complexFloat ∨ id = CTypeID.complexDouble

/-- Where an access goes: a position in the payload of an object, or an address. -/
inductive Place
  | payload (obj a : ℕ)
  | raw (addr : BitVec 64)
  deriving DecidableEq, Repr

inductive Touch
  | read (p : Place) (n : ℕ)
  | write (p : Place) (bs : List UInt8)
  deriving DecidableEq, Repr

/-- What an operation returns: a value, a new object, the method of a callback, or a string. -/
inductive Val
  | nil
  | num (x : F64)
  | obj (c : CData)
  | method (name : String)
  | bytes (bs : List UInt8)
  deriving DecidableEq, Repr

/-- A step that raises no Lua error. -/
def lift {α : Type} (m : Except Fault α) : Except FfiError α :=
  match m with
  | .ok a => .ok a
  | .error f => .error (.fault f)

def errBadArg (n : ℕ) (func expected : String) : FfiError :=
  .runtime s!"bad argument #{n} to '{func}' ({expected} expected, got )"

/-! ### Positions -/

/-- A product that wraps around in 64 bits. -/
def wrapI64 (z : ℤ) : ℤ := (BitVec.ofInt 64 z).toInt

/-- `z as usize`. -/
def asUsize (z : ℤ) : ℕ := (BitVec.ofInt 64 z).toNat

def addUsize (x y : ℕ) : Except Fault ℕ := if x + y < 2^64 then .ok (x + y) else .error .overflow

/-- The position `z` as an index, if `n` bytes fit there. -/
def indexAt (z : ℤ) (n len : ℕ) : Except Fault (Option ℕ) := do
  let stop ← addUsize (asUsize z) n
  return if stop ≤ len then some (asUsize z) else none

/-- The position of a field, if `n` bytes fit there. -/
def fieldAt (boff offset : ℤ) (n len : ℕ) : Except Fault (Option ℕ) := do
  let a ← addI64 boff offset
  indexAt a n len

/-- The position of an element, if it fits. -/
def elemAt (off idx : ℤ) (elemSz len : ℕ) : Except Fault (Option ℕ) := do
  let addr ← addI64 off (wrapI64 (idx * elemSz))
  if addr < 0 then return none
  let stop ← addI64 addr elemSz
  return if len < stop then none else some addr.toNat

/-! ### Types -/

/-- A number or an enumeration; anything else is accessed as an object. -/
def ctypeIsScalar (info : CTInfo) : Bool := ctypeType info = .num || ctypeType info = .enum

namespace CTState
variable (cts : CTState)

/-- The first hit in a list. -/
def firstHit {α β : Type} (f : α → Except Fault (Option β)) : List α → Except Fault (Option β)
  | [] => .ok none
  | a :: as => do
    match ← f a with
    | some b => return some b
    | none => firstHit f as

/-- The entries from `cur` on, at most `guard` of them. -/
def siblings : ℕ → ℕ → List CType
  | 0, _ => []
  | guard + 1, cur => if cur = 0 then [] else cts.get cur :: siblings guard (cts.get cur).sib

/-- The type and the offset of a field. Members that are structs are searched too, so a struct that contains itself
is searched for ever: the fuel runs out. The entry zero has no type behind it. -/
def fieldOffsetFrom : ℕ → ℕ → String → Except Fault (Option (ℕ × ℕ))
  | 0, _, _ => .error .diverge
  | fuel + 1, ctypeid, name =>
    let structId := cts.resolveRawId ctypeid
    match cts.fieldNames.lookup (structId, name) with
    | some r => .ok (some r)
    | none =>
      firstHit (fun f => do
        let ftype := ctypeCid f.info
        if ftype = 0 then throw .diverge
        if !ctypeIsStruct (cts.raw ftype).info then return none
        match ← fieldOffsetFrom fuel ftype name with
        | some (tid, off) => if f.size + off < 2^32 then return some (tid, f.size + off) else throw .overflow
        | none => return none) (cts.siblings 64 (ctypeCid (cts.get structId).info))

/-- Structs nest no deeper than there are types. -/
def fieldOffset (ctypeid : ℕ) (name : String) : Except Fault (Option (ℕ × ℕ)) :=
  cts.fieldOffsetFrom (cts.tab.length + 1) ctypeid name

/-- The offset of the real or imaginary part of a complex number. -/
def complexPart (raw : CType) (name : String) : Option ℕ :=
  if ctypeIsComplex raw.info then
    match name with
    | "re" => some 0
    | "im" => some (cts.raw (ctypeCid raw.info)).size
    | _ => none
  else none

end CTState

namespace FfiState
variable (s : FfiState)

/-- The payload of an object. -/
def payload (obj : ℕ) : List UInt8 := (s.heap.get obj).data

def typeOf (cd : ℕ) : ℕ := (s.heap.get cd).ctypeid.toNat

/-- The type of an object behind its typedefs. -/
def rawOf (cd : ℕ) : CType := s.cts.raw (s.typeOf cd)

/-- Some bytes of raw memory. -/
def loadRaw (addr : BitVec 64) (n : ℕ) : List UInt8 := (List.range n).map fun k => s.mem (addr + BitVec.ofNat 64 k)

/-- The bytes at a place. -/
def load : Place → ℕ → List UInt8
  | .payload obj a, n => window (s.payload obj) a n
  | .raw addr, n => s.loadRaw addr n

/-! ### Elements -/

/-- An array index from a number or a numeric object. -/
def indexNumber (key : LuaValue) : Except Fault (Option ℤ) :=
  match key with
  | .num n => .ok (some n.asInt64.toInt)
  | .cdata k =>
    if ctypeIsNum (s.rawOf k).info then do
      return (← cdataToNumber (s.heap.get k)).map fun n => n.asInt64.toInt
    else .ok none
  | _ => .ok none

/-- The element type of a pointer or an array; any other object is its own element. Fields are looked up in it. -/
def elemTypeId (cd : ℕ) : ℕ := if ctypeIsPointer (s.rawOf cd).info then ctypeCid (s.rawOf cd).info else s.typeOf cd

/-- The place of element `idx`, with a bounds check against the storage. A pointer is followed without one. -/
def cdataElemAddr (cd : ℕ) (idx : ℤ) (elemSz : ℕ) : Except Fault (Option Place) :=
  if ctypeIsPtr (s.rawOf cd).info then
    let base := (s.heap.get cd).getPtr
    .ok (if base = 0 then none else some (.raw (base + BitVec.ofInt 64 (idx * elemSz))))
  else do
    let r ← s.heap.resolvePtr cd
    return (← elemAt r.1 idx elemSz (s.payload r.2).length).map (.payload r.2)

/-- Read an element. One that is no number is an alias of its storage, except behind a pointer. -/
def arrayElement (cd : ℕ) (idx : ℤ) : Except Fault (Val × List Touch) :=
  let elem := s.elemTypeId cd
  let elemRaw := s.cts.raw elem
  let elemSz := elemRaw.size
  if elemSz = 0 then .ok (.nil, [])
  else if !ctypeIsNum elemRaw.info && !ctypeIsPtr (s.rawOf cd).info then do
    let r ← s.heap.resolvePtr cd
    match ← elemAt r.1 idx elemSz (s.payload r.2).length with
    | some a => return (.obj ⟨.ofNat elem, [], some r.2, a⟩, [])
    | none => return (.nil, [])
  else do
    match ← s.cdataElemAddr cd idx elemSz with
    | none => return (.nil, [])
    | some p =>
      let sub : CData := ⟨.ofNat elem, s.load p elemSz, none, 0⟩
      let touch := [Touch.read p elemSz]
      if elem = CTypeID.int64 || elem = CTypeID.uint64 || ctypeIsComplex elemRaw.info then return (.obj sub, touch)
      match ← cdataToNumber sub with
      | some n => return (.num n.normalize, touch)
      | none => return (.obj sub, touch)

/-! ### Reading fields -/

/-- The number in a scalar field at position `a`. A position is narrowed to 32 bits unless the field is a float. -/
def scalarAt (d : List UInt8) (isFp : Bool) (a sz : ℕ) : Except Fault F64 :=
  if isFp && sz = 8 then do return f64OfLe (← slice d a 8)
  else if isFp && sz = 4 then do return .ofF32 (le 32 (← slice d a 4))
  else readFieldFromSlice d (a % 2^32) sz

/-- The bytes that `scalarAt` reads. -/
def scalarTouch (obj : ℕ) (isFp : Bool) (a sz : ℕ) : List Touch :=
  if isFp && (sz = 8 || sz = 4) then [.read (.payload obj a) sz]
  else if sz = 1 || sz = 2 || sz = 4 || sz = 8 then [.read (.payload obj (a % 2^32)) sz]
  else []

/-- A scalar in the storage of an object, none where it does not fit. -/
def storedScalar (cd : ℕ) (offset : ℤ) (isFp : Bool) (sz : ℕ) : Except Fault (Option F64 × List Touch) := do
  let r ← s.heap.resolvePtr cd
  match ← fieldAt r.1 offset sz (s.payload r.2).length with
  | some a => do
    let x ← scalarAt (s.payload r.2) isFp a sz
    return (some x, scalarTouch r.2 isFp a sz)
  | none => return (none, [])

/-- The first object that holds the `n` bytes at an address. -/
def findStorage (addr : ℤ) (n : ℕ) : List ℕ → Except Fault (Option (ℕ × ℕ))
  | [] => .ok none
  | j :: js =>
    let start := (s.heap.dataPtr j).toInt
    if start ≤ addr then do
      let stop ← addI64 addr n
      if stop ≤ start + (s.payload j).length then return some (j, (addr - start).toNat)
      findStorage addr n js
    else findStorage addr n js

def storages : List ℕ := List.range s.heap.objs.length

/-- The address that an object holds, zero where there is no room for one, and what is touched to read it. -/
def storedAddr (cd : ℕ) : Except Fault (BitVec 64 × List Touch) := do
  let r ← s.heap.resolvePtr cd
  match ← indexAt r.1 8 (s.payload r.2).length with
  | some a => return (le 64 (window (s.payload r.2) a 8), [.read (.payload r.2 a) 8])
  | none => return (0, [])

/-- `storedAddr` with a signed comparison, which a negative position passes. -/
def storedAddrSigned (cd : ℕ) : Except Fault (BitVec 64 × List Touch) := do
  let r ← s.heap.resolvePtr cd
  let stop ← addI64 r.1 8
  if stop ≤ (s.payload r.2).length then do
    let bs ← slice (s.payload r.2) (asUsize r.1) 8
    return (le 64 bs, [.read (.payload r.2 (asUsize r.1)) 8])
  else return (0, [])

/-- A number in raw memory, by its size only. -/
def readFieldValue (addr : BitVec 64) (sz : ℕ) : F64 :=
  match sz with
  | 1 => .ofInt (le 8 (s.loadRaw addr 1)).toInt
  | 2 => .ofInt (le 16 (s.loadRaw addr 2)).toInt
  | 4 => .ofInt (le 32 (s.loadRaw addr 4)).toInt
  | 8 => .ofInt64 (le 64 (s.loadRaw addr 8))
  | _ => .zero

/-- A scalar field behind the address that an object holds. -/
def derefScalar (cd offset : ℕ) (isFp : Bool) (sz : ℕ) : Except Fault (F64 × List Touch) := do
  let r ← s.storedAddrSigned cd
  if r.1 = 0 then return (.zero, r.2)
  match ← s.findStorage r.1.toInt sz s.storages with
  | some (j, start) => do
    let x ← scalarAt (s.payload j) isFp (start + offset) sz
    return (x, r.2 ++ scalarTouch j isFp (start + offset) sz)
  | none => return (s.readFieldValue (r.1 + .ofNat 64 offset) sz, r.2 ++ [.read (.raw (r.1 + .ofNat 64 offset)) sz])

/-- A copy of a field that is no scalar, behind the address that an object holds. -/
def derefObject (cd fid offset sz : ℕ) : Except Fault (CData × List Touch) := do
  let r ← s.storedAddr cd
  if r.1 = 0 then return (⟨.ofNat fid, .replicate sz 0, none, 0⟩, r.2)
  let target ← addI64 r.1.toInt offset
  let found ← s.findStorage target sz s.storages
  let p := (found.map fun ja => Place.payload ja.1 ja.2).getD (.raw (r.1 + .ofNat 64 offset))
  return (⟨.ofNat fid, s.load p sz, none, 0⟩, r.2 ++ [.read p sz])

/-- A scalar field as a number. -/
def scalarField (cd : ℕ) (isPtr : Bool) (offset : ℕ) (isFp : Bool) (sz : ℕ) : Except Fault (F64 × List Touch) :=
  if isPtr then s.derefScalar cd offset isFp sz
  else (s.storedScalar cd offset isFp sz).map fun r => (r.1.getD .zero, r.2)

/-- The value of a scalar field with number `val`. A 64-bit integer is an object, if it lies in the storage. -/
def wideField (cd fid offset sz : ℕ) (val : F64) (t : List Touch) : Except Fault (Val × List Touch) :=
  if (fid = CTypeID.int64 || fid = CTypeID.uint64) && sz = 8 then do
    let r ← s.heap.resolvePtr cd
    match ← fieldAt r.1 offset 8 (s.payload r.2).length with
    | some a => return (.obj ⟨.ofNat fid, window (s.payload r.2) a 8, none, 0⟩, t ++ [.read (.payload r.2 a) 8])
    | none => return (.num val.normalize, t)
  else .ok (.num val.normalize, t)

/-- Read a field. Anything that is no scalar is an alias, or a copy behind an address. -/
def readField (cd : ℕ) (isPtr : Bool) (fid offset : ℕ) : Except Fault (Val × List Touch) :=
  let fieldCt := s.cts.raw fid
  let sz := fieldCt.size
  if !ctypeIsScalar fieldCt.info then
    if isPtr then do
      let r ← s.derefObject cd fid offset sz
      return (.obj r.1, r.2)
    else do
      let r ← s.heap.resolvePtr cd
      let off ← addI64 r.1 offset
      return (.obj ⟨.ofNat fid, [], some r.2, off⟩, [])
  else do
    let r ← s.scalarField cd isPtr offset (ctypeIsFp fieldCt.info) sz
    s.wideField cd fid offset sz r.1 r.2

def isFuncPtrType (id : ℕ) : Bool := (s.toHost.funcCtypeOf id).isSome

/-- Read by a string key. -/
def indexField (cd : ℕ) (name : String) : Except FfiError (Val × List Touch) :=
  let raw := s.rawOf cd
  if s.isFuncPtrType (s.typeOf cd) && (name = "free" || name = "set") then .ok (.method name, [])
  else
    match s.cts.complexPart raw name with
    | some off => do
      let r ← lift (s.storedScalar cd off true (s.cts.raw (ctypeCid raw.info)).size)
      return ((r.1.map fun x => Val.num x.normalize).getD .nil, r.2)
    | none => do
      match ← lift (s.cts.fieldOffset (s.elemTypeId cd) name) with
      | none => throw (.runtime s!"no member '{name}' in cdata")
      | some (fid, offset) => lift (s.readField cd (ctypeIsPointer raw.info) fid offset)

def cdataIndex (cd : ℕ) (key : LuaValue) : Except FfiError (Val × List Touch) := do
  match ← lift (s.indexNumber key) with
  | some idx => lift (s.arrayElement cd idx)
  | none =>
    match key with
    | .str k => s.indexField cd (s.text k)
    | _ => return (.nil, [])

/-! ### Writing -/

/-- One part of a complex number converted into another one. -/
def complexPartBytes (src : List UInt8) (seSz deSz de : ℕ) (buf : List UInt8) (j : ℕ) : Except Fault (List UInt8) :=
  if j * seSz + seSz ≤ src.length ∧ j * deSz + deSz ≤ buf.length then do
    let v ← (if seSz = 8 then (slice src (j * seSz) 8).map f64OfLe
      else (slice src (j * seSz) 4).map fun b => .ofF32 (le 32 b) : Except Fault F64)
    return splice buf (j * deSz) (writeScalarValue (window buf (j * deSz) deSz) de v)
  else .ok buf

/-- One value of a table initializer. -/
def tableItem (eid esz : ℕ) (buf : List UInt8) (item : LuaValue × ℕ) : List UInt8 :=
  match item.1.asNumber with
  | some num =>
    if item.2 * esz + esz ≤ buf.length then
      splice buf (item.2 * esz) (writeScalarValue (.replicate esz 0) eid num)
    else buf
  | none => buf

/-- The bytes of a value as an element. -/
def elementBytes (elem elemSz : ℕ) (val : LuaValue) : Except Fault (List UInt8) :=
  let zeros : List UInt8 := .replicate elemSz 0
  let dst := s.cts.raw elem
  match val with
  | .cdata src =>
    if ctypeIsComplex (s.rawOf src).info && ctypeIsComplex dst.info then
      let seSz := (s.cts.raw (ctypeCid (s.rawOf src).info)).size
      let de := ctypeCid dst.info
      [0, 1].foldlM (complexPartBytes (s.payload src) seSz (s.cts.raw de).size de) zeros
    else .ok (splice zeros 0 ((s.payload src).take elemSz))
  | .tab t =>
    if ctypeIsComplex dst.info || ctypeIsArray dst.info then
      .ok ((s.seq t).zipIdx.foldl (tableItem (ctypeCid dst.info) (s.cts.raw (ctypeCid dst.info)).size) zeros)
    else .ok zeros
  | v => .ok (writeScalarValue zeros elem (v.asNumber.getD .zero))

/-- Write an element, if it fits. -/
def putElement (cd : ℕ) (idx : ℤ) (val : LuaValue) : Except Fault (List Touch) :=
  let elem := s.elemTypeId cd
  let elemSz := (s.cts.raw elem).size
  if elemSz = 0 then .ok []
  else do
    match ← s.cdataElemAddr cd idx elemSz with
    | none => return []
    | some p => return [.write p (← s.elementBytes elem elemSz val)]

/-- Write some bytes of a field to the storage of an object, if all `n` bytes of the field fit. -/
def putField (cd : ℕ) (offset : ℤ) (n : ℕ) (bs : List UInt8) : Except Fault (List Touch) := do
  let r ← s.heap.resolvePtr cd
  match ← fieldAt r.1 offset n (s.payload r.2).length with
  | some a => return [.write (.payload r.2 a) bs]
  | none => return []

/-- The bytes of a number as a scalar field. -/
def fieldBytes (fid : ℕ) (val : LuaValue) : List UInt8 :=
  writeScalarValue (.replicate (max (s.cts.raw fid).size 1) 0) fid (val.asNumber.getD .zero)

/-- A complex field takes its real part or a complex object. -/
def putComplexField (cd fid offset : ℕ) (val : LuaValue) : Except Fault (List Touch) :=
  let elem := ctypeCid (s.cts.raw fid).info
  let zeros : List UInt8 := .replicate ((s.cts.raw elem).size * 2) 0
  let buf :=
    match val with
    | .cdata src => splice zeros 0 ((s.payload src).take zeros.length)
    | .num n => writeScalarValue zeros elem n
    | _ => zeros
  s.putField cd offset buf.length buf

/-- Write a field that is not complex. `addr` is the storage address of an object that is written. -/
def writeField (cd fid offset : ℕ) (val : LuaValue) (addr : Option (BitVec 64)) : Except Fault (List Touch) :=
  let sz := (s.cts.raw fid).size
  match ctypeIsPtr (s.cts.raw fid).info, addr with
  | true, some pv =>
    if sz = 8 || sz = 4 then s.putField cd offset sz (toLE sz pv.toNat)
    else do
      let r ← s.heap.resolvePtr cd
      let _ ← addI64 r.1 offset
      return []
  | _, _ =>
    if ctypeIsPointer (s.rawOf cd).info then do
      let r ← s.storedAddr cd
      return if r.1 = 0 then r.2 else r.2 ++ [.write (.raw (r.1 + .ofNat 64 offset)) (s.fieldBytes fid val)]
    else
      match val with
      | .cdata src => s.putField cd offset sz ((s.payload src).take sz)
      | val => s.putField cd offset (max sz 1) (s.fieldBytes fid val)

/-- The storage address of a value that is an object. -/
def valueAddr (val : LuaValue) : Except Fault (Option (BitVec 64)) :=
  match val with
  | .cdata src => do
    let r ← s.heap.resolvePtr src
    return some (s.heap.dataPtr r.2 + .ofInt 64 r.1)
  | _ => .ok none

/-- Write by a string key. -/
def newindexField (cd : ℕ) (name : String) (val : LuaValue) : Except FfiError (List Touch) :=
  let target := s.cts.raw (s.elemTypeId cd)
  match s.cts.complexPart target name with
  | some off =>
    let elem := ctypeCid target.info
    let sz := (s.cts.raw elem).size
    lift (s.putField cd off sz (writeScalarValue (.replicate sz 0) elem (val.asNumber.getD .zero)))
  | none => do
    match ← lift (s.cts.fieldOffset (s.elemTypeId cd) name) with
    | none => throw (.runtime s!"ffi: no member '{name}' in cdata")
    | some (fid, offset) =>
      if ctypeIsComplex (s.cts.raw fid).info then lift (s.putComplexField cd fid offset val)
      else do
        let addr ← lift (s.valueAddr val)
        lift (s.writeField cd fid offset val addr)

def cdataNewindex (cd : ℕ) (key val : LuaValue) : Except FfiError (List Touch) := do
  match ← lift (s.indexNumber key) with
  | some idx => lift (s.putElement cd idx val)
  | none =>
    match key with
    | .str k => s.newindexField cd (s.text k) val
    | _ => throw (.runtime "ffi: non-string key in cdata assignment")

/-! ### Bulk functions -/

/-- `len as usize` of a length argument. -/
def lengthArg (len : LuaValue) : ℕ := (len.asNumber.getD .zero).asU64.toNat

/-- The touch of `n` bytes at a position, none when there are no bytes. -/
def readTouch (obj a n : ℕ) : List Touch := if n = 0 then [] else [.read (.payload obj a) n]
def writeTouch (obj a : ℕ) (bs : List UInt8) : List Touch := if bs = [] then [] else [.write (.payload obj a) bs]

/-- The index at which a run of bytes starts. -/
def clampStart (off : ℤ) : ℕ := (max off 0).toNat

/-- The string in an object: `len` bytes, or all up to the first zero, which is read too. -/
def ffiString (cd : LuaValue) (len : Option LuaValue) : Except FfiError (Val × List Touch) :=
  match cd with
  | .cdata cd => lift do
    let r ← s.heap.resolvePtr cd
    let data := s.payload r.2
    let start := clampStart r.1
    match len with
    | some len => do
      let n := min (lengthArg len) (data.length - start)
      let bs ← slice data start n
      return (.bytes bs, readTouch r.2 start n)
    | none => do
      let rest ← slice data start (data.length - start)
      let n := (rest.findIdx? (· = 0)).getD (data.length - start)
      let bs ← slice data start n
      return (.bytes bs, readTouch r.2 start (min (n + 1) (data.length - start)))
  | _ => .error (errBadArg 1 "ffi.string" "cdata")

/-- The bytes that a copy of `len` bytes takes from its source, for a destination with room for `room`. -/
def copySource (src : LuaValue) (len room : ℕ) : Except FfiError (List UInt8 × List Touch) :=
  match src with
  | .cdata sc => lift do
    let r ← s.heap.resolvePtr sc
    let start := clampStart r.1
    let n := min (min len room) ((s.payload r.2).length - start)
    let bs ← slice (s.payload r.2) start n
    return (bs, readTouch r.2 start n)
  | .str k =>
    let bytes := s.bytes k
    if len = 0 then
      let n := min bytes.length (room - 1)
      .ok (bytes.take n ++ (if n < room then [0] else []), [])
    else .ok (bytes.take (min len room), [])
  | _ => .error (errBadArg 2 "ffi.copy" "cdata/string")

def ffiCopy (dst src len : LuaValue) : Except FfiError (List Touch) :=
  match dst with
  | .cdata dst => do
    let r ← lift (s.heap.resolvePtr dst)
    let start := clampStart r.1
    let room := (s.payload r.2).length - start
    let bt ← s.copySource src (lengthArg len) room
    let n := min bt.1.length room
    let _ ← lift (slice (s.payload r.2) start n)
    return bt.2 ++ writeTouch r.2 start (bt.1.take n)
  | _ => .error (errBadArg 1 "ffi.copy" "cdata")

def ffiFill (dst len : LuaValue) (byte : Option LuaValue) : Except FfiError (List Touch) :=
  match dst with
  | .cdata dst => lift do
    let r ← s.heap.resolvePtr dst
    let start := clampStart r.1
    let n := min (lengthArg len) ((s.payload r.2).length - start)
    let _ ← slice (s.payload r.2) start n
    let b : UInt8 := ((byte.bind (·.asNumber)).map fun x => UInt8.ofNat x.asInt64.toNat).getD 0
    return writeTouch r.2 start (.replicate n b)
  | _ => .error (errBadArg 1 "ffi.fill" "cdata")

end FfiState

end LuajitRs.Ffi
