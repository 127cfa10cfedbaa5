import Mathlib.Algebra.Group.Nat.Defs
import Mathlib.Data.List.Basic
import Mathlib.Tactic.Common
import LuajitRs.Runtime.Value
import LuajitRs.Lib.Bytes
import LuajitRs.Util.F64

/-! The table of C types: packed info words, the predefined types of a 64-bit target, and the walk through
typedefs to the type that decides size and kind. -/
namespace LuajitRs.Ffi

/-- C type number: the top 4 bits of an info word. -/
inductive CT
  | num | struct | ptr | array | void | enum | func | typedef | attrib
  | field | bitfield | constval | external | kw
  deriving DecidableEq, Repr

def CT.code : CT → ℕ
  | num => 0 | struct => 1 | ptr => 2 | array => 3 | void => 4 | enum => 5 | func => 6 | typedef => 7
  | attrib => 8 | field => 9 | bitfield => 10 | constval => 11 | external => 12 | kw => 13

abbrev CTInfo := BitVec 32

/-! ### Info words -/

namespace CTInfo
def BOOL : CTInfo := 0x08000000
def FP : CTInfo := 0x04000000
def CONST : CTInfo := 0x02000000
def VOLATILE : CTInfo := 0x01000000
def UNSIGNED : CTInfo := 0x00800000
def LONG : CTInfo := 0x00400000
def VLA : CTInfo := 0x00100000
def VECTOR : CTInfo := 0x08000000
def COMPLEX : CTInfo := 0x04000000
def UNION : CTInfo := 0x00800000
def MASK_CID : CTInfo := 0x0000ffff
def MASK_NUM : CTInfo := 0xf0000000
def ALIGN1 : CTInfo := 0x00010000
def ALIGN2 : CTInfo := 0x00020000
def ALIGN3 : CTInfo := 0x00030000
def ALIGN4 : CTInfo := 0x00040000
def ATTR_BAD : CTInfo := 0x00050000
end CTInfo
open CTInfo

def ctInfo (ct : CT) (flags : CTInfo) : CTInfo := (BitVec.ofNat 32 ct.code <<< 28) ||| flags

/-- The two codes past the last type number do not occur. -/
def ctypeType (info : CTInfo) : CT :=
  match (info >>> 28).toNat with
  | 0 => .num
  | 1 => .struct
  | 2 => .ptr
  | 3 => .array
  | 4 => .void
  | 5 => .enum
  | 6 => .func
  | 7 => .typedef
  | 8 => .attrib
  | 9 => .field
  | 10 => .bitfield
  | 11 => .constval
  | 12 => .external
  | _ => .kw

def ctypeCid (info : CTInfo) : ℕ := (info &&& MASK_CID).toNat

def ctypeIsNum (info : CTInfo) : Bool := ctypeType info = .num
def ctypeIsPtr (info : CTInfo) : Bool := ctypeType info = .ptr
def ctypeIsArray (info : CTInfo) : Bool := ctypeType info = .array
def ctypeIsStruct (info : CTInfo) : Bool := ctypeType info = .struct
def ctypeIsFunc (info : CTInfo) : Bool := ctypeType info = .func
def ctypeIsTypedef (info : CTInfo) : Bool := ctypeType info = .typedef
def ctypeIsAttrib (info : CTInfo) : Bool := ctypeType info = .attrib

def ctypeIsFp (info : CTInfo) : Bool := info &&& (MASK_NUM ||| FP) = ctInfo .num FP
/-- Pointers and arrays. -/
def ctypeIsPointer (info : CTInfo) : Bool := ctypeIsPtr info || ctypeIsArray info
def ctypeIsVector (info : CTInfo) : Bool := info &&& (MASK_NUM ||| VECTOR) = ctInfo .array VECTOR
def ctypeIsComplex (info : CTInfo) : Bool := info &&& (MASK_NUM ||| COMPLEX) = ctInfo .array COMPLEX

/-! ### The table -/

/-- A single entry. The size `u32::MAX` stands for an unknown one; in a field the size is its offset. -/
structure CType where
  info : CTInfo
  size : ℕ
  /-- The next field of a struct or the next parameter of a function, zero at the end. -/
  sib : ℕ
  deriving DecidableEq, Repr

def unknownSize : ℕ := 2^32 - 1

namespace CTypeID
def none : ℕ := 0
def void : ℕ := 1
def cvoid : ℕ := 2
def bool : ℕ := 3
def cchar : ℕ := 4
def int8 : ℕ := 5
def uint8 : ℕ := 6
def int16 : ℕ := 7
def uint16 : ℕ := 8
def int32 : ℕ := 9
def uint32 : ℕ := 10
def int64 : ℕ := 11
def uint64 : ℕ := 12
def int128 : ℕ := 13
def uint128 : ℕ := 14
def float : ℕ := 15
def double : ℕ := 16
def complexFloat : ℕ := 17
def complexDouble : ℕ := 18
def pvoid : ℕ := 19
end CTypeID

/-- The types that are there from the start, in the order of their ids. -/
def predefined : List CType :=
  [ ⟨ctInfo .attrib ATTR_BAD, 0, 0⟩,
    ⟨ctInfo .void 0, unknownSize, 0⟩,
    ⟨ctInfo .void CONST, unknownSize, 0⟩,
    ⟨ctInfo .num (BOOL ||| UNSIGNED), 1, 0⟩,
    ⟨ctInfo .num CONST, 1, 0⟩,
    ⟨ctInfo .num 0, 1, 0⟩,
    ⟨ctInfo .num UNSIGNED, 1, 0⟩,
    ⟨ctInfo .num ALIGN1, 2, 0⟩,
    ⟨ctInfo .num (UNSIGNED ||| ALIGN1), 2, 0⟩,
    ⟨ctInfo .num ALIGN2, 4, 0⟩,
    ⟨ctInfo .num (UNSIGNED ||| ALIGN2), 4, 0⟩,
    ⟨ctInfo .num (LONG ||| ALIGN3), 8, 0⟩,
    ⟨ctInfo .num (UNSIGNED ||| LONG ||| ALIGN3), 8, 0⟩,
    ⟨ctInfo .num ALIGN4, 16, 0⟩,
    ⟨ctInfo .num (UNSIGNED ||| ALIGN4), 16, 0⟩,
    ⟨ctInfo .num (FP ||| ALIGN2), 4, 0⟩,
    ⟨ctInfo .num (FP ||| ALIGN3), 8, 0⟩,
    ⟨ctInfo .array (COMPLEX ||| ALIGN2) ||| 15, 8, 0⟩,
    ⟨ctInfo .array (COMPLEX ||| ALIGN3) ||| 16, 16, 0⟩,
    ⟨ctInfo .ptr ALIGN3 ||| 1, 8, 0⟩,
    ⟨ctInfo .ptr ALIGN3 ||| 2, 8, 0⟩,
    ⟨ctInfo .ptr ALIGN3 ||| 4, 8, 0⟩,
    ⟨ctInfo .ptr ALIGN3 ||| 6, 8, 0⟩,
    ⟨ctInfo .array CONST ||| 4, unknownSize, 0⟩,
    ⟨ctInfo .enum ALIGN2 ||| 9, 4, 0⟩,
    ⟨ctInfo .ptr ALIGN3 ||| 1, 8, 0⟩ ]

/-- C type system state, as far as types are looked up in it: the entries by id, the names of typedefs and
functions, and the type and offset of each named field. -/
structure CTState where
  tab : List CType
  names : List (String × ℕ)
  tags : List (String × ℕ)
  fieldNames : List ((ℕ × String) × (ℕ × ℕ))
  deriving DecidableEq, Repr

namespace CTState
variable (cts : CTState)

def new : CTState := ⟨predefined, [], [], []⟩

/-- The entry of an id; every id that the library hands out has one. -/
def get (id : ℕ) : CType := cts.tab.getD id ⟨ctInfo .attrib ATTR_BAD, 0, 0⟩

/-- One typedef after the other, at most `fuel` of them. -/
def resolveFrom : ℕ → ℕ → ℕ
  | 0, id => id
  | fuel + 1, id =>
    if ctypeIsAttrib (cts.get id).info || ctypeIsTypedef (cts.get id).info then
      resolveFrom fuel (ctypeCid (cts.get id).info)
    else id

/-- The id behind a chain of typedefs. A typedef stands after the type that it names, so its own id bounds the
length of the chain. -/
def resolveRawId (id : ℕ) : ℕ := cts.resolveFrom id id

def raw (id : ℕ) : CType := cts.get (cts.resolveRawId id)

end CTState

end LuajitRs.Ffi

/-! C data objects: payload bytes, and aliases that refer to the payload of another object. -/
namespace LuajitRs
open Lib.Bytes

/-- A C data object. An alias refers to its storage object by address. -/
structure CData where
  ctypeid : UInt32
  data : List UInt8
  base : Option ℕ
  offset : ℤ
  deriving DecidableEq, Repr

/-- `x + y` on `i64`. -/
def addI64 (x y : ℤ) : Except Fault ℤ := if -2^63 ≤ x + y ∧ x + y < 2^63 then .ok (x + y) else .error .overflow

/-- Read a pointer from offset 0. -/
def CData.getPtr (c : CData) : BitVec 64 := .ofNat 64 (ofLE (c.data.take 8))

/-- The objects in the order of their allocation, and where the payload of each lies in memory. An alias is
made after the object that it refers to. -/
structure CDataHeap where
  objs : List CData
  dataPtr : ℕ → BitVec 64
  base_lt : ∀ (a : ℕ) (c : CData) (b : ℕ), objs[a]? = some c → c.base = some b → b < a

namespace CDataHeap

theorem base_lt_nil (a : ℕ) (c : CData) (b : ℕ) (h : ([] : List CData)[a]? = some c) (_ : c.base = some b) : b < a := by
  simp at h

variable (h : CDataHeap)

def get (a : ℕ) : CData := h.objs.getD a ⟨0, [], none, 0⟩

/-- One alias after the other, at most `fuel` of them. -/
def resolveFrom : ℕ → ℤ → ℕ → Except Fault (ℤ × ℕ)
  | 0, off, a => .ok (off, a)
  | fuel + 1, off, a =>
    match (h.get a).base with
    | some b => do
      let off ← addI64 off (h.get a).offset
      resolveFrom fuel off b
    | none => .ok (off, a)

/-- The storage that an object refers to and the offset into it. Every alias comes after its base, so the position
of the object bounds the length of the chain. -/
def resolvePtr (a : ℕ) : Except Fault (ℤ × ℕ) := h.resolveFrom a 0 a

end CDataHeap

end LuajitRs

/-! Numbers in and out of payload bytes. A write goes by the type id, a read by the type id or only by the size. -/
namespace LuajitRs.Ffi
open Lib.Bytes

/-- The bytes `[a, a + n)` of a slice. -/
def slice (d : List UInt8) (a n : ℕ) : Except Fault (List UInt8) :=
  if a + n ≤ d.length then .ok (window d a n) else .error .outOfBounds

/-- The little-endian number in some bytes, as a word. -/
def le (w : ℕ) (bs : List UInt8) : BitVec w := .ofNat w (ofLE bs)

def f64OfLe (bs : List UInt8) : F64 := ⟨UInt64.ofBitVec (le 64 bs)⟩

/-! ### Writing -/

/-- The bytes of a number as a scalar of the given type. Any other id than that of a predefined type is written as
a 32-bit integer. -/
def scalarBytes (ctypeid : ℕ) (n : F64) : List UInt8 :=
  let i := n.asInt64.toNat
  let u := n.asU64.toNat
  if ctypeid = CTypeID.int8 then toLE 1 i
  else if ctypeid = CTypeID.uint8 then toLE 1 u
  else if ctypeid = CTypeID.cchar then toLE 1 i
  else if ctypeid = CTypeID.bool then toLE 1 u
  else if ctypeid = CTypeID.int16 then toLE 2 i
  else if ctypeid = CTypeID.uint16 then toLE 2 u
  else if ctypeid = CTypeID.int32 then toLE 4 i
  else if ctypeid = CTypeID.uint32 then toLE 4 u
  else if ctypeid = CTypeID.int64 then toLE 8 i
  else if ctypeid = CTypeID.uint64 then toLE 8 u
  else if ctypeid = CTypeID.float then toLE 4 n.asF32.toNat
  else if ctypeid = CTypeID.double then toLE 8 n.bits.toNat
  else toLE 4 i

/-- Write a numeric scalar into a byte buffer for the given type, if it fits. -/
def writeScalarValue (data : List UInt8) (ctypeid : ℕ) (n : F64) : List UInt8 :=
  if (scalarBytes ctypeid n).length ≤ data.length then splice data 0 (scalarBytes ctypeid n) else data

/-! ### Reading -/

/-- The first byte, zero when there is none. -/
def firstByte (d : List UInt8) : BitVec 8 := le 8 (d.take 1)

/-- The number in a numeric object, by the type id, and for other types by the payload size. -/
def cdataToNumber (c : CData) : Except Fault (Option F64) :=
  let id := c.ctypeid.toNat
  let d := c.data
  if id = CTypeID.int8 then .ok (some (.ofInt (firstByte d).toInt))
  else if id = CTypeID.uint8 then .ok (some (.ofInt (firstByte d).toNat))
  else if id = CTypeID.cchar then .ok (some (.ofInt (firstByte d).toInt))
  else if id = CTypeID.bool then .ok (some (if firstByte d ≠ 0 then .ofInt 1 else .zero))
  else if id = CTypeID.int16 then do return some (.ofInt (le 16 (← slice d 0 2)).toInt)
  else if id = CTypeID.uint16 then do return some (.ofInt (le 16 (← slice d 0 2)).toNat)
  else if id = CTypeID.int32 then do return some (.ofInt (le 32 (← slice d 0 4)).toInt)
  else if id = CTypeID.uint32 then do return some (.ofInt (le 32 (← slice d 0 4)).toNat)
  else if id = CTypeID.int64 then .ok (if 8 ≤ d.length then some (.ofInt64 (le 64 (window d 0 8))) else none)
  else if id = CTypeID.uint64 then .ok (if 8 ≤ d.length then some (.ofNat (le 64 (window d 0 8)).toNat) else none)
  else if id = CTypeID.float then do return some (.ofF32 (le 32 (← slice d 0 4)))
  else if id = CTypeID.double then do return some (f64OfLe (← slice d 0 8))
  else if d.length = 1 then .ok (some (.ofInt (firstByte d).toInt))
  else if d.length = 2 then .ok (some (.ofInt (le 16 d).toInt))
  else if d.length = 4 then .ok (some (.ofInt (le 32 d).toInt))
  else if d.length = 8 then .ok (some (.ofInt64 (le 64 d)))
  else .ok none

/-- Read a number of a given size at an offset. -/
def readFieldFromSlice (data : List UInt8) (offset sz : ℕ) : Except Fault F64 :=
  if sz = 1 then do return .ofInt (le 8 (← slice data offset 1)).toInt
  else if sz = 2 then do return .ofInt (le 16 (← slice data offset 2)).toInt
  else if sz = 4 then do return .ofInt (le 32 (← slice data offset 4)).toInt
  else if sz = 8 then do return .ofInt64 (le 64 (← slice data offset 8))
  else .ok .zero

/-! ### What is written -/

theorem length_writeScalarValue (data : List UInt8) (id : ℕ) (n : F64) :
    (writeScalarValue data id n).length = data.length := by
  rw [writeScalarValue]
  split
  · next h => exact length_splice (by omega)
  · rfl

end LuajitRs.Ffi
