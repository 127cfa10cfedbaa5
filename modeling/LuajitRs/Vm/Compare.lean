import LuajitRs.Ffi.CType
import LuajitRs.Util.F64

/-! The ordered comparison of the interpreter: the lanes for numbers and C data, strings, and the metamethods behind
them. A comparison decides itself, calls a metamethod, or rejects its operands. -/
namespace LuajitRs.Vm.Compare
open Ffi Lib.Bytes

/-- The metamethods of a comparison. -/
inductive MM
  | lt | le | call
  deriving DecidableEq

/-- The comparison instructions; two are the negations of the others. -/
inductive CmpOp
  | islt | isge | isle | isgt
  deriving DecidableEq

/-- The condition of an instruction from `x < y` and `x <= y`. -/
def CmpOp.cond : CmpOp → Bool → Bool → Bool
  | islt, lt, _ => lt
  | isge, lt, _ => !lt
  | isle, _, le => le
  | isgt, _, le => !le

/-- What a comparison reads of the global state. -/
structure Globals where
  /-- The bytes of a string. -/
  str : ℕ → List UInt8
  tableMt : ℕ → Option ℕ
  userdataMt : ℕ → Option ℕ
  /-- The metatables of `ffi.metatype`, by type id. -/
  ctypeMts : ℕ → Option ℕ
  /-- The metatables of the other types, by the inverted tag. -/
  basemt : ℕ → Option ℕ
  /-- The field of a metatable under the name of a metamethod. -/
  getStr : ℕ → MM → LuaValue
  cts : Option CTState
  cdatas : CDataHeap
  /-- The address of a C data object. -/
  addr : ℕ → BitVec 64

def isFunc : LuaValue → Bool
  | .func _ => true
  | _ => false

def isTruthy : LuaValue → Bool
  | .nil | .bool false => false
  | _ => true

/-- The inverted tag of a value; numbers share one. -/
def typeIndex : LuaValue → ℕ
  | .nil => 0
  | .bool false => 1
  | .bool true => 2
  | .str _ => 4
  | .thread _ => 6
  | .func _ => 8
  | .cdata _ => 10
  | .tab _ => 11
  | .udata _ => 12
  | .num _ => 13

/-- The tags are equal, or both values are booleans. The tag of a number varies with its value. -/
def sameType : LuaValue → LuaValue → Bool
  | .num x, .num y => x.bits >>> 47 = y.bits >>> 47
  | .bool _, .bool _ => true
  | o1, o2 => typeIndex o1 = typeIndex o2

namespace Globals
variable (g : Globals)

/-! ### Metamethods -/

/-- The metatable of a value: its own before the one of its type. -/
def metatableOf : LuaValue → Option ℕ
  | .tab a => g.tableMt a
  | .udata a => (g.userdataMt a).or (g.basemt (typeIndex (.udata a)))
  | .cdata a => (g.ctypeMts (g.cdatas.get a).ctypeid.toNat).or (g.basemt (typeIndex (.cdata a)))
  | o => g.basemt (typeIndex o)

def metaLookup (o : LuaValue) (mm : MM) : LuaValue :=
  match g.metatableOf o with
  | some mt => g.getStr mt mm
  | none => .nil

def resolveCallableFrom : ℕ → LuaValue → Option LuaValue
  | 0, _ => none
  | n + 1, mo =>
    if isFunc mo then some mo
    else if mo.isNil then none
    else resolveCallableFrom n (g.metaLookup mo .call)

/-- The function behind a chain of at most four `__call` metamethods. -/
def resolveCallable (v : LuaValue) : Option LuaValue := g.resolveCallableFrom 4 (g.metaLookup v .call)

/-! ### The fast lanes -/

/-- A numeric C data object as a raw word. -/
def cdataU64 : LuaValue → Option (BitVec 64)
  | .cdata a =>
    let cd := g.cdatas.get a
    let numeric := g.cts.all fun cts => ctypeIsNum (cts.raw cd.ctypeid.toNat).info
    if numeric && cd.data.length ≤ 8 then some (.ofNat 64 (ofLE cd.data)) else none
  | _ => none

def cdataIsUll : LuaValue → Bool
  | .cdata a => (g.cdatas.get a).ctypeid.toNat = CTypeID.uint64
  | _ => false

/-- The storage of a pointer or an array: an object and an offset into it. -/
def cdataPtrAddr : LuaValue → Except Fault (Option (BitVec 64 × ℤ))
  | .cdata a =>
    match g.cts with
    | none => .ok none
    | some cts =>
      let raw := cts.raw (g.cdatas.get a).ctypeid.toNat
      if !ctypeIsArray raw.info && !ctypeIsPointer raw.info then .ok none
      else do
        let r ← g.cdatas.resolvePtr a
        pure (some (g.addr r.2, r.1))
  | _ => .ok none

def cmpU (op : CmpOp) (x y : BitVec 64) : Bool := op.cond (x.ult y) (x.ule y)

def cmpS (op : CmpOp) (x y : BitVec 64) : Bool := op.cond (x.slt y) (x.sle y)

/-- Two words; an unsigned one is compared with a signed one by the sign of the latter first. -/
def cmpWords (op : CmpOp) (xUll yUll : Bool) (x y : BitVec 64) : Bool :=
  if xUll = yUll then if xUll then cmpU op x y else cmpS op x y
  else if xUll then if y.slt 0 then op.cond false false else cmpU op x y
  else if x.slt 0 then op.cond true true else cmpU op x y

/-- A word and a number; every word is above and below a negative number if it is unsigned. -/
def cmpMixed (op : CmpOp) (ull : Bool) (n x y : BitVec 64) : Bool :=
  if ull then op.cond (n.slt 0 || x.ult y) (n.slt 0 || x.ule y) else cmpS op x y

/-- Root and offset in one word; the sign of the offset covers the root. -/
def ptrWord (p : BitVec 64 × ℤ) : BitVec 128 := (p.1.zeroExtend 128 <<< 64) ||| .ofInt 128 p.2

/-- A comparison that needs no metamethod. -/
def cmpFast (op : CmpOp) (xv yv : LuaValue) : Except Fault (Option Bool) :=
  match xv.asNumber, yv.asNumber with
  | some x, some y => .ok (some (op.cond (x.lt y) (x.le y)))
  | xn, yn =>
    match g.cdataU64 xv, g.cdataU64 yv with
    | some x, some y => .ok (some (cmpWords op (g.cdataIsUll xv) (g.cdataIsUll yv) x y))
    | some x, none => .ok (yn.map fun y => cmpMixed op (g.cdataIsUll xv) y.asInt64 x y.asInt64)
    | none, some y => .ok (xn.map fun x => cmpMixed op (g.cdataIsUll yv) x.asInt64 x.asInt64 y)
    | none, none => do
      let xa ← g.cdataPtrAddr xv
      let ya ← g.cdataPtrAddr yv
      match xa, ya with
      | some p, some q =>
        pure (some (op.cond ((ptrWord p).slt (ptrWord q)) ((ptrWord p).sle (ptrWord q))))
      | _, _ => pure none

/-! ### The slow path -/

/-- What the slow path does: it decides, it calls a metamethod for the condition or its negation, or it raises an
error. -/
inductive Comparison
  | cond (c : Bool)
  | call (mo : LuaValue) (args : List LuaValue) (negated : Bool)
  | incompatible
  deriving DecidableEq

/-- The metamethod of the first operand wins. -/
def compLookup (mm : MM) (o1 o2 : LuaValue) : LuaValue :=
  let mo := g.metaLookup o1 mm
  if mo.isNil then g.metaLookup o2 mm else mo

/-- A metamethod that is no function is called through its `__call`. -/
def compCall (negated : Bool) (mo o1 o2 : LuaValue) : Comparison :=
  if isFunc mo then .call mo [o1, o2] negated
  else
    match g.resolveCallable mo with
    | some mo2 => .call mo2 [mo, o1, o2] negated
    | none => .incompatible

/-- The round for `__lt`. -/
def compLt (negated : Bool) (o1 o2 : LuaValue) : Comparison :=
  let mo := g.compLookup .lt o1 o2
  if mo.isNil then .incompatible else g.compCall negated mo o1 o2

/-- The round for `__le`, which goes on to `not (o2 < o1)` without one. -/
def compLe (negated : Bool) (o1 o2 : LuaValue) : Comparison :=
  let mo := g.compLookup .le o1 o2
  if mo.isNil then g.compLt (!negated) o2 o1 else g.compCall negated mo o1 o2

def metaComp (o1 o2 : LuaValue) (op : CmpOp) : Comparison :=
  if sameType o1 o2 then
    match o1, o2 with
    | .str a, .str b => .cond (op.cond (g.str a < g.str b) (g.str a ≤ g.str b))
    | _, _ =>
      match op with
      | .islt => g.compLt false o1 o2
      | .isge => g.compLt true o1 o2
      | .isle => g.compLe false o1 o2
      | .isgt => g.compLe true o1 o2
  else .incompatible

end Globals

/-! ### The operator -/

/-- The interpreter around a comparison: what it reads in a world, the call of a function with its first result or
nil, and the errors. -/
structure Interp (ω ε : Type) where
  global : ω → Globals
  call : LuaValue → List LuaValue → ω → Except ε LuaValue × ω
  incompatible : ω → ε
  panic : Fault → ε

namespace Interp
variable {ω ε : Type} (m : Interp ω ε)

/-- Call a metamethod and take the truth of its result. -/
def callTruth (mo : LuaValue) (args : List LuaValue) (s : ω) : Except ε Bool × ω :=
  match m.call mo args s with
  | (.ok v, s') => (.ok (isTruthy v), s')
  | (.error e, s') => (.error e, s')

/-- The negation of an answer. -/
def negateIf (negated : Bool) : Except ε Bool × ω → Except ε Bool × ω
  | (.ok c, s) => (.ok (c ^^ negated), s)
  | (.error e, s) => (.error e, s)

def perform (s : ω) : Globals.Comparison → Except ε Bool × ω
  | .cond c => (.ok c, s)
  | .call mo args negated => negateIf negated (m.callTruth mo args s)
  | .incompatible => (.error (m.incompatible s), s)

/-- The condition of a comparison instruction on two values. -/
def compare (op : CmpOp) (s : ω) (q : LuaValue × LuaValue) : Except ε Bool × ω :=
  match (m.global s).cmpFast op q.1 q.2 with
  | .error f => (.error (m.panic f), s)
  | .ok (some c) => (.ok c, s)
  | .ok none => m.perform s ((m.global s).metaComp q.1 q.2 op)

/-- The operator `<`. -/
def lessThan : ω → LuaValue × LuaValue → Except ε Bool × ω := m.compare .islt

end Interp
end LuajitRs.Vm.Compare
