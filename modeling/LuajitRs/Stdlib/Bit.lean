import LuajitRs.Ffi.CType
import LuajitRs.Jit.Ir

/-! The bit library: 32-bit mode for numbers, and 64-bit mode as soon as C data takes part. -/
namespace LuajitRs.BitLib
open Ffi Lib.Bytes

/-- How a call fails: a panic, or an error about an argument. -/
inductive Stop
  | fault (f : Fault)
  | badArg (e : BadArg)
  deriving DecidableEq

/-- What a call returns: a number, or a new object. -/
inductive Ret
  | num (x : F64)
  | cdata (c : CData)
  deriving DecidableEq

section
variable (h : CDataHeap)

def arg (args : List LuaValue) (i : ℕ) : LuaValue := args.getD i .nil

def isWide (c : CData) : Bool := c.ctypeid.toNat = CTypeID.int64 ∨ c.ctypeid.toNat = CTypeID.uint64

def asCdata : LuaValue → Option CData
  | .cdata a => some (h.get a)
  | _ => none

def is64bit (v : LuaValue) : Bool := (asCdata h v).any isWide
def isUll (v : LuaValue) : Bool := (asCdata h v).any fun c => c.ctypeid.toNat = CTypeID.uint64

/-- The bits of an argument: of a number by `wrap`, of a 64-bit object by `wide`, of another numeric object by its
number. -/
def bits {w : ℕ} (wrap : BitVec 32 → BitVec w) (wide : BitVec 64 → BitVec w) (args : List LuaValue) (i : ℕ)
    (name : String) : Except Stop (BitVec w) :=
  let bad : Except Stop (BitVec w) := .error (.badArg ⟨i + 1, name, "number", ""⟩)
  match arg args i with
  | .num n => .ok (wrap n.num2bit)
  | .cdata a =>
    let c := h.get a
    if isWide c && 8 ≤ c.data.length then .ok (wide (.ofNat 64 (ofLE (c.data.take 8))))
    else
      match cdataToNumber c with
      | .ok (some n) => .ok (wrap n.num2bit)
      | .ok none => bad
      | .error f => .error (.fault f)
  | _ => bad

def bitarg := bits h id (BitVec.setWidth 32)
def bitarg64 := bits h (BitVec.signExtend 64) id

def ret (v : BitVec 32) : Ret := .num (.ofInt32 v)

/-- A numeric object of the given type with the low bytes of `v`. -/
def retCdata (v : BitVec 64) (ctypeid : ℕ) : Ret :=
  let size :=
    if ctypeid = CTypeID.int8 ∨ ctypeid = CTypeID.uint8 then 1
    else if ctypeid = CTypeID.int16 ∨ ctypeid = CTypeID.uint16 then 2
    else if ctypeid = CTypeID.int32 ∨ ctypeid = CTypeID.uint32 then 4
    else 8
  .cdata ⟨.ofNat ctypeid, toLE size v.toNat, none, 0⟩

def ret64 (v : BitVec 64) (ull : Bool) : Ret := retCdata v (if ull then CTypeID.uint64 else CTypeID.int64)

/-- The result type of a fold: `uint64` if an object has it, else the type of the first object. -/
def foldType (args : List LuaValue) : ℕ :=
  let ids := args.filterMap fun v => (asCdata h v).map fun c => c.ctypeid.toNat
  if CTypeID.uint64 ∈ ids then CTypeID.uint64
  else if ids.headD 0 ≠ 0 then ids.headD 0 else CTypeID.int64

def tobit (args : List LuaValue) : Except Stop Ret := return ret (← bitarg h args 0 "bit.tobit")

/-- `bit_fold!`, with the operator on words of either width. -/
def bitFold (name : String) (op : {w : ℕ} → BitVec w → BitVec w → BitVec w) (args : List LuaValue) : Except Stop Ret :=
  let rest := (List.range args.length).drop 1
  if args.any fun v => (asCdata h v).isSome then do
    let acc ← bitarg64 h args 0 name
    let acc ← rest.foldlM (fun acc i => return op acc (← bitarg64 h args i name)) acc
    return retCdata acc (foldType h args)
  else do
    let acc ← bitarg h args 0 name
    let acc ← rest.foldlM (fun acc i => return op acc (← bitarg h args i name)) acc
    return ret acc

def band := bitFold h "bit.band" (· &&& ·)
def bor := bitFold h "bit.bor" (· ||| ·)
def bxor := bitFold h "bit.bxor" (· ^^^ ·)

/-- The functions of one argument, in both modes. -/
def bitUnary (name : String) (op32 : BitVec 32 → BitVec 32) (op64 : BitVec 64 → BitVec 64) (args : List LuaValue) :
    Except Stop Ret :=
  let v := arg args 0
  if is64bit h v then return ret64 (op64 (← bitarg64 h args 0 name)) (isUll h v)
  else return ret (op32 (← bitarg h args 0 name))

/-- `u64::swap_bytes`. -/
def swapBytes64 (x : BitVec 64) : BitVec 64 :=
  (Ir.swapBytes (x.setWidth 32)) ++ (Ir.swapBytes (x.extractLsb' 32 32))

def bnot := bitUnary h "bit.bnot" (~~~ ·) (~~~ ·)
def bswap := bitUnary h "bit.bswap" Ir.swapBytes swapBytes64

/-- `bit_shift!`, with the shift of words of either width; the count is taken modulo the width. -/
def bitShift (name : String) (op : {w : ℕ} → BitVec w → ℕ → BitVec w) (args : List LuaValue) : Except Stop Ret :=
  let a := arg args 0
  let b := arg args 1
  if is64bit h a || is64bit h b then do
    let x ← bitarg64 h args 0 name
    let n ← bitarg64 h args 1 name
    return ret64 (op x (n.toNat % 64)) (isUll h a || isUll h b)
  else do
    let x ← bitarg h args 0 name
    let n ← bitarg h args 1 name
    return ret (op x (n.toNat % 32))

def lshift := bitShift h "bit.lshift" (· <<< ·)
def rshift := bitShift h "bit.rshift" (· >>> ·)
def arshift := bitShift h "bit.arshift" BitVec.sshiftRight
def rol := bitShift h "bit.rol" BitVec.rotateLeft
def ror := bitShift h "bit.ror" BitVec.rotateRight

end

/-! ### Two numbers -/

section
variable {h : CDataHeap} (x y : F64)

theorem bitFold_num (name : String) (op : {w : ℕ} → BitVec w → BitVec w → BitVec w) :
    bitFold h name op [.num x, .num y] = .ok (ret (op x.num2bit y.num2bit)) := rfl

theorem bitUnary_num (name : String) (op32 : BitVec 32 → BitVec 32) (op64 : BitVec 64 → BitVec 64) :
    bitUnary h name op32 op64 [.num x] = .ok (ret (op32 x.num2bit)) := rfl

theorem bitShift_num (name : String) (op : {w : ℕ} → BitVec w → ℕ → BitVec w) :
    bitShift h name op [.num x, .num y] = .ok (ret (op x.num2bit (y.num2bit.toNat % 32))) := rfl

end

end LuajitRs.BitLib
