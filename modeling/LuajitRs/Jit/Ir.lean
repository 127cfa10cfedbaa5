import Mathlib.Logic.Function.Basic
import LuajitRs.Runtime.Value
import LuajitRs.Util.F64

/-! The SSA intermediate representation of a trace: instructions grow up from `REF_BIAS`, constants grow
down below it, and the instructions of one opcode are linked into a chain for common subexpressions. -/
namespace LuajitRs.Ir

/-- IR opcodes, in the order of the instruction table. -/
inductive IROp
  | lt | ge | le | gt | ult | uge | ule | ugt | eq | ne | abc | retf
  | nop | base | pval | gcstep | hiop | loop | use | phi | rename | prof
  | kpri | kint | kgc | kptr | kkptr | knull | knum | kint64 | kslot
  | bnot | bswap | band | bor | bxor | bshl | bshr | bsar | brol | bror
  | add | sub | mul | div | mod | pow | neg | abs | ldexp | min | max | fpmath
  | addov | subov | mulov
  | aref | hrefk | href | newref | urefo | urefc | fref | tmpref | strref | lref
  | aload | hload | uload | fload | xload | sload | vload | alen
  | astore | hstore | ustore | fstore | xstore
  | snew | xsnew | tnew | tdup | cnew | cnewi
  | bufhdr | bufput | bufstr
  | tbar | obar | xbar
  | conv | tobit | tostr | strto
  | calln | calla | calll | calls | callxs | carg
  deriving DecidableEq, Repr

/-- The kind bits of an operation: no effect, allocation, load, or store. -/
inductive IRKind
  | n | a | l | s
  deriving DecidableEq, Repr

namespace IROp

/-- `irm_kind(IR_MODE[op])`. -/
def kind : IROp → IRKind
  | retf | gcstep | hiop | loop | use | phi | rename | prof | newref | tmpref | astore | hstore
  | ustore | fstore | xstore | tbar | obar | xbar | calls | callxs => .s
  | href | urefo | urefc | lref | aload | hload | uload | fload | xload | sload | vload | alen
  | bufhdr | bufput | calll => .l
  | xsnew | tnew | tdup | cnew | bufstr | calla => .a
  | _ => .n

/-- The guarded comparisons. -/
def isComp (o : IROp) : Bool :=
  o = lt || o = ge || o = le || o = gt || o = ult || o = uge || o = ule || o = ugt || o = eq || o = ne

/-- The constants that live below `REF_BIAS`. -/
def isConst (o : IROp) : Bool := o = kpri || o = kint || o = kgc || o = knum || o = kint64

end IROp

/-- Base types of IR values. -/
inductive IRTy
  | nil | false | true | lightud | str | p32 | thread | proto | func | p64 | cdata | tab | udata
  | float | num | i8 | u8 | i16 | u16 | int | u32 | i64 | u64 | softfp
  deriving DecidableEq, Repr

/-- The type byte: a base type with the mark, PHI and guard flags. -/
structure IRType where
  ty : IRTy
  mark : Bool
  isphi : Bool
  guard : Bool
  deriving DecidableEq, Repr

abbrev REF_BIAS : ℕ := 0x8000
abbrev REF_TRUE : ℕ := REF_BIAS - 3
abbrev REF_FALSE : ℕ := REF_BIAS - 2
abbrev REF_NIL : ℕ := REF_BIAS - 1
abbrev REF_BASE : ℕ := REF_BIAS
abbrev REF_FIRST : ℕ := REF_BIAS + 1

/-- An instruction; `prev` links the instructions of its opcode. -/
structure IRIns where
  op : IROp
  t : IRType
  op1 : ℕ
  op2 : ℕ
  prev : ℕ
  deriving DecidableEq, Repr

/-- An unflagged type, `irt(o, t)`. -/
def plain (t : IRTy) : IRType := ⟨t, false, false, false⟩
/-- A guarded type, `irtg(o, t)`. -/
def guarded (t : IRTy) : IRType := ⟨t, false, false, true⟩

namespace IRIns

def new (op : IROp) (t : IRType) (op1 op2 : ℕ) : IRIns := ⟨op, t, op1, op2, 0⟩

/-- The payload of a `KINT`: a 32-bit integer in the two operands. -/
def i (ins : IRIns) : BitVec 32 := .ofNat 32 (ins.op1 + ins.op2 * 2^16)
def setI (ins : IRIns) (k : BitVec 32) : IRIns :=
  { ins with op1 := k.toNat % 2^16, op2 := k.toNat / 2^16 }

def isGuard (ins : IRIns) : Bool := ins.t.guard
def isMarked (ins : IRIns) : Bool := ins.t.mark
def setMark (ins : IRIns) : IRIns := { ins with t := { ins.t with mark := true } }
def clearMark (ins : IRIns) : IRIns := { ins with t := { ins.t with mark := false } }

/-- Replace with NOP. -/
def setNop (_ : IRIns) : IRIns := .new .nop (plain .nil) 0 0

@[simp] theorem i_setI (ins : IRIns) (k : BitVec 32) : (ins.setI k).i = k := by
  have h : k.toNat % 2^16 + k.toNat / 2^16 * 2^16 = k.toNat := by omega
  simp only [i, setI, h, BitVec.ofNat_toNat, BitVec.setWidth_eq]

end IRIns

/-- The growing IR of one trace with the chain of each opcode, 0 for an empty one. -/
structure IrBuf where
  /-- Instructions; the first is the base instruction. -/
  ins : List IRIns
  /-- Constants, from nil downwards. -/
  k : List IRIns
  /-- The 64-bit payloads of the constants. -/
  k64 : List LuaValue
  chain : IROp → ℕ
  guardemit : Bool

namespace IrBuf

/-- Nil, false and true at their fixed references, and the base instruction. -/
def new (parent exitno : ℕ) : IrBuf where
  ins := [.new .base (plain .p64) parent exitno]
  k := [.new .kpri (plain .nil) 0 0, .new .kpri (plain .false) 0 0, .new .kpri (plain .true) 0 0]
  k64 := [.num .zero, .num .zero, .num .zero]
  chain _ := 0
  guardemit := false

variable (buf : IrBuf)

/-- Next instruction reference. -/
def nins : ℕ := REF_BIAS + buf.ins.length
/-- Lowest constant reference. -/
def nk : ℕ := REF_BIAS - buf.k.length

/-- The instruction or constant at `r`; an index outside the buffer panics. -/
def ir (r : ℕ) : Option IRIns :=
  if REF_BIAS ≤ r then buf.ins[r - REF_BIAS]? else buf.k[REF_BIAS - 1 - r]?

/-- The payload of a constant. -/
def k64Val (r : ℕ) : Option LuaValue := buf.k64[REF_BIAS - 1 - r]?

/-- Writing the instruction at `r`. -/
def modify (r : ℕ) (f : IRIns → IRIns) : IrBuf := { buf with ins := buf.ins.modify (r - REF_BIAS) f }

def pushK (ins : IRIns) (payload : LuaValue) : IrBuf × ℕ :=
  let r := REF_BIAS - (buf.k.length + 1)
  ({ buf with
      k := buf.k ++ [{ ins with prev := buf.chain ins.op }], k64 := buf.k64 ++ [payload],
      chain := Function.update buf.chain ins.op r }, r)

/-- The first reference of a chain of constants that satisfies `p`. -/
def findK (p : ℕ → Bool) : ℕ → ℕ → Option ℕ
  | 0, _ => none
  | fuel+1, r =>
    if r = 0 then none
    else if p r then some r
    else match buf.ir r with
      | some ins => findK p fuel ins.prev
      | none => none

/-- Intern an `i32` constant. -/
def kint (kv : BitVec 32) : IrBuf × ℕ :=
  match buf.findK (fun r => (buf.ir r).any fun ins => ins.i = kv) buf.k.length (buf.chain .kint) with
  | some r => (buf, r)
  | none => buf.pushK ((IRIns.new .kint (plain .int) 0 0).setI kv) (.num .zero)

/-- Intern a number by its bit pattern. -/
def knum (x : F64) : IrBuf × ℕ :=
  match buf.findK (fun r => buf.k64Val r = some (.num x)) buf.k.length (buf.chain .knum) with
  | some r => (buf, r)
  | none => buf.pushK (.new .knum (plain .num) 0 0) (.num x)

/-- Append without any optimisation, link the chain and record an emitted guard. -/
def emitIns (fins : IRIns) : IrBuf × ℕ :=
  ({ buf with
      ins := buf.ins ++ [{ fins with prev := buf.chain fins.op }],
      chain := Function.update buf.chain fins.op buf.nins,
      guardemit := buf.guardemit || fins.t.guard }, buf.nins)

/-- The NaN-boxed value of a constant reference; any other reference panics. -/
def constBits (r : ℕ) : Option LuaValue := do
  let ins ← if REF_BIAS ≤ r then none else buf.ir r
  match ins.op with
  | .knum | .kgc | .kint64 => buf.k64Val r
  | .kpri => match ins.t.ty with
    | .nil => some .nil
    | .false => some (.bool false)
    | _ => some (.bool true)
  | .kint => some (.num (.ofInt ins.i.toInt))
  | _ => none

/-- The constants of a buffer are all that its constant references depend on. -/
theorem constBits_congr (b b' : IrBuf) (hk : b'.k = b.k) (h64 : b'.k64 = b.k64) (r : ℕ) :
    b'.constBits r = b.constBits r := by
  by_cases h : REF_BIAS ≤ r
  · simp only [constBits, if_pos h]
    rfl
  · simp only [constBits, if_neg h, ir, k64Val, hk, h64]

section Modify
variable (r q : ℕ) (f : IRIns → IRIns)

@[simp] theorem k_modify : (buf.modify r f).k = buf.k := by cases buf; rfl
@[simp] theorem k64_modify : (buf.modify r f).k64 = buf.k64 := by cases buf; rfl
@[simp] theorem chain_modify : (buf.modify r f).chain = buf.chain := by cases buf; rfl
@[simp] theorem ins_modify : (buf.modify r f).ins = buf.ins.modify (r - REF_BIAS) f := by simp only [modify]

@[simp] theorem nins_modify : (buf.modify r f).nins = buf.nins := by
  rw [nins, nins, ins_modify, List.length_modify]

theorem constBits_modify : (buf.modify r f).constBits q = buf.constBits q :=
  constBits_congr buf (buf.modify r f) (k_modify buf r f) (k64_modify buf r f) q

theorem ir_modify (h : REF_BIAS ≤ r) :
    (buf.modify r f).ir q = if q = r then (buf.ir q).map f else buf.ir q := by
  rw [ir, ir, ins_modify, k_modify]
  by_cases hq : REF_BIAS ≤ q
  · rw [if_pos hq, if_pos hq, List.getElem?_modify]
    by_cases hqr : q = r
    · subst hqr
      simp
    · have hne : r - REF_BIAS ≠ q - REF_BIAS := by omega
      simp [hqr, hne]
  · have hqr : q ≠ r := by omega
    rw [if_neg hq, if_neg hq, if_neg hqr]

end Modify

/-- The operands of an instruction that are references to other instructions. -/
def Below (r : ℕ) (ins : IRIns) : Prop := ins.op1 < r ∧ ins.op2 < r

instance (r : ℕ) (ins : IRIns) : Decidable (Below r ins) := inferInstanceAs (Decidable (_ ∧ _))

/-- Strict SSA form: every operand of an instruction lies below it, and below the bias are constants. -/
structure SSA : Prop where
  below : ∀ i (h : i < buf.ins.length), Below (REF_BIAS + i) (buf.ins.get ⟨i, h⟩)
  consts : ∀ ins ∈ buf.k, ins.op.isConst = true

end IrBuf
end LuajitRs.Ir

/-! The arithmetic that constant folding and the trace executor share: on doubles, on 32-bit integers
with wrap-around, and the comparisons with their unordered variants. -/
namespace LuajitRs.Ir

/-- `fold_numarith`; `pow` is the power function of the interpreter. -/
def foldNumarith (pow : F64 → F64 → F64) (x y : F64) : IROp → F64
  | .add => x.add y
  | .sub => x.sub y
  | .mul => x.mul y
  | .div => x.div y
  | .mod => x.sub ((x.div y).floor.mul y)
  | .pow => pow x y
  | .neg => x.neg
  | .abs => x.abs
  | .min => if x.lt y then x else y
  | .max => if y.lt x then x else y
  | _ => x

/-- `fold_numcmp`; other operations are unreachable. -/
def foldNumcmp (a b : F64) : IROp → Option Bool
  | .eq => some (a.feq b)
  | .ne => some !(a.feq b)
  | .lt => some (a.lt b)
  | .ge => some (b.le a)
  | .le => some (a.le b)
  | .gt => some (b.lt a)
  | .ult => some !(b.le a)
  | .uge => some !(a.lt b)
  | .ule => some !(b.lt a)
  | .ugt => some !(a.le b)
  | _ => none

/-- Floor modulo of registers; a zero divisor panics. -/
def modI32 (k1 k2 : BitVec 32) : Option (BitVec 32) :=
  if k2 = 0 then none
  else
    let r := k1.srem k2
    some (if r ≠ 0 ∧ (r ^^^ k2).slt 0 then r + k2 else r)

/-- `kfold_intop`: 32-bit wrapping semantics. -/
def kfoldIntop (k1 k2 : BitVec 32) : IROp → Option (BitVec 32)
  | .add => some (k1 + k2)
  | .sub => some (k1 - k2)
  | .mul => some (k1 * k2)
  | .mod => modI32 k1 k2
  | .neg => some (-k1)
  | .band => some (k1 &&& k2)
  | .bor => some (k1 ||| k2)
  | .bxor => some (k1 ^^^ k2)
  | .bshl => some (k1 <<< (k2.toNat % 32))
  | .bshr => some (k1 >>> (k2.toNat % 32))
  | .bsar => some (k1.sshiftRight (k2.toNat % 32))
  | .brol => some (k1.rotateLeft (k2.toNat % 32))
  | .bror => some (k1.rotateRight (k2.toNat % 32))
  | .min => some (if k1.slt k2 then k1 else k2)
  | .max => some (if k1.slt k2 then k2 else k1)
  | _ => none

/-- The ordered comparisons of registers. -/
def intCmp (x y : BitVec 32) : IROp → Bool
  | .lt => x.slt y
  | .ge => y.sle x
  | .le => x.sle y
  | .gt => y.slt x
  | .ult => x.ult y
  | .uge => y.ule x
  | .ule => x.ule y
  | _ => y.ult x

/-- The fused number, integer, number bit operations of the executor. -/
def bitop (x : BitVec 32) (y : F64) : IROp → F64
  | .bnot => .ofInt32 (~~~x)
  | .band => .ofInt32 (x &&& y.asInt32)
  | .bor => .ofInt32 (x ||| y.asInt32)
  | .bxor => .ofInt32 (x ^^^ y.asInt32)
  | .bshl => .ofInt32 (x <<< (y.asU32 % 32))
  | .bshr => .ofInt (x >>> (y.asU32 % 32)).toNat
  | .brol => .ofInt32 (x.rotateLeft (y.asU32 % 32))
  | .bror => .ofInt32 (x.rotateRight (y.asU32 % 32))
  | _ => .ofInt32 (x.sshiftRight (y.asU32 % 32))

/-- `i32::swap_bytes`. -/
def swapBytes (x : BitVec 32) : BitVec 32 :=
  x.extractLsb' 0 8 ++ x.extractLsb' 8 8 ++ x.extractLsb' 16 8 ++ x.extractLsb' 24 8

end LuajitRs.Ir
