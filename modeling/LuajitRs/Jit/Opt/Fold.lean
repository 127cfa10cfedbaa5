import LuajitRs.Jit.Ir
import LuajitRs.Jit.Opt.Mem
import LuajitRs.Jit.Chain

/-! The fold engine. An instruction on its way into the buffer goes through the rules of its opcode, and the first one
that matches decides; a rule that rewrites the instruction asks for another pass over the rules. -/
namespace LuajitRs.Ir

/-- How folding stops without a result: a panic, a guard that always fails, or no pass that is left. -/
inductive FoldErr
  | panic | gfail | spent
  deriving DecidableEq

/-- Terminal outcomes of a pass. -/
inductive Step
  | retry (fins : IRIns)
  | ref (r : ℕ)
  | tref (r : ℕ)
  | drop
  | cse

abbrev FoldResult := Except FoldErr (Step × IrBuf)

/-- A pass: the buffer, the instruction, and copies of the instructions of its operands; a literal has none. -/
structure Pass where
  buf : IrBuf
  fins : IRIns
  left : Option IRIns
  right : Option IRIns

/-- A rule, with `none` where it does not match. -/
abbrev Rule := Pass → Option FoldResult

def IrBuf.operand (buf : IrBuf) (r : ℕ) : Except FoldErr (Option IRIns) :=
  if buf.nk ≤ r then
    match buf.ir r with
    | some ins => .ok (some ins)
    | none => .error .panic
  else .ok none

/-- `knum_val`: the payload of a constant, read as a number. -/
def IrBuf.knumVal (buf : IrBuf) (r : ℕ) : Except FoldErr F64 :=
  if REF_BIAS ≤ r then .error .panic
  else match buf.k64Val r with
    | some (.num x) => .ok x
    | some v => .ok ⟨.ofNat v.toBits⟩
    | none => .error .panic

namespace Pass
variable (p : Pass)

def op : IROp := p.fins.op
def leftIs (op : IROp) : Bool := p.left.any (·.op = op)
def rightIs (op : IROp) : Bool := p.right.any (·.op = op)

/-- An integer constant as an operand. -/
def leftInt : Option (BitVec 32) := (p.left.filter (·.op = .kint)).map IRIns.i
def rightInt : Option (BitVec 32) := (p.right.filter (·.op = .kint)).map IRIns.i

/-- Go on with the number constant on the right. -/
def withRightNum (rule : F64 → Option FoldResult) : Option FoldResult :=
  if p.rightIs .knum then
    match p.buf.knumVal p.fins.op2 with
    | .ok n => rule n
    | .error e => some (.error e)
  else none

/-! ### Outcomes -/

def retry (fins : IRIns) : FoldResult := .ok (.retry fins, p.buf)
def ref (r : ℕ) : FoldResult := .ok (.ref r, p.buf)
def cse : FoldResult := .ok (.cse, p.buf)
def int (k : BitVec 32) : FoldResult := .ok (.tref (p.buf.kint k).2, (p.buf.kint k).1)
def num (x : F64) : FoldResult := .ok (.tref (p.buf.knum x).2, (p.buf.knum x).1)

/-- `CONDFOLD`: drop a guard that is true; any other one would always fail. -/
def condfold (cond : Bool) : FoldResult := if cond then .ok (.drop, p.buf) else .error .gfail

/-- `phibarrier`: no rule goes through a PHI. -/
def phibarrier (ins : IRIns) (result : FoldResult) : FoldResult := if ins.t.isphi then p.cse else result

end Pass

/-! ### Constants -/

section Rules
variable (pow : F64 → F64 → F64) (p : Pass)

/-- Both operands are number constants. -/
def knumPair (k : F64 → F64 → FoldResult) : Option FoldResult :=
  if p.leftIs .knum && p.rightIs .knum then some do
    let x ← p.buf.knumVal p.fins.op1
    let y ← p.buf.knumVal p.fins.op2
    k x y
  else none

def kfoldNumarith : Rule := fun p => knumPair p fun x y => p.num (foldNumarith pow x y p.op)

/-- An integer operation that does not exist, or a division by zero, panics. -/
def kfoldInt (x y : BitVec 32) : FoldResult :=
  match kfoldIntop x y p.op with
  | some k => p.int k
  | none => .error .panic

def kfoldIntarith : Rule := fun p => do
  let x ← p.leftInt
  let y ← p.rightInt
  some (kfoldInt p x y)

def kfoldIntmod : Rule := fun p => do
  let x ← p.leftInt
  let y ← p.rightInt
  if y ≠ 0 then some (kfoldInt p x y) else none

/-- `-k`, for a number or an integer. -/
def kfoldNeg : Rule := fun p =>
  if p.leftIs .knum then some ((p.buf.knumVal p.fins.op1).bind fun x => p.num x.neg)
  else p.leftInt.map fun x => kfoldInt p x 0

def kfoldNumabs : Rule := fun p =>
  if p.leftIs .knum then some ((p.buf.knumVal p.fins.op1).bind fun x => p.num x.abs) else none

/-- Fold in 64 bits, and fail on an overflow. -/
def kfoldIntovarith : Rule := fun p => do
  let x ← p.leftInt
  let y ← p.rightInt
  let k := match p.op with
    | .addov => x.toInt + y.toInt
    | .subov => x.toInt - y.toInt
    | _ => x.toInt * y.toInt
  some (if (BitVec.ofInt 32 k).toInt ≠ k then .error .gfail else p.int (.ofInt 32 k))

def kfoldBnot : Rule := fun p => p.leftInt.map fun x => p.int (~~~x)
def kfoldBswap : Rule := fun p => p.leftInt.map fun x => p.int (swapBytes x)

/-! ### Arithmetic -/

/-- `(-a) + b ==> b - a` -/
def simplifyNumaddNegx : Rule := fun p => do
  let l ← p.left.filter (·.op = .neg)
  some (p.phibarrier l (p.retry { p.fins with op := .sub, op1 := p.fins.op2, op2 := l.op1 }))

/-- `a + (-b) ==> a - b` -/
def simplifyNumaddXneg : Rule := fun p => do
  let r ← p.right.filter (·.op = .neg)
  some (p.phibarrier r (p.retry { p.fins with op := .sub, op2 := r.op1 }))

/-- `i + 0 ==> i`, on integers only. -/
def simplifyIntaddK : Rule := fun p => do
  let k ← p.rightInt
  if p.fins.t.ty = .int ∧ k = 0 then some (p.ref p.fins.op1) else none

/-- `(-x) - k ==> (-k) - x` -/
def simplifyNumsubNegk : Rule := fun p => do
  let l ← p.left.filter (·.op = .neg)
  if p.rightIs .knum then some (p.phibarrier l do
    let k ← p.buf.knumVal p.fins.op2
    .ok (.retry { p.fins with op1 := (p.buf.knum k.neg).2, op2 := l.op1 }, (p.buf.knum k.neg).1))
  else none

/-- `x - (+0) ==> x` -/
def simplifyNumsubK : Rule := fun p => p.withRightNum fun k => if k = .zero then some (p.ref p.fins.op1) else none

/-- `a - (-b) ==> a + b` -/
def simplifyNumsubXneg : Rule := fun p => do
  let r ← p.right.filter (·.op = .neg)
  some (p.phibarrier r (p.retry { p.fins with op := .add, op2 := r.op1 }))

/-- `i - 0 ==> i` and `i - k ==> i + (-k)` -/
def simplifyIntsubK : Rule := fun p => do
  let k ← p.rightInt
  some (if k = 0 then p.ref p.fins.op1
    else .ok (.retry { p.fins with op := .add, op2 := (p.buf.kint (-k)).2 }, (p.buf.kint (-k)).1))

/-- `0 - i ==> -i` -/
def simplifyIntsubKleft : Rule := fun p => do
  let k ← p.leftInt
  if k = 0 then some (p.retry { p.fins with op := .neg, op1 := p.fins.op2 }) else none

/-- `x * 1 ==> x` and `x * 2 ==> x + x` -/
def simplifyNummulK : Rule := fun p => p.withRightNum fun n =>
  if n.feq (.ofInt 1) then some (p.ref p.fins.op1)
  else if n.feq (.ofInt 2) then some (p.retry { p.fins with op := .add, op2 := p.fins.op1 })
  else none

/-- A positive power of two. -/
def isPow2 (k : BitVec 32) : Bool := 0 < k.toInt && k &&& (k - 1) = 0

/-- `i * 0 ==> 0`, `i * 1 ==> i` and `i * 2^k ==> i << k` -/
def simplifyIntmulK32 : Rule := fun p => do
  let k ← p.rightInt
  if k = 0 then some (p.ref p.fins.op2)
  else if k = 1 then some (p.ref p.fins.op1)
  else if isPow2 k then
    let s := BitVec.ofNat 32 k.toNat.log2
    some (.ok (.retry { p.fins with op := .bshl, op2 := (p.buf.kint s).2 }, (p.buf.kint s).1))
  else none

/-- `x / 1 ==> x` and `x / 2^k ==> x * 2^-k`, for an exact reciprocal only. -/
def simplifyNumdivK : Rule := fun p => p.withRightNum fun n =>
  if n.feq (.ofInt 1) then some (p.ref p.fins.op1)
  else if n.frac = 0 ∧ 1 ≤ n.expo ∧ n.expo < 0x7fe then
    let recip := F64.ofFields n.signBit (0x7fe - n.expo) 0
    some (.ok (.retry { p.fins with op := .mul, op2 := (p.buf.knum recip).2 }, (p.buf.knum recip).1))
  else none

/-- `i % 2^k ==> i & (2^k-1)` -/
def simplifyIntmodK : Rule := fun p => do
  let k ← p.rightInt
  if isPow2 k then
    some (.ok (.retry { p.fins with op := .band, op2 := (p.buf.kint (k - 1)).2 }, (p.buf.kint (k - 1)).1))
  else none

/-- `x ^ 0 ==> 1`, `x ^ 1 ==> x` and `x ^ 2 ==> x * x`, which is emitted at once. -/
def simplifyNumpowK (emitir : IrBuf → IRIns → Except FoldErr (IrBuf × ℕ)) : Rule := fun p => p.withRightNum fun k =>
  if k.feq .zero then some (p.num (.ofInt 1))
  else if k.feq (.ofInt 1) then some (p.ref p.fins.op1)
  else if k.feq (.ofInt 2) then some do
    let (buf, tr) ← emitir p.buf (.new .mul (plain .num) p.fins.op1 p.fins.op1)
    .ok (.tref tr, buf)
  else none

/-- `-(-x) ==> x` and the like: the operand of an operand with the opcode of the instruction. -/
def shortcutLeftleft : Rule := fun p => do
  let l ← p.left.filter (·.op = p.op)
  some (p.phibarrier l (p.ref l.op1))

/-- `i +- 0 ==> i`, overflow-checked. -/
def simplifyIntaddovK : Rule := fun p => do
  let k ← p.rightInt
  if k = 0 then some (p.ref p.fins.op1) else none

/-- `i * 0 ==> 0`, `i * 1 ==> i` and `i * 2 ==> i + i`, overflow-checked. -/
def simplifyIntmulK : Rule := fun p => do
  let k ← p.rightInt
  if k = 0 then some (p.ref p.fins.op2)
  else if k = 1 then some (p.ref p.fins.op1)
  else if k = 2 then some (p.retry { p.fins with op := .addov, op2 := p.fins.op1 })
  else none

/-- `x o x ==> x` -/
def commDup : Rule := fun p => if p.fins.op1 = p.fins.op2 then some (p.ref p.fins.op1) else none

/-- `x ~ x ==> 0` -/
def commBxor : Rule := fun p => if p.fins.op1 = p.fins.op2 then some (p.int 0) else none

/-- `comm_swap`: the lower reference goes right. -/
def commSwap : Rule := fun p =>
  if p.fins.op1 < p.fins.op2 then some (p.retry { p.fins with op1 := p.fins.op2, op2 := p.fins.op1 }) else none

/-! ### Comparisons -/

def kfoldNumcomp : Rule := fun p => knumPair p fun x y =>
  match foldNumcmp x y p.op with
  | some cond => p.condfold cond
  | none => .error .panic

/-- Constants are unique: the same reference is the same value. -/
def kfoldKref : Rule := fun p =>
  if (p.leftIs .kint && p.rightIs .kint) || (p.leftIs .kgc && p.rightIs .kgc) then
    some (p.condfold ((p.fins.op1 = p.fins.op2) = (p.op = .eq)))
  else none

def kfoldIntcomp : Rule := fun p => do
  let x ← p.leftInt
  let y ← p.rightInt
  some (p.condfold (intCmp x y p.op))

/-- `x >= 0` is always true for unsigned numbers. -/
def kfoldIntcomp0 : Rule := fun p => do
  let k ← p.rightInt
  if p.op = .uge ∧ k = 0 then some (p.condfold true) else none

def IROp.isBitResult (o : IROp) : Bool :=
  o = band || o = bor || o = bxor || o = bshl || o = bshr || o = bsar || o = bnot

/-- Range guards of bit operations, whose results are 32-bit integers. -/
def foldBitRange : Rule := fun p =>
  if p.fins.t.ty = .num ∧ p.left.any (·.op.isBitResult) then p.withRightNum fun k =>
    if (p.op = .ge ∧ k.le (.ofInt (-2147483648))) ∨ (p.op = .le ∧ (F64.ofInt 2147483647).le k) then
      some (p.condfold true)
    else none
  else none

/-- `x == x`, for anything but numbers. -/
def commEqual : Rule := fun p =>
  if p.fins.op1 = p.fins.op2 ∧ p.fins.t.ty ≠ .num then some (p.condfold (p.op = .eq)) else none

/-- `x <= x` and the like, for anything but numbers. -/
def commComp : Rule := fun p =>
  if p.fins.op1 = p.fins.op2 ∧ p.fins.t.ty ≠ .num then
    some (p.condfold (p.op = .ge || p.op = .le || p.op = .uge || p.op = .ule))
  else none

/-- The comparison of swapped operands, the opcode with its two lowest bits flipped. -/
def IROp.swapped : IROp → IROp
  | lt => gt | gt => lt | ge => le | le => ge
  | ult => ugt | ugt => ult | uge => ule | ule => uge
  | o => o

def commSwapComp : Rule := fun p =>
  if p.fins.op1 < p.fins.op2 then
    some (p.retry { p.fins with op := p.op.swapped, op1 := p.fins.op2, op2 := p.fins.op1 })
  else none

end Rules

/-! ### The engine -/

section Engine
variable (pow : F64 → F64 → F64)

/-- The rules of an opcode, most specific first. -/
def foldRules (emitir : IrBuf → IRIns → Except FoldErr (IrBuf × ℕ)) : IROp → List Rule
  | .add => [kfoldNumarith pow, kfoldIntarith, simplifyNumaddNegx, simplifyNumaddXneg, simplifyIntaddK, commSwap]
  | .sub => [kfoldNumarith pow, kfoldIntarith, simplifyNumsubNegk, simplifyNumsubK, simplifyNumsubXneg,
      simplifyIntsubK, simplifyIntsubKleft]
  | .mul => [kfoldNumarith pow, kfoldIntarith, simplifyNummulK, simplifyIntmulK32, commSwap]
  | .div => [kfoldNumarith pow, simplifyNumdivK]
  | .mod => [kfoldNumarith pow, kfoldIntmod, simplifyIntmodK]
  | .pow => [kfoldNumarith pow, simplifyNumpowK emitir]
  | .neg => [kfoldNeg, shortcutLeftleft]
  | .abs => [kfoldNumabs]
  | .min | .max => [kfoldNumarith pow, kfoldIntarith, commDup]
  | .addov => [kfoldIntovarith, simplifyIntaddovK, commSwap]
  | .subov => [kfoldIntovarith, simplifyIntaddovK]
  | .mulov => [kfoldIntovarith, simplifyIntmulK, commSwap]
  | .bnot => [kfoldBnot, shortcutLeftleft]
  | .bswap => [kfoldBswap, shortcutLeftleft]
  | .band | .bor => [kfoldIntarith, commDup, commSwap]
  | .bxor => [kfoldIntarith, commBxor, commSwap]
  | .bshl | .bshr | .bsar | .brol | .bror => [kfoldIntarith]
  | .eq | .ne => [kfoldNumcomp, kfoldKref, commEqual, commSwapComp]
  | .lt | .ge | .le | .gt | .ult | .uge | .ule | .ugt =>
    [kfoldNumcomp, kfoldIntcomp, kfoldIntcomp0, foldBitRange, commComp, commSwapComp]
  | _ => []

/-- The bit operations, which on numbers convert their operands. -/
def IROp.isFusedBit (o : IROp) : Bool :=
  o = bnot || o = bswap || o = band || o = bor || o = bxor || o = bshl || o = bshr || o = bsar || o = brol ||
    o = bror || o = tobit

/-- A pass over the rules. -/
def foldStep (emitir : IrBuf → IRIns → Except FoldErr (IrBuf × ℕ)) (buf : IrBuf) (fins : IRIns) : FoldResult :=
  if fins.t.ty = .num ∧ fins.op.isFusedBit then .ok (.cse, buf)
  else do
    let left ← buf.operand fins.op1
    let right ← buf.operand fins.op2
    let p : Pass := ⟨buf, fins, left, right⟩
    ((foldRules pow emitir fins.op).findSome? (· p)).getD p.cse

/-- `opt_fold`, with the number of passes that are left; the reference is the one of the result, or `REF_DROP` for an elided guard. -/
def optFold : ℕ → IrBuf → IRIns → Except FoldErr (IrBuf × ℕ)
  | 0, _, _ => .error .spent
  | passes+1, buf, fins =>
    if fins.op.kind ≠ .n then
      match buf.foldMem fins with
      | some r => .ok r
      | none => .error .panic
    else if fins.op = .kgc ∨ fins.op = .kint64 ∨ fins.op = .knum then .ok (buf.emitIns fins)
    else do
      let (step, buf) ← foldStep pow (optFold passes) buf fins
      match step with
      | .retry fins => optFold passes buf fins
      | .ref r => if (buf.ir r).isSome then .ok (buf, r) else .error .panic
      | .tref r => .ok (buf, r)
      | .drop => .ok (buf, REF_DROP)
      | .cse => .ok (buf.optCse fins)

end Engine
end LuajitRs.Ir
