import LuajitRs.Jit.Exec
import LuajitRs.Lib.Bytes
import LuajitRs.Stdlib.Bit
import LuajitRs.Util.F64.Convert
import LuajitRs.Vm.Arith

/-! The bit operations of the four tiers on 32-bit integers: the instructions of the interpreter, the functions of the
bit library, the constant folder, and the executor of traces, whose shift counts are converted in another way. -/
namespace LuajitRs.Bits
open Ir Vm Vm.Compare Lib.Words

inductive BitOp
  | band | bor | bxor | bnot | bshl | bshr | bsar | brol | bror | bswap
  deriving DecidableEq

/-- The operation of the intermediate representation. -/
def BitOp.irop : BitOp → IROp
  | band => .band
  | bor => .bor
  | bxor => .bxor
  | bnot => .bnot
  | bshl => .bshl
  | bshr => .bshr
  | bsar => .bsar
  | brol => .brol
  | bror => .bror
  | bswap => .bswap

/-- The interpreter has no instruction for the rotations and for the swap of bytes. -/
def BitOp.hasOpcode : BitOp → Bool
  | brol | bror | bswap => false
  | _ => true

def resultNum : Arith.BitResult → Option F64
  | .ok (.num r) => some r
  | _ => none

def retNum : Except BitLib.Stop BitLib.Ret → Option F64
  | .ok (.num r) => some r
  | _ => none

/-- The instruction of the interpreter. -/
def interpBit (g : Globals) (x y : F64) : BitOp → Option F64
  | .band => resultNum (Arith.band g (.num x) (.num y))
  | .bor => resultNum (Arith.bor g (.num x) (.num y))
  | .bxor => resultNum (Arith.bxor g (.num x) (.num y))
  | .bnot => resultNum (Arith.bnot g (.num x))
  | .bshl => resultNum (Arith.bshl g (.num x) (.num y))
  | .bshr => resultNum (Arith.bshr g (.num x) (.num y))
  | .bsar => resultNum (Arith.bsar g (.num x) (.num y))
  | _ => none

/-- The library function. -/
def libBit (h : CDataHeap) (x y : F64) : BitOp → Option F64
  | .band => retNum (BitLib.band h [.num x, .num y])
  | .bor => retNum (BitLib.bor h [.num x, .num y])
  | .bxor => retNum (BitLib.bxor h [.num x, .num y])
  | .bnot => retNum (BitLib.bnot h [.num x])
  | .bshl => retNum (BitLib.lshift h [.num x, .num y])
  | .bshr => retNum (BitLib.rshift h [.num x, .num y])
  | .bsar => retNum (BitLib.arshift h [.num x, .num y])
  | .brol => retNum (BitLib.rol h [.num x, .num y])
  | .bror => retNum (BitLib.ror h [.num x, .num y])
  | .bswap => retNum (BitLib.bswap h [.num x])

/-- The rules of the folder for two integer constants, as the number that the constant stands for. -/
def foldBit (x y : BitVec 32) (op : BitOp) : Option F64 :=
  (match op with
    | .bnot => some (~~~x)
    | .bswap => some (swapBytes x)
    | op => kfoldIntop x y op.irop).map F64.ofInt32

/-- The arm of the executor. -/
def execBit (x y : F64) : BitOp → F64
  | .bswap => .ofInt32 (swapBytes x.asInt32)
  | op => bitop x.asInt32 y op.irop

/-- The executor writes that number for the instruction of the operation. -/
theorem evalIns_bit {H : Type} (R : Runtime H) (buf : IrBuf) (m : Ir.Machine H) (t : IRType) (o1 o2 : ℕ) {x y : F64}
    (hx : readRef buf m.env o1 = some (.num x)) (hy : readRef buf m.env o2 = some (.num y)) (op : BitOp) :
    evalIns R buf m (.new op.irop t o1 o2) = some (.write m.world (.num (execBit x y op))) := by
  cases op <;> simp [evalIns, IRIns.new, BitOp.irop, hx, hy, execBit, LuaValue.f64, bitop]

/-! ### The common result -/

/-- The operation on words; a count is its low five bits. -/
def word (x n : BitVec 32) : BitOp → BitVec 32
  | .band => x &&& n
  | .bor => x ||| n
  | .bxor => x ^^^ n
  | .bnot => ~~~x
  | .bshl => x <<< (n.toNat % 32)
  | .bshr => x >>> (n.toNat % 32)
  | .bsar => x.sshiftRight (n.toNat % 32)
  | .brol => x.rotateLeft (n.toNat % 32)
  | .bror => x.rotateRight (n.toNat % 32)
  | .bswap => swapBytes x

section
variable (g : Globals) (h : CDataHeap) (x n : BitVec 32) (op : BitOp)

theorem foldBit_eq : foldBit x n op = some (.ofInt32 (word x n op)) := by cases op <;> rfl

theorem libBit_eq : libBit h (.ofInt32 x) (.ofInt32 n) op = some (.ofInt32 (word x n op)) := by
  cases op <;>
    simp only [libBit, BitLib.band, BitLib.bor, BitLib.bxor, BitLib.bnot, BitLib.bswap, BitLib.lshift, BitLib.rshift,
      BitLib.arshift, BitLib.rol, BitLib.ror, BitLib.bitFold_num, BitLib.bitUnary_num, BitLib.bitShift_num,
      F64.num2bit_ofInt32, BitLib.ret, retNum, word]

theorem num2bit_ofInt32 : Arith.num2bit (.ofInt32 x) = x := F64.asInt64_ofInt32 x

theorem interpBit_eq (hop : op.hasOpcode = true) :
    interpBit g (.ofInt32 x) (.ofInt32 n) op = some (.ofInt32 (word x n op)) := by
  cases op <;> cases hop <;>
    simp [interpBit, Arith.band, Arith.bor, Arith.bxor, Arith.bnot, Arith.bshl, Arith.bshr, Arith.bsar, Arith.bitop,
      Arith.shiftop, Globals.cdataU64, LuaValue.asNumber, num2bit_ofInt32, resultNum, word]

end

/-! ### The count of the executor -/

/-- The count that the executor shifts by: a negative one saturates to zero. -/
def seenCount (n : BitVec 32) : ℕ := if 0 ≤ n.toInt then n.toNat % 32 else 0

theorem asU32_mod (n : BitVec 32) : (F64.ofInt32 n).asU32 % 32 = seenCount n := by
  rw [F64.asU32_ofInt32, seenCount]
  split_ifs <;> rfl

/-- For what operands the executor gives the common result: a count that is not negative, or an operand that the shift
leaves alone; and a right shift of no places keeps the sign only of an operand that has none. -/
def ExecAgrees (x n : BitVec 32) : BitOp → Prop
  | .band | .bor | .bxor | .bnot | .bswap => True
  | .bshl => 0 ≤ n.toInt ∨ n.toNat % 32 = 0 ∨ x = 0#32
  | .bshr => if n.toNat % 32 = 0 then 0 ≤ x.toInt else 0 ≤ n.toInt ∨ x = 0#32
  | .bsar => 0 ≤ n.toInt ∨ n.toNat % 32 = 0 ∨ x.toInt = 0 ∨ x.toInt = -1
  | .brol | .bror => 0 ≤ n.toInt ∨ n.toNat % 32 = 0 ∨ Periodic x (n.toNat % 32)

section
variable (x n : BitVec 32)

/-- An operation by the seen count is one by the count itself, if the operand is a fixed point of the latter. -/
theorem by_seenCount (op : BitVec 32 → ℕ → BitVec 32) (h0 : op x 0 = x) :
    op x (seenCount n) = op x (n.toNat % 32) ↔
      0 ≤ n.toInt ∨ n.toNat % 32 = 0 ∨ (0 < n.toNat % 32 ∧ op x (n.toNat % 32) = x) := by
  rw [seenCount]
  split_ifs with hn
  · exact iff_of_true rfl (Or.inl hn)
  · rw [h0]
    by_cases hk : n.toNat % 32 = 0
    · rw [hk, h0]
      exact iff_of_true rfl (Or.inr (Or.inl rfl))
    · constructor
      · intro h
        exact Or.inr (Or.inr ⟨by omega, h.symm⟩)
      · rintro (h | h | h)
        · exact absurd h hn
        · exact absurd h hk
        · exact h.2.symm

/-- The right shift of the executor is a number without a sign. -/
theorem unsigned_eq_iff (y : BitVec 32) : F64.ofInt (x.toNat : ℤ) = F64.ofInt32 y ↔ (x.toNat : ℤ) = y.toInt := by
  have hx := x.isLt
  have hy := F64.toInt_bounds y
  constructor
  · intro h
    exact F64.ofInt_inj (by omega) (by omega) h
  · intro h
    rw [F64.ofInt32, h]

theorem bshr_agrees_iff : ((x >>> seenCount n).toNat : ℤ) = (x >>> (n.toNat % 32)).toInt ↔ ExecAgrees x n .bshr := by
  have hx := x.isLt
  have hlt : n.toNat % 32 < 32 := Nat.mod_lt _ (by omega)
  rw [ExecAgrees]
  split_ifs with hk
  · have hseen : seenCount n = 0 := by rw [seenCount, hk, ite_self]
    rw [hseen, hk, BitVec.ushiftRight_zero, BitVec.toInt_eq_toNat_cond]
    split_ifs <;> omega
  · have hpow : 2 ≤ 2^(n.toNat % 32) := by
      calc 2 = 2^1 := rfl
        _ ≤ 2^(n.toNat % 32) := Nat.pow_le_pow_right (by omega) (by omega)
    have hhalf : x.toNat / 2^(n.toNat % 32) ≤ x.toNat / 2 := Nat.div_le_div_left hpow (by omega)
    have hint : (x >>> (n.toNat % 32)).toInt = (x.toNat / 2^(n.toNat % 32) : ℕ) := by
      rw [BitVec.toInt_eq_toNat_of_lt, BitVec.toNat_ushiftRight, Nat.shiftRight_eq_div_pow]
      rw [BitVec.toNat_ushiftRight, Nat.shiftRight_eq_div_pow]
      omega
    rw [hint, Nat.cast_inj, seenCount, BitVec.toNat_ushiftRight, Nat.shiftRight_eq_div_pow]
    split_ifs with hn
    · exact iff_of_true rfl (Or.inl hn)
    · rw [pow_zero, Nat.div_one]
      constructor
      · intro h
        exact Or.inr (BitVec.eq_of_toNat_eq (by rw [BitVec.toNat_ofNat]; omega))
      · rintro (h | rfl)
        · exact absurd h hn
        · rw [BitVec.toNat_ofNat, Nat.zero_mod, Nat.zero_div]

theorem execBit_eq_iff (op : BitOp) :
    execBit (.ofInt32 x) (.ofInt32 n) op = .ofInt32 (word x n op) ↔ ExecAgrees x n op := by
  have hlt : n.toNat % 32 < 32 := Nat.mod_lt _ (by omega)
  cases op <;>
    simp only [execBit, bitop, BitOp.irop, word, F64.asInt32_ofInt32, asU32_mod, F64.ofInt32_inj, unsigned_eq_iff,
      bshr_agrees_iff, ExecAgrees]
  case bshl =>
    rw [by_seenCount x n (· <<< ·) (BitVec.shiftLeft_zero x)]
    refine or_congr_right (or_congr_right' fun hk => ?_)
    rw [shiftLeft_eq_self x (by omega)]
    exact and_iff_right (by omega)
  case bsar =>
    rw [by_seenCount x n BitVec.sshiftRight BitVec.sshiftRight_zero]
    refine or_congr_right (or_congr_right' fun hk => ?_)
    rw [sshiftRight_eq_self x (by omega)]
    exact and_iff_right (by omega)
  case brol =>
    rw [by_seenCount x n BitVec.rotateLeft ((rotateLeft_eq_self x (by omega)).2 (periodic_zero x))]
    refine or_congr_right (or_congr_right' fun hk => ?_)
    rw [rotateLeft_eq_self x hlt]
    exact and_iff_right (by omega)
  case bror =>
    rw [by_seenCount x n BitVec.rotateRight ((rotateRight_eq_self x (by omega)).2 (periodic_zero x))]
    refine or_congr_right (or_congr_right' fun hk => ?_)
    rw [rotateRight_eq_self x hlt]
    exact and_iff_right (by omega)

end

/-! ### Agreement -/

/-- All the tiers that have the operation compute one number. -/
def TiersAgree (g : Globals) (h : CDataHeap) (x n : BitVec 32) (op : BitOp) : Prop :=
  ∃ r, (op.hasOpcode = true → interpBit g (.ofInt32 x) (.ofInt32 n) op = some r) ∧
    libBit h (.ofInt32 x) (.ofInt32 n) op = some r ∧ foldBit x n op = some r ∧
    execBit (.ofInt32 x) (.ofInt32 n) op = r

theorem tiersAgree_iff_exec (g : Globals) (h : CDataHeap) (x n : BitVec 32) (op : BitOp) :
    TiersAgree g h x n op ↔ execBit (.ofInt32 x) (.ofInt32 n) op = .ofInt32 (word x n op) := by
  constructor
  · rintro ⟨r, _, hl, _, he⟩
    rw [he, ← Option.some_inj, ← hl, libBit_eq]
  · intro he
    exact ⟨_, interpBit_eq g x n op, libBit_eq h x n op, foldBit_eq x n op, he⟩

/-- The four tiers agree exactly where the count of the executor is the masked one, or does not matter. -/
theorem tiers_agree_iff (g : Globals) (h : CDataHeap) (x n : BitVec 32) (op : BitOp) :
    TiersAgree g h x n op ↔ ExecAgrees x n op := by
  rw [tiersAgree_iff_exec, execBit_eq_iff]

/-- `bit.lshift(1, -1)` is the lowest integer, but a compiled trace does not shift at all; and `bit.rshift(-1, 0)` is
`-1`, but `4294967295` in a trace. -/
theorem shift_by_negative :
    libBit Arith.threeIntegers.cdatas (.ofInt32 1) (.ofInt32 (-1)) .bshl = some (.ofInt (-2147483648)) ∧
    execBit (.ofInt32 1) (.ofInt32 (-1)) .bshl = .ofInt 1 ∧
    libBit Arith.threeIntegers.cdatas (.ofInt32 (-1)) (.ofInt32 0) .bshr = some (.ofInt (-1)) ∧
    execBit (.ofInt32 (-1)) (.ofInt32 0) .bshr = .ofInt 4294967295 ∧
    ¬ TiersAgree Arith.threeIntegers Arith.threeIntegers.cdatas 1 (-1) .bshl := by
  refine ⟨by rw [libBit_eq]; decide, by decide, by rw [libBit_eq]; decide, by decide, ?_⟩
  rw [tiersAgree_iff_exec]
  decide

end LuajitRs.Bits
