import LuajitRs.Stdlib.Math.Nearest
import LuajitRs.Vm.Arith
import Mathlib.Data.Nat.BitIndices

/-! Constant folding in the parser against the instructions of the interpreter. The parser has its own conversion to
32-bit integers, and it takes powers without the products that the interpreter takes for small integer exponents. -/
namespace LuajitRs.Folding
open Vm Vm.Compare Lib.Nearest

/-- The operators that are folded. -/
inductive Operator
  | add | sub | mul | div | mod | pow
  | band | bor | bxor | bshl | bshr | bsar
  | unm | bnot
  deriving DecidableEq

/-! ### The parser -/

section
variable (powf : F64 → F64 → F64) (x y : F64)

/-- `vm_foldarith`; other operators are unreachable. -/
def vmFoldarith : Operator → Option F64
  | .add => some (x.add y)
  | .sub => some (x.sub y)
  | .mul => some (x.mul y)
  | .div => some (x.div y)
  | .mod => some (x.sub ((x.div y).floor.mul y))
  | .pow => some (powf x y)
  | _ => none

/-- A NaN or a negative zero is not folded. -/
def foldarith (op : Operator) : Option F64 :=
  (vmFoldarith powf x y op).filter fun n => !(n.isNaN || n = .negZero)

def foldbitop (op : Operator) : Option F64 :=
  let k1 := x.num2bit
  let k2 := y.num2bit
  (match op with
    | .band => some (k1 &&& k2)
    | .bor => some (k1 ||| k2)
    | .bxor => some (k1 ^^^ k2)
    | .bshl => some (k1 <<< (k2.toNat % 32))
    | .bshr => some (k1 >>> (k2.toNat % 32))
    | .bsar => some (k1.sshiftRight (k2.toNat % 32))
    | _ => none).map F64.ofInt32

/-- What `bcemit_binop` and `bcemit_unop` make of constants: a constant, or nothing. -/
def foldConst : Operator → Option F64
  | .unm => if x.isZero then none else some x.neg
  | .bnot => some (.ofInt32 (~~~x.num2bit))
  | .add => foldarith powf x y .add
  | .sub => foldarith powf x y .sub
  | .mul => foldarith powf x y .mul
  | .div => foldarith powf x y .div
  | .mod => foldarith powf x y .mod
  | .pow => foldarith powf x y .pow
  | op => foldbitop x y op

/-! ### The interpreter -/

def stored : Except Fault Arith.Result → Option F64
  | .ok (.num r) => some r
  | _ => none

def bitStored : Arith.BitResult → Option F64
  | .ok (.num r) => some r
  | _ => none

variable (g : Globals)

/-- The number that the instruction stores, for operands in registers. -/
def vmConst : Operator → Option F64
  | .add => stored (Arith.addvv g (.num x) (.num y))
  | .sub => stored (Arith.subvv g (.num x) (.num y))
  | .mul => stored (Arith.mulvv g (.num x) (.num y))
  | .div => stored (Arith.divvv g (.num x) (.num y))
  | .mod => stored (Arith.modvv g (.num x) (.num y))
  | .pow => stored (Arith.pow g powf (.num x) (.num y))
  | .band => bitStored (Arith.band g (.num x) (.num y))
  | .bor => bitStored (Arith.bor g (.num x) (.num y))
  | .bxor => bitStored (Arith.bxor g (.num x) (.num y))
  | .bshl => bitStored (Arith.bshl g (.num x) (.num y))
  | .bshr => bitStored (Arith.bshr g (.num x) (.num y))
  | .bsar => bitStored (Arith.bsar g (.num x) (.num y))
  | .unm => stored (.ok (Arith.unm g (.num x)))
  | .bnot => bitStored (Arith.bnot g (.num x))

end

/-! ### Powers by squaring -/

section Power
variable (x : F64)

/-- `x` to the power `2^i`. -/
def squared (i : ℕ) : F64 := (fun z => z.mul z)^[i] x

theorem squared_succ (i : ℕ) : squared (x.mul x) i = squared x (i + 1) := rfl

/-- The product of the squarings under the bits of the exponent, from the lowest on. -/
def powProduct (n : ℕ) : F64 :=
  match n.bitIndices with
  | [] => .ofInt 1
  | i :: is => is.foldl (fun z j => z.mul (squared x j)) (squared x i)

theorem powBits_eq {fuel n : ℕ} (hn : n < 2^fuel) (z : F64) :
    Arith.powBits fuel x z n = n.bitIndices.foldl (fun z j => z.mul (squared x (j + 1))) z := by
  induction fuel generalizing x z n with
  | zero =>
    obtain rfl : n = 0 := by omega
    rfl
  | succ fuel ih =>
    rw [Arith.powBits]
    split_ifs with h0 hodd
    · rw [h0, Nat.bitIndices_zero]
      rfl
    · obtain ⟨m, rfl⟩ : ∃ m, n = 2 * m + 1 := ⟨n / 2, by omega⟩
      rw [show (2 * m + 1) / 2 = m by omega, ih _ (by omega), Nat.bitIndices_two_mul_add_one, List.foldl_cons,
        List.foldl_map]
      rfl
    · obtain ⟨m, rfl⟩ : ∃ m, n = 2 * m := ⟨n / 2, by omega⟩
      rw [show 2 * m / 2 = m by omega, ih _ (by omega), Nat.bitIndices_two_mul, List.foldl_map]
      rfl

theorem powProduct_even (m : ℕ) : powProduct (x.mul x) m = powProduct x (2 * m) := by
  rw [powProduct, powProduct, Nat.bitIndices_two_mul]
  cases m.bitIndices with
  | nil => rfl
  | cons i is =>
    rw [List.map_cons]
    simp only [List.foldl_map]
    rfl

/-- The two loops of the interpreter compute the product. -/
theorem loops_eq {fuel n : ℕ} (h0 : 0 < n) (hn : n < 2^fuel) (hfuel : fuel ≤ 32) :
    Arith.powBits 32 (Arith.dropTwos fuel x n).1 (Arith.dropTwos fuel x n).1 ((Arith.dropTwos fuel x n).2 / 2) =
      powProduct x n := by
  induction fuel generalizing x n with
  | zero => omega
  | succ fuel ih =>
    rw [Arith.dropTwos]
    split_ifs with heven
    · obtain ⟨m, rfl⟩ : ∃ m, n = 2 * m := ⟨n / 2, by omega⟩
      rw [show 2 * m / 2 = m by omega, ih _ (by omega) (by omega) (by omega), powProduct_even]
    · obtain ⟨m, rfl⟩ : ∃ m, n = 2 * m + 1 := ⟨n / 2, by omega⟩
      have hpow : 2^(fuel + 1) ≤ 2^32 := Nat.pow_le_pow_right (by decide) hfuel
      rw [show (2 * m + 1) / 2 = m by omega, powBits_eq _ (by omega), powProduct, Nat.bitIndices_two_mul_add_one]
      simp only [List.foldl_map]
      rfl

end Power

/-! ### Agreement -/

section
variable (powf : F64 → F64 → F64) (x y : F64)

/-- The exponent is an integer for which the interpreter does not take the general power. -/
def SmallExponent (y : F64) (k : ℤ) : Prop := y.asI32 = k ∧ (F64.ofInt k).feq y = true ∧ k.natAbs ≤ 65536

/-- The general power is what the interpreter takes instead for a small integer exponent. -/
def PowIsProduct : Prop := ∀ k, SmallExponent y k →
  (0 < k → powf x y = powProduct x k.toNat) ∧
  (k = 0 → powf x y = .ofInt 1) ∧
  (k < 0 → powf x y = (F64.ofInt 1).div (powf x (.ofInt (-k))))

/-- The integer nearest to a number, ties to even; from `2^51` on the low word of the sum with `2^52 + 2^51`. -/
def rounded (x : F64) : BitVec 32 :=
  if x.expo < 1074 then .ofInt 32 (roundEven x.toRat) else .ofNat 32 (x.add (.ofInt 6755399441055744)).bits.toNat

/-- The integer part of a number that fits in 64 bits. -/
def truncated (x : F64) : BitVec 32 := .ofInt 32 (if x.isNaN then 0 else max (-2^63) (min (2^63-1) x.trunc))

def bitWord (a b : BitVec 32) : Operator → BitVec 32
  | .band => a &&& b
  | .bor => a ||| b
  | .bxor => a ^^^ b
  | .bshl => a <<< (b.toNat % 32)
  | .bshr => a >>> (b.toNat % 32)
  | .bsar => a.sshiftRight (b.toNat % 32)
  | _ => ~~~a

/-- For what operands the parser folds to the value of the interpreter. -/
def FoldAgrees : Operator → Prop
  | .add | .sub | .mul | .div | .mod | .unm => True
  | .pow => (powf x y).isNaN = true ∨ powf x y = .negZero ∨ PowIsProduct powf x y
  | op => bitWord (rounded x) (rounded y) op = bitWord (truncated x) (truncated y) op

/-- The folded constant is the number that the instruction stores. -/
def Agrees (g : Globals) (op : Operator) : Prop :=
  ∀ c, foldConst powf x y op = some c → vmConst powf x y g op = some c

end

section
variable {powf : F64 → F64 → F64} {x y : F64} {g : Globals}

theorem num2bit_rounded : x.num2bit = rounded x := by
  rw [rounded]
  split_ifs with hx
  · exact F64.num2bit_eq_roundEven hx
  · rfl

theorem num2bit_truncated : Arith.num2bit x = truncated x := by
  rw [Arith.num2bit, F64.asInt64, truncated]
  generalize (if x.isNaN = true then 0 else max (-2^63) (min (2^63-1) x.trunc)) = i
  apply BitVec.eq_of_toNat_eq
  rw [BitVec.toNat_setWidth, BitVec.toNat_ofInt, BitVec.toNat_ofInt]
  omega

/-- The two sides of the bitwise operators. -/
theorem bitwise_agrees {op : Operator}
    (hfold : foldConst powf x y op = some (.ofInt32 (bitWord x.num2bit y.num2bit op)))
    (hvm : vmConst powf x y g op = some (.ofInt32 (bitWord (Arith.num2bit x) (Arith.num2bit y) op))) :
    Agrees powf x y g op ↔ bitWord (rounded x) (rounded y) op = bitWord (truncated x) (truncated y) op := by
  rw [num2bit_rounded, num2bit_rounded] at hfold
  rw [num2bit_truncated, num2bit_truncated] at hvm
  rw [Agrees, hfold, hvm]
  constructor
  · intro h
    exact (F64.ofInt32_inj.mp (Option.some_inj.mp (h _ rfl))).symm
  · rintro h c hc
    rw [← hc, h]

theorem vmConst_pow : vmConst powf x y g .pow = some (Arith.vmPow powf x y) := rfl

theorem foldConst_pow {c : F64} :
    foldConst powf x y .pow = some c ↔ c = powf x y ∧ c.isNaN = false ∧ c ≠ .negZero := by
  simp only [foldConst, foldarith, vmFoldarith, Option.filter_some, Option.ite_none_right_eq_some]
  constructor
  · rintro ⟨hp, hc⟩
    obtain rfl := Option.some_inj.mp hc
    simpa using hp
  · rintro ⟨rfl, hn, hz⟩
    exact ⟨by simp [hn, hz], rfl⟩

theorem smallExponent_unique {k k' : ℤ} (h : SmallExponent y k) (h' : SmallExponent y k') : k = k' :=
  h.1.symm.trans h'.1

/-- The interpreter's power is the general one if and only if the product is. -/
theorem vmPow_eq_iff : Arith.vmPow powf x y = powf x y ↔ PowIsProduct powf x y := by
  by_cases hint : ∃ k, SmallExponent y k
  · obtain ⟨k, hk⟩ := hint
    have hprod : PowIsProduct powf x y ↔ (0 < k → powf x y = powProduct x k.toNat) ∧
        (k = 0 → powf x y = .ofInt 1) ∧ (k < 0 → powf x y = (F64.ofInt 1).div (powf x (.ofInt (-k)))) := by
      constructor
      · intro h
        exact h k hk
      · intro h k' hk'
        exact smallExponent_unique hk hk' ▸ h
    obtain ⟨rfl, hfeq, habs⟩ := hk
    rw [hprod, Arith.vmPow]
    dsimp only
    rw [if_pos ⟨hfeq, habs⟩]
    split_ifs with h1 h0
    · have hloops := loops_eq x (n := y.asI32.toNat) (by omega) (show _ < 2^32 by omega) le_rfl
      rw [hloops, eq_comm]
      constructor
      · intro h
        exact ⟨fun _ => h, by omega, by omega⟩
      · intro h
        exact h.1 (by omega)
    · rw [eq_comm]
      constructor
      · intro h
        exact ⟨by omega, fun _ => h, by omega⟩
      · intro h
        exact h.2.1 h0
    · rw [eq_comm]
      constructor
      · intro h
        exact ⟨by omega, by omega, fun _ => h⟩
      · intro h
        exact h.2.2 (by omega)
  · have hgen : Arith.vmPow powf x y = powf x y := if_neg fun h => hint ⟨_, rfl, h⟩
    exact iff_of_true hgen fun k hk => absurd ⟨k, hk⟩ hint

theorem pow_agrees : Agrees powf x y g .pow ↔
    (powf x y).isNaN = true ∨ powf x y = .negZero ∨ PowIsProduct powf x y := by
  rw [← vmPow_eq_iff, Agrees]
  simp only [foldConst_pow, vmConst_pow, Option.some_inj]
  constructor
  · intro h
    by_cases hn : (powf x y).isNaN = true
    · exact Or.inl hn
    · by_cases hz : powf x y = .negZero
      · exact Or.inr (Or.inl hz)
      · exact Or.inr (Or.inr (h _ ⟨rfl, by simpa using hn, hz⟩))
  · rintro h c ⟨rfl, hn, hz⟩
    rcases h with h | h | h
    · rw [h] at hn
      exact absurd hn (by decide)
    · exact absurd h hz
    · exact h

theorem foldarith_eq_some {op : Operator} {c : F64} (h : foldarith powf x y op = some c) :
    vmFoldarith powf x y op = some c :=
  (Option.filter_eq_some_iff.mp h).1

/-- The parser folds to the value of the interpreter exactly where the two conversions, or the two powers, agree. -/
theorem fold_agrees_iff (powf : F64 → F64 → F64) (x y : F64) (g : Globals) (op : Operator) :
    Agrees powf x y g op ↔ FoldAgrees powf x y op := by
  cases op with
  | add => exact iff_of_true (fun c hc => foldarith_eq_some hc) trivial
  | sub => exact iff_of_true (fun c hc => foldarith_eq_some hc) trivial
  | mul => exact iff_of_true (fun c hc => foldarith_eq_some hc) trivial
  | div => exact iff_of_true (fun c hc => foldarith_eq_some hc) trivial
  | mod => exact iff_of_true (fun c hc => foldarith_eq_some hc) trivial
  | pow => exact pow_agrees
  | band => exact bitwise_agrees rfl rfl
  | bor => exact bitwise_agrees rfl rfl
  | bxor => exact bitwise_agrees rfl rfl
  | bshl => exact bitwise_agrees rfl rfl
  | bshr => exact bitwise_agrees rfl rfl
  | bsar => exact bitwise_agrees rfl rfl
  | bnot => exact bitwise_agrees (y := y) rfl rfl
  | unm =>
    refine iff_of_true (fun c hc => ?_) trivial
    rw [foldConst] at hc
    split_ifs at hc
    exact hc

/-- The number `3.7`. -/
def threePointSeven : F64 := ⟨0x400d99999999999a⟩

/-- `3.7 | 0` is folded to `4`, but the interpreter computes `3`. -/
theorem or_of_fraction :
    foldConst (fun x _ => x) threePointSeven .zero .bor = some (.ofInt 4) ∧
    vmConst (fun x _ => x) threePointSeven .zero Arith.threeIntegers .bor = some (.ofInt 3) ∧
    ¬ Agrees (fun x _ => x) threePointSeven .zero Arith.threeIntegers .bor := by
  have hfold : foldConst (fun x _ => x) threePointSeven .zero .bor = some (.ofInt 4) := by decide
  have hvm : vmConst (fun x _ => x) threePointSeven .zero Arith.threeIntegers .bor = some (.ofInt 3) := by decide
  refine ⟨hfold, hvm, fun h => ?_⟩
  have h4 := h _ hfold
  rw [hvm] at h4
  revert h4
  decide

end

end LuajitRs.Folding
