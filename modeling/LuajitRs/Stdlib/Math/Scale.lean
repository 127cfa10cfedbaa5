import LuajitRs.Runtime.Value
import LuajitRs.Util.F64.Order
import Mathlib.Algebra.Order.Field.Power
import Mathlib.Algebra.Order.Ring.Abs
import Mathlib.Tactic.Linarith

/-! `math.frexp` and `math.ldexp`. The decomposition edits the exponent field, which is right for normal numbers,
and the composition multiplies by a power of two, which has to be a double itself. -/
namespace LuajitRs
namespace F64

/-- A double that is neither infinite nor NaN. -/
def Finite (x : F64) : Prop := x.expo < 2047

/-- The rational number that a finite double stands for. -/
def toRat (x : F64) : ℚ :=
  (if x.signBit then -1 else 1) *
    (if x.expo = 0 then (x.frac : ℚ) * 2^(-1074 : ℤ) else ((2^52 + x.frac : ℕ) : ℚ) * 2^((x.expo : ℤ) - 1075))

end F64

namespace Scale
open LuaValue

/-- `(2.0f64).powi(e)`. -/
def powi2 (e : ℤ) : F64 := F64.exp2 e

def mathFrexp (v : LuaValue) : Except BadArg (LuaValue × LuaValue) :=
  match v with
  | .num x =>
    if x.feq .zero then .ok (number .zero, number .zero)
    else
      let exp : ℤ := ((x.bits >>> 52) &&& 0x7ff).toNat - 1022
      let mant : F64 := ⟨x.bits &&& 0x800fffffffffffff ||| 0x3fe0000000000000⟩
      .ok (number mant, ofInt exp)
  | v => .error ⟨1, "math.frexp", "number", typeName v⟩

def mathLdexp (v w : LuaValue) : Except BadArg LuaValue :=
  match v with
  | .num m =>
    match w with
    | .num n => .ok (number (m.mul (powi2 n.asI32)))
    | w => .error ⟨2, "math.ldexp", "number", typeName w⟩
  | v => .error ⟨1, "math.ldexp", "number", typeName v⟩

/-- The two functions are inverse on `x`: the parts that `frexp` returns are those of `x`, and `ldexp` puts them
together again. -/
def Inverse (x : F64) : Prop :=
  ∃ (m n : F64) (e : ℤ), mathFrexp (.num x) = .ok (.num m, .num n) ∧ m.Finite ∧ n.Finite ∧ n.toRat = e ∧
    1/2 ≤ |m.toRat| ∧ |m.toRat| < 1 ∧ m.toRat * 2^e = x.toRat ∧ mathLdexp (.num m) (.num n) = .ok (.num x)

/-! ### The decomposition -/

section Frexp
variable (x : F64)

theorem expo_shift : ((x.bits >>> 52) &&& 0x7ff).toNat = x.expo := by
  have hmask : x.bits.toNat >>> 52 &&& 0x7ff = (x.bits.toNat >>> 52) % 2^11 := Nat.and_two_pow_sub_one_eq_mod _ 11
  rw [F64.expo, ← Nat.shiftRight_eq_div_pow, ← hmask]
  rfl

theorem mask_fields (s : BitVec 1) (e : BitVec 11) (f : BitVec 52) :
    (s ++ e ++ f) &&& (0x800fffffffffffff#64) ||| (0x3fe0000000000000#64) = s ++ 1022#11 ++ f := by
  have hand : (0x800fffffffffffff#64) = BitVec.allOnes 1 ++ 0#11 ++ BitVec.allOnes 52 := by decide
  have hor : (0x3fe0000000000000#64) = 0#1 ++ 1022#11 ++ 0#52 := by decide
  rw [hand, hor, BitVec.and_append, BitVec.and_append, BitVec.or_append, BitVec.or_append, BitVec.and_allOnes,
    BitVec.and_allOnes, BitVec.and_zero, BitVec.zero_or, BitVec.or_zero, BitVec.or_zero]

/-- The mantissa has the sign and the fraction of the number, and the exponent of one half. -/
theorem mant_fields : (⟨x.bits &&& 0x800fffffffffffff ||| 0x3fe0000000000000⟩ : F64) =
    F64.ofFields x.signBit 1022 x.frac := by
  have hx : x.bits.toBitVec = (F64.ofFields x.signBit x.expo x.frac).bits.toBitVec := by rw [F64.ofFields_self]
  rw [F64.bits_ofFields x.expo_lt x.frac_lt] at hx
  have hmant := F64.bits_ofFields (s := x.signBit) (e := 1022) (by decide) x.frac_lt
  have hmask := mask_fields (F64.sgn x.signBit).toBitVec (BitVec.ofNat 11 x.expo) (BitVec.ofNat 52 x.frac)
  have hbits : x.bits &&& 0x800fffffffffffff ||| 0x3fe0000000000000 = (F64.ofFields x.signBit 1022 x.frac).bits := by
    apply UInt64.toBitVec_inj.mp
    rw [UInt64.toBitVec_or, UInt64.toBitVec_and, hx, hmant]
    exact hmask
  exact congrArg F64.mk hbits

variable {x}

theorem feq_zero (hz : x.isZero = false) : x.feq .zero = false := by
  have hne : (x == F64.zero) = false := by
    apply beq_eq_false_iff_ne.mpr
    rintro rfl
    cases hz
  rw [F64.feq, hne, hz]
  simp

theorem normalize_self (hf : x.Finite) (hz : x.isZero = false) : x.normalize = x := by
  have hnan : x.isNaN = false := decide_eq_false fun h => by
    have hlt : x.expo < 2047 := hf
    omega
  rw [F64.normalize, hnan, hz]
  rfl

theorem isZero_of_expo {s : Bool} {e f : ℕ} (h0 : 0 < e) (he : e < 2^11) (hf : f < 2^52) :
    (F64.ofFields s e f).isZero = false := by
  have hexpo := F64.expo_ofFields (s := s) he hf
  rw [F64.isZero, decide_eq_false_iff_not]
  rintro (h | h) <;> rw [h] at hexpo
  · rw [← hexpo] at h0
    exact absurd h0 (by decide)
  · rw [← hexpo] at h0
    exact absurd h0 (by decide)

/-- The parts of a number: its fraction with the exponent of one half, and the exponent field less 1022. -/
theorem mathFrexp_eq (hz : x.isZero = false) : mathFrexp (.num x) =
    .ok (.num (F64.ofFields x.signBit 1022 x.frac), ofInt ((x.expo : ℤ) - 1022)) := by
  have hfin : (F64.ofFields x.signBit 1022 x.frac).Finite := by
    rw [F64.Finite, F64.expo_ofFields (by decide) x.frac_lt]
    decide
  rw [mathFrexp]
  dsimp only
  rw [feq_zero hz, if_neg Bool.false_ne_true, expo_shift, mant_fields, number,
    normalize_self hfin (isZero_of_expo (by decide) (by decide) x.frac_lt)]

/-- The value of a number that is not below the normal range. -/
theorem toRat_ofFields {s : Bool} {e f : ℕ} (h0 : 0 < e) (he : e < 2^11) (hf : f < 2^52) :
    (F64.ofFields s e f).toRat = (if s then -1 else 1) * (((2^52 + f : ℕ) : ℚ) * 2^((e : ℤ) - 1075)) := by
  have hne : ¬ e = 0 := by omega
  rw [F64.toRat, F64.signBit_ofFields he hf, F64.expo_ofFields he hf, F64.frac_ofFields he hf]
  simp only [hne, if_false]

theorem mant_bounds (s : Bool) {f : ℕ} (hf : f < 2^52) :
    1/2 ≤ |(F64.ofFields s 1022 f).toRat| ∧ |(F64.ofFields s 1022 f).toRat| < 1 := by
  have habs : |(F64.ofFields s 1022 f).toRat| = ((2^52 + f : ℕ) : ℚ) * 2^(-53 : ℤ) := by
    rw [toRat_ofFields (by decide) (by decide) hf, abs_mul]
    have hone : |(if s then -1 else 1 : ℚ)| = 1 := by cases s <;> simp
    rw [hone, one_mul]
    exact abs_of_nonneg (by positivity)
  have hpow : (2 : ℚ)^(-53 : ℤ) = 1 / 9007199254740992 := by norm_num
  have hlt : ((2^52 + f : ℕ) : ℚ) < 9007199254740992 := by exact_mod_cast (show 2^52 + f < 9007199254740992 by omega)
  have hle : (4503599627370496 : ℚ) ≤ ((2^52 + f : ℕ) : ℚ) := by exact_mod_cast Nat.le_add_right (2^52) f
  rw [habs, hpow]
  generalize ((2^52 + f : ℕ) : ℚ) = q at hlt hle
  constructor
  · linarith
  · linarith

end Frexp

/-! ### The composition -/

section Ldexp
variable {s : Bool} {f : ℕ} (hf : f < 2^52)

theorem powi2_eq {e : ℤ} (hlo : -1022 ≤ e) (hhi : e < 1024) : powi2 e = F64.ofFields false (e + 1023).toNat 0 := by
  rw [powi2, F64.exp2, if_neg (by omega), if_neg (by omega), if_pos hhi]

include hf

/-- Scaling a fraction to a normal number is exact. -/
theorem mul_powi2 {e : ℕ} (h0 : 0 < e) (he : e < 2046) :
    (F64.ofFields s 1022 f).mul (powi2 ((e : ℤ) - 1022)) = F64.ofFields s e f := by
  have hp := F64.pack_finite s (2^52 + f) e (by omega) (by omega) h0 (by omega) (h := by positivity)
  have hround := F64.round_exact (F64.sgn s) (m := (2^52 + f) * 2^52) (q := 2^52 + f) (l := 52) (e := (e : ℤ) - 1127)
    rfl (by omega) (by omega) (by omega)
  have hsign : F64.sgn s * F64.sgn false = F64.sgn s := by cases s <;> rfl
  rw [powi2_eq (by omega) (by omega), F64.mul, Float.Model.mul, F64.model_ofFields (by decide) (by decide) hf,
    F64.model_ofFields (by omega) (by omega) (by decide)]
  simp only [Float.Model.UnpackedFloat.mul, hsign]
  rw [show (1022 : ℕ) - (1075 : ℤ) + (((e : ℤ) - 1022 + 1023).toNat - 1075) = (e : ℤ) - 1127 by omega]
  rw [Nat.add_sub_cancel_left] at hp
  rw [← hp]
  congr 2
  refine hround.trans ?_
  exact F64.finite_congr rfl (by omega)

/-- From `2^1023` on the power of two is infinite, and so is the product. -/
theorem mul_powi2_infinite : ((F64.ofFields s 1022 f).mul (powi2 1024)) = F64.ofFields s 2047 0 := by
  have hinf : (powi2 1024).model.unpack = .infinity .positive := by
    rw [F64.unpack_model]
    rfl
  have hsign : F64.sgn s * .positive = F64.sgn s := by cases s <;> rfl
  rw [F64.mul, Float.Model.mul, F64.model_ofFields (by decide) (by decide) hf, hinf]
  simp only [Float.Model.UnpackedFloat.mul, hsign]
  have hp := F64.pack_parts (s := s) (e := 2047) (f := 0) (by decide) (by decide)
  rw [if_neg (by decide)] at hp
  exact hp

end Ldexp

/-! ### The inverse -/

section Inverse
variable {x : F64}

theorem sign_mul_natAbs (i : ℤ) : (if decide (i < 0) then -1 else 1 : ℚ) * (i.natAbs : ℚ) = i := by
  have habs : ((i.natAbs : ℤ) : ℚ) = |i| := by rw [Int.natCast_natAbs]
  rw [Int.cast_natCast] at habs
  rw [habs]
  by_cases hneg : i < 0
  · simp [hneg, abs_of_neg]
  · simp [hneg, abs_of_nonneg (not_lt.mp hneg)]

/-- An integer stands for itself. -/
theorem toRat_ofInt {i : ℤ} (hi : i.natAbs < 2^53) : (F64.ofInt i).Finite ∧ (F64.ofInt i).toRat = i := by
  by_cases h0 : i = 0
  · subst h0
    refine ⟨?_, by simp [F64.toRat, F64.ofInt, F64.zero, F64.expo, F64.frac]⟩
    rw [F64.Finite]
    decide
  · obtain ⟨hL, hlo, hhi⟩ := F64.ofInt_fields h0 hi
    refine ⟨?_, ?_⟩
    · rw [F64.Finite, F64.expo_ofInt h0 hi]
      omega
    · have hexp : ((1023 + i.natAbs.log2 : ℕ) : ℤ) - 1075 = -((52 - i.natAbs.log2 : ℕ) : ℤ) := by omega
      rw [F64.ofInt, if_neg h0, toRat_ofFields (by omega) (by omega) (by omega), Nat.add_sub_cancel' hlo, hexp,
        zpow_neg, zpow_natCast, Nat.cast_mul, Nat.cast_pow, Nat.cast_two, mul_assoc,
        mul_inv_cancel₀ (by positivity), mul_one]
      exact sign_mul_natAbs i

theorem mathLdexp_eq (m : F64) {e : ℤ} (hlo : -2^31 ≤ e) (hhi : e < 2^31) :
    mathLdexp (.num m) (.num (F64.ofInt e)) = .ok (number (m.mul (powi2 e))) := by
  rw [mathLdexp, F64.asI32_ofInt hlo hhi]

/-- The parts of the decomposition are determined. -/
theorem inverse_iff (hz : x.isZero = false) : Inverse x ↔
    (F64.ofFields x.signBit 1022 x.frac).toRat * 2^((x.expo : ℤ) - 1022) = x.toRat ∧
      number ((F64.ofFields x.signBit 1022 x.frac).mul (powi2 ((x.expo : ℤ) - 1022))) = .num x := by
  have he := x.expo_lt
  have hfin : (F64.ofFields x.signBit 1022 x.frac).Finite := by
    rw [F64.Finite, F64.expo_ofFields (by decide) x.frac_lt]
    decide
  have hbounds := mant_bounds x.signBit x.frac_lt
  have hint := toRat_ofInt (i := (x.expo : ℤ) - 1022) (by omega)
  rw [Inverse, mathFrexp_eq hz, LuaValue.ofInt_eq (by omega)]
  constructor
  · rintro ⟨m, n, e, hparts, -, -, hn, -, -, hval, hback⟩
    obtain ⟨hm, hexp⟩ := Prod.mk.inj (Except.ok.inj hparts)
    obtain rfl := LuaValue.num.inj hm
    obtain rfl := LuaValue.num.inj hexp
    obtain rfl : (x.expo : ℤ) - 1022 = e := by exact_mod_cast hint.2.symm.trans hn
    rw [mathLdexp_eq _ (by omega) (by omega)] at hback
    exact ⟨hval, Except.ok.inj hback⟩
  · rintro ⟨hval, hback⟩
    refine ⟨_, _, _, rfl, hfin, hint.1, hint.2, hbounds.1, hbounds.2, hval, ?_⟩
    rw [mathLdexp_eq _ (by omega) (by omega), hback]

/-- A normal number below `2^1023`. -/
theorem inverse_normal (h0 : 1 ≤ x.expo) (he : x.expo ≤ 2045) : Inverse x := by
  have hself := F64.ofFields_self x
  have hz : x.isZero = false := hself ▸ isZero_of_expo (by omega) x.expo_lt x.frac_lt
  refine (inverse_iff hz).mpr ⟨?_, ?_⟩
  · conv_rhs => rw [← hself]
    rw [toRat_ofFields (by decide) (by decide) x.frac_lt, toRat_ofFields (by omega) x.expo_lt x.frac_lt, mul_assoc,
      mul_assoc, ← zpow_add₀ two_ne_zero]
    congr 3
    omega
  · have hfin : x.Finite := by
      rw [F64.Finite]
      omega
    rw [mul_powi2 x.frac_lt h0 (by omega), hself, number, normalize_self hfin hz]

/-- The exponent of a subnormal number is taken for that of a normal one. -/
theorem not_inverse_subnormal (hz : x.isZero = false) (he : x.expo = 0) : ¬ Inverse x := by
  rw [inverse_iff hz, he]
  rintro ⟨hval, -⟩
  have hlt : (x.frac : ℚ) < 2^52 := by exact_mod_cast x.frac_lt
  have hs : (if x.signBit then -1 else 1 : ℚ) ≠ 0 := by cases x.signBit <;> norm_num
  have hscale : (2 : ℚ)^(((1022 : ℕ) : ℤ) - 1075) * 2^(((0 : ℕ) : ℤ) - 1022) = 2^(-1074 : ℤ) * (1/2) := by
    rw [← zpow_add₀ two_ne_zero, one_div, ← zpow_neg_one, ← zpow_add₀ two_ne_zero]
    rfl
  rw [toRat_ofFields (by decide) (by decide) x.frac_lt, F64.toRat, if_pos he, mul_assoc, mul_assoc, hscale,
    mul_right_inj' hs, mul_left_comm, mul_comm (x.frac : ℚ), mul_right_inj' (by positivity), Nat.cast_add,
    Nat.cast_pow, Nat.cast_two] at hval
  linarith

theorem isNaN_infinite (s : Bool) : (F64.ofFields s 2047 0).isNaN = false := by
  cases s <;> decide

/-- The power of two that a number from `2^1023` on needs is no double. -/
theorem not_inverse_huge (he : x.expo = 2046) : ¬ Inverse x := by
  have hz : x.isZero = false := F64.ofFields_self x ▸ isZero_of_expo (by omega) x.expo_lt x.frac_lt
  rw [inverse_iff hz, he]
  rintro ⟨-, hback⟩
  have hinf := F64.expo_ofFields (s := x.signBit) (e := 2047) (f := 0) (by decide) (by decide)
  rw [show ((2046 : ℕ) : ℤ) - 1022 = 1024 by decide, mul_powi2_infinite x.frac_lt, number] at hback
  rw [← LuaValue.num.inj hback, F64.normalize, isNaN_infinite, isZero_of_expo (by decide) (by decide) (by decide)] at he
  exact absurd (hinf.symm.trans he) (by decide)

/-- `math.frexp` and `math.ldexp` are inverse on a finite number other than zero exactly when it is normal and below
`2^1023`. -/
theorem frexp_ldexp_inverse (hfin : x.Finite) (hz : x.isZero = false) :
    Inverse x ↔ 1 ≤ x.expo ∧ x.expo ≤ 2045 := by
  have hlt : x.expo < 2047 := hfin
  constructor
  · intro hinv
    refine ⟨?_, ?_⟩
    · by_contra h0
      exact not_inverse_subnormal hz (by omega) hinv
    · by_contra he
      exact not_inverse_huge (by omega) hinv
  · exact fun h => inverse_normal h.1 h.2

/-- One and a half. -/
theorem frexp_ldexp_inverse_normal :
    Inverse (F64.ofFields false 1023 (2^51)) := by
  have hexpo := F64.expo_ofFields (s := false) (e := 1023) (f := 2^51) (by decide) (by decide)
  have hfin : (F64.ofFields false 1023 (2^51)).Finite := by
    rw [F64.Finite, hexpo]
    decide
  exact (frexp_ldexp_inverse hfin (isZero_of_expo (by decide) (by decide) (by decide))).mpr
    (by rw [hexpo]; decide)

/-- The least positive double: its mantissa comes out as that of a normal number. -/
theorem not_inverse_least : ¬ ∀ x : F64, x.Finite → x.isZero = false → Inverse x := by
  intro h
  have hfin : F64.Finite ⟨1⟩ := by
    rw [F64.Finite]
    decide
  exact not_inverse_subnormal (x := ⟨1⟩) (by decide) (by decide) (h ⟨1⟩ hfin (by decide))

end Inverse

end Scale
end LuajitRs
