import LuajitRs.Util.F64.Exact
import LuajitRs.Util.F64.Order

/-! The conversions of numbers: to a 32-bit word, on the numbers that are such a word; from integers of 64 bits; and to
single precision, where a double that is small enough in its bits is far below the least single. -/
namespace LuajitRs.F64

theorem toInt_bounds (x : BitVec 32) : -2^31 ≤ x.toInt ∧ x.toInt < 2^31 := by
  have h := x.le_toInt
  have h' := x.toInt_lt
  omega

/-- The bits of an integer in the binade of `2^52`. -/
theorem bits_ofInt_high {n : ℕ} (hlo : 2^52 ≤ n) (hhi : n < 2^53) : (ofInt n).bits.toNat = 1074 * 2^52 + n := by
  have hlog : n.log2 = 52 := log2_of_significand hlo hhi
  rw [ofInt, if_neg (by omega)]
  simp only [Int.natAbs_natCast, hlog]
  rw [toNat_ofFields (by omega) (by omega)]
  simp only [Nat.sub_self, pow_zero, mul_one]
  rw [if_neg (by simp)]
  omega

theorem num2bit_ofInt32 (x : BitVec 32) : (ofInt32 x).num2bit = x := by
  have hx := toInt_bounds x
  have hn : ((x.toInt + 6755399441055744).toNat : ℤ) = x.toInt + 6755399441055744 := by omega
  rw [num2bit, ofInt32, add_ofInt_of_fits (by omega) (by omega) (by omega), ← hn,
    bits_ofInt_high (by omega) (by omega)]
  apply BitVec.eq_of_toNat_eq
  rw [BitVec.toNat_ofNat, BitVec.toInt_eq_toNat_cond] at *
  split_ifs at hn ⊢ <;> omega

theorem asInt32_ofInt32 (x : BitVec 32) : (ofInt32 x).asInt32 = x := by
  have hx := toInt_bounds x
  rw [asInt32, ofInt32, asI32_ofInt hx.1 hx.2, BitVec.ofInt_toInt]

/-- The low word of the truncation. -/
theorem asInt64_ofInt32 (x : BitVec 32) : (ofInt32 x).asInt64.setWidth 32 = x := by
  have hx := toInt_bounds x
  rw [asInt64, ofInt32, isNaN_ofInt (by omega), trunc_ofInt (by omega)]
  simp only [Bool.false_eq_true, if_false]
  rw [max_eq_right (by omega), min_eq_right (by omega)]
  apply BitVec.eq_of_toNat_eq
  have := x.toInt_eq_toNat_cond
  rw [BitVec.toNat_setWidth, BitVec.toNat_ofInt]
  split_ifs at this <;> omega

/-- The conversion to `u32` saturates: a negative word becomes zero. -/
theorem asU32_ofInt32 (x : BitVec 32) : (ofInt32 x).asU32 = if 0 ≤ x.toInt then x.toNat else 0 := by
  have hx := toInt_bounds x
  rw [asU32, ofInt32, isNaN_ofInt (by omega), trunc_ofInt (by omega)]
  have := x.toInt_eq_toNat_cond
  simp only [Bool.false_eq_true, if_false]
  split_ifs at this ⊢ <;> omega

theorem ofInt32_inj {x y : BitVec 32} : ofInt32 x = ofInt32 y ↔ x = y := by
  have hx := toInt_bounds x
  have hy := toInt_bounds y
  exact ⟨fun h => BitVec.eq_of_toInt_eq (ofInt_inj (by omega) (by omega) h), fun h => h ▸ rfl⟩

end LuajitRs.F64

namespace LuajitRs.F64
open Float.Model Float.Model.UnpackedFloat

theorem isNaN_ofFields {s : Bool} {e f : ℕ} (he : e < 2047) (hf : f < 2^52) : (ofFields s e f).isNaN = false := by
  simp only [isNaN, decide_eq_false_iff_not, expo_ofFields (show e < 2^11 by omega) hf]
  omega

/-- An integer with too many bits is rounded to a finite number. -/
theorem isNaN_round (s : Bool) {n : ℕ} (hlo : 2^53 ≤ n) (hhi : n ≤ 2^64) :
    (ofModel (.pack (UnpackedFloat.round b64 (sgn s) n 0))).isNaN = false := by
  have hne : n ≠ 0 := by omega
  have hlog : 53 ≤ n.log2 := (Nat.le_log2 hne).mpr hlo
  have hlog' : n.log2 < 65 := (Nat.log2_lt hne).mpr (by omega)
  have ht : b64.targetExponent (totalExponent n 0) = n.log2 - 52 := by
    rw [targetExponent_eq (by rw [totalExponent]; omega), totalExponent]
    omega
  have hround : UnpackedFloat.round b64 (sgn s) n 0 = roundWithAccuracy b64 (sgn s) n 0 .exact := by
    simp only [UnpackedFloat.round, ht, decreaseExponent]
    rw [show (0 - ((n.log2 : ℤ) - 52)).toNat = 0 by omega, Nat.shiftLeft_zero]
    rfl
  obtain ⟨q, e', hpos, hq, hqlo, hqhi, helo, hehi⟩ := round_magnitude (sgn s) (m := n) (e := 0) (by omega) hne (by omega)
  have hexp : UnpackedFloat.finite (sgn s) q e' hpos = .finite (sgn s) q (((e' + 1075).toNat : ℤ) - 1075) hpos :=
    finite_congr rfl (by omega)
  rw [hround, hq, hexp, pack_finite s q _ hqlo hqhi (by omega) (by omega)]
  exact isNaN_ofFields (by omega) (by omega)

/-- The double nearest to a 64-bit integer is a number. -/
theorem isNaN_ofWide {i : ℤ} (h : i.natAbs ≤ 2^64) : (ofModel (.ofInt i)).isNaN = false := by
  rcases Nat.lt_or_ge i.natAbs (2^53) with hlt | hge
  · have hn := normalize_int 0 hlt
    rw [pow_zero, mul_one] at hn
    have hint : ofModel (.ofInt i) = ofInt i := by
      rw [← pack_unpackedInt hlt, ← hn]
      rfl
    rw [hint, isNaN_ofInt hlt]
  · rcases lt_or_ge i 0 with hneg | hpos
    · have hc : compare i 0 = .lt := compare_lt_iff_lt.mpr hneg
      have hround := isNaN_round true (n := (-i).toNat) (by omega) (by omega)
      simp only [Float.Model.ofInt, UnpackedFloat.ofInt, UnpackedFloat.normalize, hc]
      exact hround
    · have hc : compare i 0 = .gt := compare_gt_iff_gt.mpr (by omega)
      have hround := isNaN_round false (n := i.toNat) (by omega) (by omega)
      simp only [Float.Model.ofInt, UnpackedFloat.ofInt, UnpackedFloat.normalize, hc]
      exact hround

end LuajitRs.F64

namespace LuajitRs.F64
open Float.Model Float.Model.UnpackedFloat

theorem shift_roundBit (em : ExtendedMantissa) (n : ℕ) :
    (em >>> (n + 1)).roundBit = (em.mantissa / 2^n % 2 != 0) := by
  rw [← shift_mantissa]
  rfl

theorem rounds_down (em : ExtendedMantissa) (h : em.roundBit = false) : em.roundedMantissa = em.mantissa := by
  obtain ⟨m, r, s⟩ := em
  obtain rfl : r = false := h
  cases s <;> rfl

/-- A significand below `2^32` with the least exponent of a double rounds to zero. -/
theorem round_tiny (s : Sign) {m : ℕ} (hm : m < 2^32) : UnpackedFloat.round .binary32 s m (-1074) = .zero s := by
  have hlog : m.log2 < 32 := by
    by_cases h0 : m = 0
    · rw [h0]
      decide
    · exact (Nat.log2_lt h0).mpr hm
  have ht : Format.binary32.targetExponent (totalExponent m (-1074)) = -149 := by
    simp only [Format.targetExponent, Format.minExponent, Format.mantissaBits, totalExponent]
    omega
  have hdiv : ∀ n, 32 ≤ n → m / 2^n = 0 := fun n hn =>
    Nat.div_eq_of_lt (hm.trans_le (Nat.pow_le_pow_right (by decide) hn))
  have hbit : ((⟨m, false, false⟩ : ExtendedMantissa) >>> 925).roundedMantissa = 0 := by
    rw [rounds_down _ (by rw [shift_roundBit, hdiv _ (by decide)]; rfl), shift_mantissa, hdiv _ (by decide)]
  have hfst : shiftToTargetExponent .binary32 m (-1074) .exact =
      ((⟨m, false, false⟩ : ExtendedMantissa) >>> 925, (-149 : ℤ)) := by
    simp only [shiftToTargetExponent, ht, shiftToExponent, ExtendedMantissa.ofMantissaAndAccuracy]
    rfl
  have hdec : decreaseExponent m (-1074) (-149) = (m, (-1074 : ℤ)) := by
    simp [decreaseExponent]
  unfold UnpackedFloat.round
  simp only [ht, hdec, roundWithAccuracy, hfst, hbit]
  rfl

/-- Only positive zero has the bits of its single, padded with zeros. -/
theorem asF32_eq_bits {x : F64} : x.asF32.setWidth 64 = x.bits.toBitVec ↔ x = zero := by
  constructor
  · intro h
    have hlt : x.bits.toNat < 2^32 := by
      have hnat : (x.asF32.setWidth 64).toNat = x.bits.toNat := congrArg BitVec.toNat h
      rw [BitVec.toNat_setWidth, Nat.mod_eq_of_lt (by have := x.asF32.isLt; omega)] at hnat
      have := x.asF32.isLt
      omega
    have hexpo : x.expo = 0 := by rw [expo]; omega
    have hfrac : x.frac = x.bits.toNat := by rw [frac]; omega
    have hsign : x.signBit = false := decide_eq_false (by omega)
    have hunpack := unpack_model (x := x)
    have hbits : x.asF32 = 0 := by
      rw [asF32, hunpack, hsign, hexpo, hfrac, parts, if_neg (by decide), if_pos rfl]
      split_ifs with h0
      · rfl
      · dsimp only
        rw [round_tiny _ hlt]
        rfl
    rw [hbits] at h
    have hzero : x.bits = 0 := by
      apply UInt64.toBitVec_inj.mp
      exact h.symm
    exact congrArg F64.mk hzero
  · rintro rfl
    decide

end LuajitRs.F64
