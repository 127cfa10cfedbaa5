import LuajitRs.Lib.Nearest
import LuajitRs.Stdlib.Math.Scale
import LuajitRs.Util.F64.Convert

/-! The conversion of a number to a 32-bit word by an addition: below `2^51` in magnitude it rounds to the nearest
integer, and ties to even. -/
namespace LuajitRs.F64
open Float.Model Float.Model.UnpackedFloat Lib.Nearest

/-! ### The rounding of a shifted significand -/

theorem shift_stickyBit (m k : ℕ) :
    ((⟨m, false, false⟩ : ExtendedMantissa) >>> (k + 1)).stickyBit = (m % 2^k != 0) := by
  induction k with
  | zero => simp [HShiftRight.hShiftRight, Nat.repeat, ExtendedMantissa.shiftRightOne, Nat.mod_one]
  | succ k ih =>
    change ((⟨m, false, false⟩ : ExtendedMantissa) >>> (k + 1)).shiftRightOne.stickyBit = _
    have hmod : m % 2^(k+1) = m % 2^k + 2^k * (m / 2^k % 2) := Nat.mod_pow_succ
    have hpos : 0 < 2^k := by positivity
    rw [ExtendedMantissa.shiftRightOne, ih, shift_roundBit, hmod]
    rcases Nat.mod_two_eq_zero_or_one (m / 2^k) with h | h
    · simp [h]
    · simp [h]

theorem roundedTo_eq (m k : ℕ) : (roundedTo m k : ℤ) = roundEven ((m : ℚ) / 2^k) := by
  rw [roundEven_div_pow, roundedTo]
  cases k with
  | zero =>
    simp [HShiftRight.hShiftRight, Nat.repeat, ExtendedMantissa.roundedMantissa, ExtendedMantissa.accuracy,
      Accuracy.roundToNearestEven, Nat.mod_one]
  | succ k =>
    have hm := shift_mantissa ⟨m, false, false⟩ (k + 1)
    have hr := shift_roundBit ⟨m, false, false⟩ k
    have hs := shift_stickyBit m k
    have hmod : m % 2^(k+1) = m % 2^k + 2^k * (m / 2^k % 2) := Nat.mod_pow_succ
    have hlt : m % 2^k < 2^k := Nat.mod_lt _ (by positivity)
    have hpow : 2^(k+1) = 2 * 2^k := by ring
    generalize (⟨m, false, false⟩ : ExtendedMantissa) >>> (k + 1) = em at hm hr hs
    obtain ⟨q, r, s⟩ := em
    dsimp only at hm hr hs
    subst hm hr hs
    rw [hmod, hpow]
    generalize m / (2 * 2^k) = q
    generalize m % 2^k = a at hlt ⊢
    generalize 2^k = p at hlt ⊢
    -- The round bit says whether at least half is left, the sticky bit whether there is more.
    rcases Nat.mod_two_eq_zero_or_one (m / p) with hb | hb
    · rw [hb, if_pos (by omega)]
      cases a with
      | zero => rfl
      | succ a => rfl
    · rw [hb, if_neg (by omega)]
      cases a with
      | zero =>
        rw [if_neg (by omega)]
        rfl
      | succ a =>
        rw [if_pos (by omega)]
        rfl

/-! ### The addition -/

/-- The significand of a number as a natural number, and how many of its bits are behind the point. -/
def significand (x : F64) : ℕ := if x.expo = 0 then x.frac else 2^52 + x.frac
def places (x : F64) : ℕ := 1075 - max x.expo 1

section Tobit
variable {x : F64} (hx : x.expo < 1074)
include hx

theorem toRat_significand : x.toRat = ((sgn x.signBit).apply x.significand : ℤ) / 2^x.places := by
  have hpow : (2 : ℚ)^(-(x.places : ℤ)) = 1 / 2^x.places := by rw [zpow_neg, zpow_natCast, one_div]
  have hval : (if x.expo = 0 then (x.frac : ℚ) * 2^(-1074 : ℤ) else ((2^52 + x.frac : ℕ) : ℚ) * 2^((x.expo : ℤ) - 1075)) =
      (x.significand : ℚ) * 2^(-(x.places : ℤ)) := by
    rw [significand, places]
    split_ifs with h0
    · rw [h0]
      rfl
    · congr 2
      omega
  rw [toRat, hval, hpow]
  cases x.signBit
  · simp [sgn, Sign.apply, div_eq_mul_inv]
  · simp [sgn, Sign.apply, div_eq_mul_inv]

theorem significand_lt : x.significand < 2^51 * 2^x.places := by
  have hf := x.frac_lt
  have hpow : 2^53 ≤ 2^51 * 2^x.places := by
    rw [← pow_add]
    exact Nat.pow_le_pow_right (by decide) (by rw [places]; omega)
  rw [significand]
  split_ifs <;> omega

theorem unpack_significand (h0 : 0 < x.significand) :
    x.model.unpack = .finite (sgn x.signBit) x.significand (-(x.places : ℤ)) h0 := by
  rw [unpack_model, parts, if_neg (by omega)]
  split_ifs with he hf
  · rw [significand, if_pos he] at h0
    omega
  · exact finite_congr (by rw [significand, if_pos he]) (by rw [places, he]; rfl)
  · exact finite_congr (by rw [significand, if_neg he]) (by rw [places]; omega)

end Tobit

/-- The sum as a natural number with `k` binary places. -/
def sumWith (a : ℤ) (k : ℕ) : ℕ := (a + 6755399441055744 * 2^k).toNat

section Sum
variable {a : ℤ} {k : ℕ} (ha : a.natAbs < 2^51 * 2^k)
include ha

theorem sumWith_cast : (sumWith a k : ℤ) = a + 6755399441055744 * 2^k := by
  have hcast : (a.natAbs : ℤ) < 2^51 * 2^k := by exact_mod_cast ha
  have hpos : (0 : ℤ) < 2^k := by positivity
  rw [sumWith, Int.toNat_of_nonneg]
  generalize (2 : ℤ)^k = p at hcast hpos ⊢
  omega

theorem log2_sumWith : (sumWith a k).log2 = 52 + k ∧ sumWith a k ≠ 0 := by
  have hcast : (a.natAbs : ℤ) < 2^51 * 2^k := by exact_mod_cast ha
  have hpos : (0 : ℤ) < 2^k := by positivity
  have hsum := sumWith_cast ha
  have hlo : 2^(52 + k) ≤ sumWith a k := by
    zify
    rw [pow_add, hsum]
    generalize (2 : ℤ)^k = p at hcast hpos ⊢
    omega
  have hhi : sumWith a k < 2^(52 + k + 1) := by
    zify
    rw [show 52 + k + 1 = 53 + k by omega, pow_add, hsum]
    generalize (2 : ℤ)^k = p at hcast hpos ⊢
    omega
  have hne : sumWith a k ≠ 0 := by
    have : 0 < 2^(52 + k) := by positivity
    omega
  exact ⟨(Nat.log2_eq_iff hne).mpr ⟨hlo, hhi⟩, hne⟩

theorem normalize_sum : UnpackedFloat.normalize b64 (a + 6755399441055744 * 2^k) (-(k : ℤ)) .positive =
    roundWithAccuracy b64 (sgn false) (sumWith a k) (-(k : ℤ)) .exact := by
  obtain ⟨hlog, hne⟩ := log2_sumWith ha
  have hsum := sumWith_cast ha
  have hc : compare (a + 6755399441055744 * 2^k) 0 = .gt := by
    rw [compare_gt_iff_gt, ← hsum]
    exact_mod_cast Nat.pos_of_ne_zero hne
  have ht : b64.targetExponent (totalExponent (sumWith a k) (-(k : ℤ))) = 0 := by
    rw [targetExponent_eq (by rw [totalExponent, hlog]; omega), totalExponent, hlog]
    omega
  simp only [UnpackedFloat.normalize, hc]
  rw [← sumWith, UnpackedFloat.round, ht]
  simp only [decreaseExponent]
  rw [show (-(k : ℤ) - 0).toNat = 0 by omega, Nat.shiftLeft_zero, Nat.cast_zero, sub_zero]
  rfl

/-- The low word of the rounded sum. -/
theorem bits_sum : (ofModel (.pack (roundWithAccuracy b64 (sgn false) (sumWith a k) (-(k : ℤ)) .exact))).bits.toNat % 2^32 =
    roundedTo (sumWith a k) k % 2^32 := by
  obtain ⟨hlog, hne⟩ := log2_sumWith ha
  obtain ⟨hlo, hhi⟩ := roundedTo_bounds hlog hne
  rcases hhi.lt_or_eq with hlt | heq
  · have hpos : 0 < roundedTo (sumWith a k) k := by omega
    have hp := pack_finite false (roundedTo (sumWith a k) k) 1075 hlo hlt (by decide) (by decide) (h := hpos)
    have hexp : UnpackedFloat.finite (sgn false) _ (-(k : ℤ) + k) hpos = .finite (sgn false) _ (((1075 : ℕ) : ℤ) - 1075) hpos :=
      finite_congr rfl (by omega)
    rw [round_stays hlog hne (sgn false) (by omega) hlt hpos, hexp, hp, toNat_ofFields (by decide) (by omega)]
    simp only [Bool.false_eq_true, if_false]
    omega
  · have hp := pack_finite false (2^52) 1076 le_rfl (by norm_num) (by decide) (by decide) (h := by positivity)
    have hpos : 0 < 2^52 := by positivity
    have hexp : UnpackedFloat.finite (sgn false) _ (-(k : ℤ) + k + 1) hpos = .finite (sgn false) _ (((1076 : ℕ) : ℤ) - 1075) hpos :=
      finite_congr rfl (by omega)
    rw [round_carries hlog (sgn false) (by omega) heq, hexp, hp, toNat_ofFields (by decide) (by omega), heq]
    rfl

end Sum

theorem unpack_magic : (ofInt 6755399441055744).model.unpack = .finite .positive 6755399441055744 0 (by decide) :=
  unpack_ofInt (by decide)

theorem natAbs_lt {x : F64} (hx : x.expo < 1074) :
    ((sgn x.signBit).apply x.significand).natAbs < 2^51 * 2^x.places := by
  have := significand_lt hx
  cases x.signBit <;> simpa [sgn, Sign.apply] using this

theorem add_magic {x : F64} (hx : x.expo < 1074) (h0 : 0 < x.significand) :
    x.add (ofInt 6755399441055744) = ofModel (.pack (roundWithAccuracy b64 (sgn false)
      (sumWith ((sgn x.signBit).apply x.significand) x.places) (-(x.places : ℤ)) .exact)) := by
  have habs := natAbs_lt hx
  rw [add, Float.Model.add, unpack_significand hx h0, unpack_magic]
  have hmin : min (-(x.places : ℤ)) 0 = -(x.places : ℤ) := by omega
  simp only [UnpackedFloat.add, hmin, decreaseExponent]
  rw [← normalize_sum habs, sub_self, Int.toNat_zero, Nat.shiftLeft_zero,
    show (0 - -(x.places : ℤ)).toNat = x.places by omega, Nat.shiftLeft_eq]
  simp [Sign.apply]

/-- Below `2^51` in magnitude the conversion rounds to the nearest integer, and ties to even. -/
theorem num2bit_eq_roundEven {x : F64} (hx : x.expo < 1074) : x.num2bit = .ofInt 32 (roundEven x.toRat) := by
  have hlow (i : ℤ) (n : ℕ) (h : (n : ℤ) % 2^32 = i % 2^32) : BitVec.ofNat 32 n = .ofInt 32 i := by
    apply BitVec.eq_of_toNat_eq
    rw [BitVec.toNat_ofNat, BitVec.toNat_ofInt]
    omega
  rw [num2bit]
  apply hlow
  rcases Nat.eq_zero_or_pos x.significand with h0 | h0
  · have hrat : x.toRat = 0 := by
      rw [toRat_significand hx, h0]
      cases x.signBit <;> simp [sgn, Sign.apply]
    have hadd : x.add (ofInt 6755399441055744) = ofInt 6755399441055744 := by
      have hzero : x.model.unpack = .zero (sgn x.signBit) := by
        rw [significand] at h0
        have he : x.expo = 0 := by
          by_contra he
          rw [if_neg he] at h0
          omega
        rw [if_pos he] at h0
        rw [unpack_model, parts, he, h0]
        rfl
      rw [add, Float.Model.add, hzero, unpack_magic]
      exact pack_unpackedInt (i := 6755399441055744) (by decide)
    have hround : roundEven 0 = 0 := by simp [roundEven]
    rw [hadd, hrat, hround]
    decide
  · have ha := natAbs_lt hx
    have hbits := bits_sum ha
    have hround := roundedTo_eq (sumWith ((sgn x.signBit).apply x.significand) x.places) x.places
    have hsum : ((sumWith ((sgn x.signBit).apply x.significand) x.places : ℕ) : ℚ) / 2^x.places =
        x.toRat + (6755399441055744 : ℤ) := by
      have hcast : ((sumWith ((sgn x.signBit).apply x.significand) x.places : ℕ) : ℚ) =
          ((sgn x.signBit).apply x.significand : ℤ) + 6755399441055744 * 2^x.places := by
        exact_mod_cast congrArg (Int.cast (R := ℚ)) (sumWith_cast ha)
      rw [hcast, add_div, toRat_significand hx, mul_div_assoc, div_self (by positivity), mul_one]
      norm_cast
    rw [hsum, roundEven_add_even _ (by decide)] at hround
    rw [← add_magic hx h0] at hbits
    omega

end LuajitRs.F64
