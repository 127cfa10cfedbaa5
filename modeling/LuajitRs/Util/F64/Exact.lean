import LuajitRs.Util.F64
import Mathlib

/-! Rounded arithmetic is exact on integers: sums and differences of integers below `2^52`, products that
stay below `2^53`, and the comparisons of integers. A product has the sign of its factors also when it is
zero, so negative zero is the one result that is not a converted integer. -/
namespace LuajitRs
open Float.Model Float.Model.UnpackedFloat

namespace F64

/-! ### Packed and unpacked numbers -/

abbrev b64 : Format := .binary64

def sgn (s : Bool) : Sign := if s then .negative else .positive

theorem packComponents_toNat (s : Bool) (e f : ℕ) (he : e < 2^11) (hf : f < 2^52) :
    (packComponents b64 (sgn s) (BitVec.ofNat _ e) (BitVec.ofNat _ f)).toNat =
      (if s then 2^63 else 0) + e*2^52 + f := by
  have hs : (sgn s).toBitVec.toNat = if s then 1 else 0 := by cases s <;> rfl
  simp only [packComponents, BitVec.toNat_append, BitVec.toNat_ofNat, hs]
  rw [Nat.mod_eq_of_lt hf, Nat.mod_eq_of_lt he, ← Nat.shiftLeft_add_eq_or_of_lt he,
    ← Nat.shiftLeft_add_eq_or_of_lt hf, Nat.shiftLeft_eq, Nat.shiftLeft_eq]
  cases s <;> simp <;> omega

theorem pack_finite (s : Bool) (m e : ℕ) (hm : 2^52 ≤ m) (hm' : m < 2^53) (he : 0 < e) (he' : e < 2047)
   {h : 0 < m} :
    ofModel (Float.Model.pack (.finite (sgn s) m ((e : ℤ) - 1075) h)) = ofFields s e (m - 2^52) := by
  have hlog : m.log2 = 52 := by
    rw [Nat.log2_eq_iff (by omega)]; omega
  have hb : ((e : ℤ) - 1075 + (b64.exponentBias : ℕ) + (b64.mantissaBitsWithoutImplicit : ℕ)).toNat = e := by
    simp only [Format.exponentBias]; omega
  have hpack : UnpackedFloat.pack b64 (.finite (sgn s) m ((e : ℤ) - 1075) h) =
      packComponents b64 (sgn s) (BitVec.ofNat _ e) (BitVec.ofNat _ m) := by
    simp only [UnpackedFloat.pack, hb, hlog]
    rw [if_neg (by simp; omega), if_pos (by rfl)]
  have hmant : BitVec.ofNat 52 m = BitVec.ofNat 52 (m - 2^52) := by
    apply BitVec.eq_of_toNat_eq
    simp only [BitVec.toNat_ofNat]; omega
  have hn := packComponents_toNat s e (m - 2^52) (by omega) (by omega)
  have hlt : (if s then 2^63 else 0) + e*2^52 + (m - 2^52) < 2^64 := by cases s <;> simp <;> omega
  simp only [ofModel, Float.Model.pack, hpack, ofFields, F64.mk.injEq]
  apply UInt64.toNat_inj.mp
  rw [UInt64.toNat_ofNat', Nat.mod_eq_of_lt hlt, ← hn]
  simp only [UInt64.toNat_ofBitVec]
  rw [← hmant]

theorem unpackSign_packComponents (s : Sign) (e : BitVec 11) (f : BitVec 52) :
    unpackSign (packComponents b64 s e f) = s.toBitVec := by
  ext i hi
  obtain rfl : i = 0 := by omega
  have h : (s.toBitVec ++ e ++ f).getLsbD 63 = s.toBitVec.getLsbD 0 := by
    rw [BitVec.getLsbD_append, BitVec.getLsbD_append]
    simp
  have h0 : s.toBitVec.getLsbD 0 = s.toBitVec[0] := BitVec.getLsbD_eq_getElem (by omega)
  simp only [unpackSign, packComponents, BitVec.getElem_cast, BitVec.extractLsb, BitVec.getElem_extractLsb']
  exact h.trans h0

theorem ofBitVec_sgn (s : Bool) : Sign.ofBitVec (sgn s).toBitVec = sgn s := by cases s <;> rfl

theorem bits_ofFields {s : Bool} {e f : ℕ} (he : e < 2^11) (hf : f < 2^52) :
    (ofFields s e f).bits.toBitVec = packComponents b64 (sgn s) (BitVec.ofNat _ e) (BitVec.ofNat _ f) := by
  apply BitVec.eq_of_toNat_eq
  rw [packComponents_toNat s e f he hf]
  exact toNat_ofFields he hf

theorem unpack_ofFields {s : Bool} {e f : ℕ} (he : 0 < e) (he' : e < 2047) (hf : f < 2^52) :
    UnpackedFloat.unpack b64 (ofFields s e f).bits.toBitVec =
      .finite (sgn s) (2^52 + f) ((e : ℤ) - 1075) (by positivity) := by
  rw [bits_ofFields (by omega) hf]
  have h1 : (BitVec.ofNat 11 e) ≠ -1#11 := by
    intro h; have := congrArg BitVec.toNat h; simp at this; omega
  have h2 : (BitVec.ofNat 11 e) ≠ 0#11 := by
    intro h; have := congrArg BitVec.toNat h; simp at this; omega
  have hm : (1#1 ++ BitVec.ofNat 52 f).toNat = 2^52 + f := by
    rw [BitVec.toNat_append, BitVec.toNat_ofNat, BitVec.toNat_ofNat, Nat.mod_eq_of_lt hf,
      ← Nat.shiftLeft_add_eq_or_of_lt hf]
    rfl
  simp only [UnpackedFloat.unpack, unpackMantissa_packComponents, unpackExponent_packComponents,
    unpackSign_packComponents, ofBitVec_sgn]
  rw [if_neg h1, if_neg h2]
  congr 1
  simp only [BitVec.toNat_ofNat, Format.exponentBias]
  omega

theorem model_ofFields {s : Bool} {e f : ℕ} (he : 0 < e) (he' : e < 2047) (hf : f < 2^52) :
    (ofFields s e f).model.unpack = .finite (sgn s) (2^52 + f) ((e : ℤ) - 1075) (by positivity) := by
  have hu := unpack_ofFields (s := s) he he' hf
  have hp := pack_finite s (2^52 + f) e (by omega) (by omega) he he' (h := by positivity)
  rw [Nat.add_sub_cancel_left] at hp
  have hb : (Float.Model.pack (.finite (sgn s) (2^52 + f) ((e : ℤ) - 1075) (by positivity))).toBits =
      (ofFields s e f).bits := congrArg F64.bits hp
  rw [model, Float.Model.ofBits, hu, Float.Model.unpack, hb]
  exact hu

/-! ### Exact rounding -/

theorem shift_mantissa (em : ExtendedMantissa) (n : ℕ) : (em >>> n).mantissa = em.mantissa / 2^n := by
  induction n with
  | zero => simp [HShiftRight.hShiftRight, Nat.repeat]
  | succ n ih =>
    change ((em >>> n).shiftRightOne).mantissa = _
    rw [ExtendedMantissa.shiftRightOne, ih, Nat.div_div_eq_div_mul, pow_succ]

theorem shift_exact (q n : ℕ) :
    ((⟨q * 2^n, false, false⟩ : ExtendedMantissa) >>> n) = ⟨q, false, false⟩ := by
  induction n generalizing q with
  | zero => simp [HShiftRight.hShiftRight, Nat.repeat]
  | succ n ih =>
    have h : q * 2^(n+1) = (q * 2) * 2^n := by rw [pow_succ]; ring
    change ((⟨q * 2^(n+1), false, false⟩ : ExtendedMantissa) >>> n).shiftRightOne = _
    rw [h, ih, ExtendedMantissa.shiftRightOne]
    simp

theorem log2_mul_pow {q n k : ℕ} (h : q.log2 = k) (hq : q ≠ 0) : (q * 2^n).log2 = k + n := by
  have hne : q * 2^n ≠ 0 := by positivity
  obtain ⟨hlo, hhi⟩ := (Nat.log2_eq_iff hq).mp h
  rw [Nat.log2_eq_iff hne]
  constructor
  · rw [pow_add]; exact Nat.mul_le_mul_right _ hlo
  · rw [show k + n + 1 = (k + 1) + n by omega, pow_add _ (k+1)]
    exact Nat.mul_lt_mul_of_pos_right hhi (by positivity)

theorem log2_of_significand {q : ℕ} (hlo : 2^52 ≤ q) (hhi : q < 2^53) : q.log2 = 52 := by
  rw [Nat.log2_eq_iff (by omega)]; omega

theorem targetExponent_eq {t : ℤ} (h : -1021 ≤ t) : b64.targetExponent t = t - 53 := by
  simp only [Format.targetExponent, Format.minExponent, Format.mantissaBits]
  omega

theorem round_exact (s : Sign) {m q l : ℕ} {e : ℤ} (hm : m = q * 2^l) (hlo : 2^52 ≤ q) (hhi : q < 2^53)
    (he : -1074 ≤ e + l) :
    roundWithAccuracy b64 s m e .exact = .finite s q (e + l) (by omega) := by
  have hq := log2_of_significand hlo hhi
  have hlog : m.log2 = 52 + l := by rw [hm]; exact log2_mul_pow hq (by omega)
  have ht : b64.targetExponent (totalExponent m e) = e + l := by
    rw [targetExponent_eq (by rw [totalExponent, hlog]; omega), totalExponent, hlog]; omega
  have ht' : b64.targetExponent (totalExponent q (e + l)) = e + l := by
    rw [targetExponent_eq (by rw [totalExponent, hq]; omega), totalExponent, hq]; omega
  have hs1 : shiftToTargetExponent b64 m e .exact = (⟨q, false, false⟩, e + l) := by
    simp only [shiftToTargetExponent, ht, shiftToExponent, ExtendedMantissa.ofMantissaAndAccuracy]
    rw [show (e + l - e).toNat = l by omega, hm, shift_exact]
  have hs2 : shiftToTargetExponent b64 q (e + l) .exact = (⟨q, false, false⟩, e + l) := by
    simp only [shiftToTargetExponent, ht', shiftToExponent, ExtendedMantissa.ofMantissaAndAccuracy]
    rw [show (e + l - (e + l)).toNat = 0 by omega]
    simp [HShiftRight.hShiftRight, Nat.repeat]
  simp only [roundWithAccuracy, hs1, ExtendedMantissa.roundedMantissa, ExtendedMantissa.accuracy,
    Accuracy.roundToNearestEven, hs2]
  rw [dif_neg (by omega)]

/-- The significand and the exponent of a positive integer below `2^53`. -/
theorem significand_bounds {n : ℕ} (h0 : 0 < n) (h : n < 2^53) :
    n.log2 ≤ 52 ∧ 2^52 ≤ n * 2^(52 - n.log2) ∧ n * 2^(52 - n.log2) < 2^53 := by
  have := ofInt_fields (i := (n : ℤ)) (by omega) (by simpa using h)
  simpa using this

/-- Rounding an integer that is given with `k` binary places. -/
theorem round_int (s : Sign) {n k : ℕ} (h0 : 0 < n) (h : n < 2^53) :
    UnpackedFloat.round b64 s (n * 2^k) (-(k : ℤ)) =
      .finite s (n * 2^(52 - n.log2)) ((n.log2 : ℤ) - 52) (by positivity) := by
  obtain ⟨hL, hlo, hhi⟩ := significand_bounds h0 h
  have hlog : (n * 2^k).log2 = n.log2 + k := log2_mul_pow rfl (by omega)
  have ht : b64.targetExponent (totalExponent (n * 2^k) (-(k : ℤ))) = n.log2 - 52 := by
    rw [targetExponent_eq (by rw [totalExponent, hlog]; omega), totalExponent, hlog]; omega
  simp only [UnpackedFloat.round, ht, decreaseExponent]
  by_cases hk : k + n.log2 ≤ 52
  · rw [show (-(k : ℤ) - (n.log2 - 52)).toNat = 52 - n.log2 - k by omega, Nat.shiftLeft_eq, mul_assoc,
      ← pow_add, show k + (52 - n.log2 - k) = 52 - n.log2 by omega,
      round_exact s (l := 0) (by rw [pow_zero, mul_one]) hlo hhi (by omega)]
    congr 1
    omega
  · rw [show (-(k : ℤ) - (n.log2 - 52)).toNat = 0 by omega, Nat.shiftLeft_zero,
      round_exact s (q := n * 2^(52 - n.log2)) (l := k + n.log2 - 52) _ hlo hhi (by omega)]
    · congr 1
      omega
    · rw [mul_assoc, ← pow_add]
      congr 2
      omega

theorem mul_round_int (s : Sign) {n k : ℕ} (h0 : 0 < n) (h : n < 2^53) (hk : 52 ≤ k + n.log2) :
    roundWithAccuracy b64 s (n * 2^k) (-(k : ℤ)) .exact =
      .finite s (n * 2^(52 - n.log2)) ((n.log2 : ℤ) - 52) (by positivity) := by
  obtain ⟨hL, hlo, hhi⟩ := significand_bounds h0 h
  rw [round_exact s (q := n * 2^(52 - n.log2)) (l := k + n.log2 - 52) _ hlo hhi (by omega)]
  · congr 1
    omega
  · rw [mul_assoc, ← pow_add]
    congr 2
    omega

/-! ### Arithmetic on integers -/

/-- The number that an integer is in the rounding arithmetic. -/
def unpackedInt (i : ℤ) : UnpackedFloat :=
  if h : i = 0 then .zero .positive
  else .finite (sgn (i < 0)) (i.natAbs * 2^(52 - i.natAbs.log2)) ((i.natAbs.log2 : ℤ) - 52)
    (Nat.mul_pos (by omega) (by positivity))

theorem unpackedInt_of_ne {i : ℤ} (h : i ≠ 0) :
    unpackedInt i = .finite (sgn (i < 0)) (i.natAbs * 2^(52 - i.natAbs.log2)) ((i.natAbs.log2 : ℤ) - 52)
      (Nat.mul_pos (by omega) (by positivity)) := dif_neg h

theorem finite_congr {s : Sign} {m m' : ℕ} {e e' : ℤ} {h : 0 < m} {h' : 0 < m'} (hm : m = m') (he : e = e') :
    UnpackedFloat.finite s m e h = .finite s m' e' h' := by
  subst hm he; rfl

theorem unpack_ofInt {i : ℤ} (hi : i.natAbs < 2^53) : (ofInt i).model.unpack = unpackedInt i := by
  by_cases h0 : i = 0
  · subst h0; rfl
  obtain ⟨hL, hlo, hhi⟩ := ofInt_fields h0 hi
  rw [ofInt, if_neg h0, model_ofFields (by omega) (by omega) (by omega), unpackedInt_of_ne h0]
  exact finite_congr (by omega) (by omega)

theorem pack_unpackedInt {i : ℤ} (hi : i.natAbs < 2^53) :
    ofModel (Float.Model.pack (unpackedInt i)) = ofInt i := by
  by_cases h0 : i = 0
  · subst h0; rfl
  obtain ⟨hL, hlo, hhi⟩ := ofInt_fields h0 hi
  have hp := pack_finite (decide (i < 0)) _ (1023 + i.natAbs.log2) hlo hhi (by omega) (by omega)
    (h := by omega)
  rw [show ((1023 + i.natAbs.log2 : ℕ) : ℤ) - 1075 = (i.natAbs.log2 : ℤ) - 52 by omega] at hp
  rw [unpackedInt_of_ne h0, hp, ofInt, if_neg h0]

theorem normalize_int {n : ℤ} (k : ℕ) (hn : n.natAbs < 2^53) :
    UnpackedFloat.normalize b64 (n * 2^k) (-(k : ℤ)) .positive = unpackedInt n := by
  have hk : (0 : ℤ) < 2^k := by positivity
  rcases lt_trichotomy n 0 with h | h | h
  · have hc : compare (n * 2^k) 0 = .lt := by
      rw [compare_lt_iff_lt]; exact Int.mul_neg_of_neg_of_pos h hk
    have hm : (-(n * 2^k)).toNat = n.natAbs * 2^k := by
      have : -(n * 2^k) = ((n.natAbs * 2^k : ℕ) : ℤ) := by
        rw [Nat.cast_mul, Nat.cast_pow, Int.natCast_natAbs, abs_of_neg h]; push_cast; ring
      rw [this, Int.toNat_natCast]
    simp only [UnpackedFloat.normalize, hc, hm]
    rw [round_int _ (by omega) hn, unpackedInt_of_ne (by omega), show decide (n < 0) = true by simpa using h]
    rfl
  · subst h
    have hc : compare ((0 : ℤ) * 2^k) 0 = .eq := by rw [zero_mul]; rfl
    simp only [UnpackedFloat.normalize, hc]
    rfl
  · have hc : compare (n * 2^k) 0 = .gt := by
      rw [compare_gt_iff_gt]; exact Int.mul_pos h hk
    have hm : (n * 2^k).toNat = n.natAbs * 2^k := by
      have : n * 2^k = ((n.natAbs * 2^k : ℕ) : ℤ) := by
        rw [Nat.cast_mul, Nat.cast_pow, Int.natCast_natAbs, abs_of_pos h]; push_cast; ring
      rw [this, Int.toNat_natCast]
    simp only [UnpackedFloat.normalize, hc, hm]
    rw [round_int _ (by omega) hn, unpackedInt_of_ne (by omega),
      show decide (n < 0) = false by simpa using h.le]
    rfl

/-- Both significands of a sum are scaled to the smaller exponent. -/
theorem decreaseExponent_int {i : ℤ} {l : ℕ} (hi : i.natAbs.log2 ≤ 52) (hl : l ≤ i.natAbs.log2) :
    (decreaseExponent (i.natAbs * 2^(52 - i.natAbs.log2)) ((i.natAbs.log2 : ℤ) - 52) ((l : ℤ) - 52)).1 =
      i.natAbs * 2^(52 - l) := by
  simp only [decreaseExponent]
  rw [show ((i.natAbs.log2 : ℤ) - 52 - ((l : ℤ) - 52)).toNat = i.natAbs.log2 - l by omega,
    Nat.shiftLeft_eq, mul_assoc, ← pow_add, show 52 - i.natAbs.log2 + (i.natAbs.log2 - l) = 52 - l by omega]

theorem apply_sgn (i : ℤ) (p : ℕ) : (sgn (i < 0)).apply ((i.natAbs * 2^p : ℕ) : ℤ) = i * 2^p := by
  rw [Nat.cast_mul, Nat.cast_pow]
  by_cases h : i < 0
  · simp only [sgn, h, decide_true, if_true, Sign.apply, Int.natCast_natAbs, abs_of_neg h]; push_cast; ring
  · simp only [sgn, h, decide_false, Bool.false_eq_true, if_false, Sign.apply, Int.natCast_natAbs,
      abs_of_nonneg (not_lt.mp h)]
    push_cast; ring

section Arith
variable {a b : ℤ} (ha : a.natAbs < 2^53) (hb : b.natAbs < 2^53)
include ha hb

theorem add_unpackedInt (hab : (a + b).natAbs < 2^53) : UnpackedFloat.add b64 (unpackedInt a) (unpackedInt b) = unpackedInt (a + b) := by
  by_cases h0 : a = 0
  · subst h0
    by_cases h1 : b = 0
    · subst h1; rfl
    · rw [zero_add, unpackedInt_of_ne h1]; rfl
  by_cases h1 : b = 0
  · subst h1; rw [add_zero, unpackedInt_of_ne h0]; rfl
  obtain ⟨hL, -, -⟩ := ofInt_fields h0 (by omega)
  obtain ⟨hL', -, -⟩ := ofInt_fields h1 (by omega)
  set l := min a.natAbs.log2 b.natAbs.log2 with hl
  have hmin : min ((a.natAbs.log2 : ℤ) - 52) ((b.natAbs.log2 : ℤ) - 52) = (l : ℤ) - 52 := by omega
  have hda := decreaseExponent_int (l := l) hL (by omega)
  have hdb := decreaseExponent_int (l := l) hL' (by omega)
  have hn := normalize_int (n := a + b) (52 - l) (by omega)
  rw [show -((52 - l : ℕ) : ℤ) = (l : ℤ) - 52 by omega] at hn
  rw [unpackedInt_of_ne h0, unpackedInt_of_ne h1]
  simp only [UnpackedFloat.add, hmin, hda, hdb, apply_sgn]
  rw [← add_mul, hn]

theorem sub_unpackedInt (hab : (a - b).natAbs < 2^53) : UnpackedFloat.sub b64 (unpackedInt a) (unpackedInt b) = unpackedInt (a - b) := by
  by_cases h0 : a = 0
  · subst h0
    by_cases h1 : b = 0
    · subst h1; rfl
    · rw [zero_sub, unpackedInt_of_ne h1, unpackedInt_of_ne (neg_ne_zero.mpr h1)]
      have hs : -sgn (decide (b < 0)) = sgn (decide (-b < 0)) := by
        rcases lt_or_gt_of_ne h1 with h | h <;> simp [sgn, h, not_lt.mpr h.le] <;> rfl
      change UnpackedFloat.finite (-sgn (b < 0)) _ _ _ = _
      simp only [hs, Int.natAbs_neg]
  by_cases h1 : b = 0
  · subst h1; rw [sub_zero, unpackedInt_of_ne h0]; rfl
  obtain ⟨hL, -, -⟩ := ofInt_fields h0 (by omega)
  obtain ⟨hL', -, -⟩ := ofInt_fields h1 (by omega)
  set l := min a.natAbs.log2 b.natAbs.log2 with hl
  have hmin : min ((a.natAbs.log2 : ℤ) - 52) ((b.natAbs.log2 : ℤ) - 52) = (l : ℤ) - 52 := by omega
  have hda := decreaseExponent_int (l := l) hL (by omega)
  have hdb := decreaseExponent_int (l := l) hL' (by omega)
  have hn := normalize_int (n := a - b) (52 - l) (by omega)
  rw [show -((52 - l : ℕ) : ℤ) = (l : ℤ) - 52 by omega] at hn
  rw [unpackedInt_of_ne h0, unpackedInt_of_ne h1]
  simp only [UnpackedFloat.sub, hmin, hda, hdb, apply_sgn]
  rw [← sub_mul, hn]

/-- Sums of integers are exact. -/
theorem add_ofInt_of_fits (hab : (a + b).natAbs < 2^53) : (ofInt a).add (ofInt b) = ofInt (a + b) := by
  rw [add, Float.Model.add, unpack_ofInt ha, unpack_ofInt hb, add_unpackedInt ha hb hab, pack_unpackedInt hab]

end Arith

section Arith
variable {a b : ℤ} (ha : a.natAbs < 2^52) (hb : b.natAbs < 2^52)
include ha hb

theorem add_ofInt : (ofInt a).add (ofInt b) = ofInt (a + b) :=
  add_ofInt_of_fits (by omega) (by omega) (by omega)

theorem sub_ofInt : (ofInt a).sub (ofInt b) = ofInt (a - b) := by
  rw [sub, Float.Model.sub, unpack_ofInt (by omega), unpack_ofInt (by omega),
    sub_unpackedInt (by omega) (by omega) (by omega), pack_unpackedInt (by omega)]

end Arith

theorem roundedMantissa_bounds (em : ExtendedMantissa) :
    em.mantissa ≤ em.roundedMantissa ∧ em.roundedMantissa ≤ em.mantissa + 1 := by
  rcases em with ⟨m, _ | _, _ | _⟩ <;>
    simp only [ExtendedMantissa.roundedMantissa, ExtendedMantissa.accuracy, Accuracy.roundToNearestEven] <;> omega

/-- The significand of a number with too many bits, after the bits that do not fit are rounded away. -/
def roundedTo (m k : ℕ) : ℕ := ((⟨m, false, false⟩ : ExtendedMantissa) >>> k).roundedMantissa

theorem shiftToTarget_long {m k : ℕ} {e : ℤ} (hm : m.log2 = 52 + k) (he : -1074 ≤ e + k) :
    shiftToTargetExponent b64 m e .exact = ((⟨m, false, false⟩ : ExtendedMantissa) >>> k, e + k) := by
  have ht : b64.targetExponent (totalExponent m e) = e + k := by
    rw [targetExponent_eq (by rw [totalExponent]; omega), totalExponent]; omega
  simp only [shiftToTargetExponent, ht, shiftToExponent, ExtendedMantissa.ofMantissaAndAccuracy]
  rw [show (e + k - e).toNat = k by omega]

section Magnitude
variable {m k : ℕ} {e : ℤ} (hm : m.log2 = 52 + k) (hm0 : m ≠ 0)
include hm hm0

theorem roundedTo_bounds : 2^52 ≤ roundedTo m k ∧ roundedTo m k ≤ 2^53 := by
  obtain ⟨hlo, hhi⟩ := (Nat.log2_eq_iff hm0).mp hm
  have hpos : 0 < 2^k := by positivity
  have hqlo : 2^52 ≤ m / 2^k := by
    rw [Nat.le_div_iff_mul_le hpos, ← pow_add]; exact hlo
  have hqhi : m / 2^k < 2^53 := by
    rw [Nat.div_lt_iff_lt_mul hpos, ← pow_add, show 53 + k = 52 + k + 1 by omega]; exact hhi
  have hq := shift_mantissa ⟨m, false, false⟩ k
  obtain ⟨hrlo, hrhi⟩ := roundedMantissa_bounds ((⟨m, false, false⟩ : ExtendedMantissa) >>> k)
  rw [roundedTo]
  constructor
  · exact hqlo.trans (hq ▸ hrlo)
  · exact hrhi.trans (hq ▸ hqhi)

variable (s : Sign) (he : -1074 ≤ e + k)
include he

theorem round_stays (h : roundedTo m k < 2^53) (hpos : 0 < roundedTo m k) :
    roundWithAccuracy b64 s m e .exact = .finite s (roundedTo m k) (e + k) hpos := by
  have hs1 := shiftToTarget_long hm he
  have hbounds := roundedTo_bounds hm hm0
  have hl := log2_of_significand hbounds.1 h
  have hs2 := shiftToTarget_long (k := 0) (e := e + k) hl (by omega)
  have hr : ((⟨m, false, false⟩ : ExtendedMantissa) >>> k).roundedMantissa = roundedTo m k := rfl
  simp only [roundWithAccuracy, hs1, hr, hs2]
  exact (dif_neg hpos.ne').trans (finite_congr rfl (add_zero _))

omit hm0 in
theorem round_carries (h : roundedTo m k = 2^53) :
    roundWithAccuracy b64 s m e .exact = .finite s (2^52) (e + k + 1) (by positivity) := by
  have hs1 := shiftToTarget_long hm he
  have hl : (2^53).log2 = 52 + 1 := Nat.log2_two_pow
  have hs2 : shiftToTargetExponent b64 (2^53) (e + k) .exact = (⟨2^52, false, false⟩, e + k + 1) := by
    rw [shiftToTarget_long (k := 1) hl (by omega), show 2^53 = 2^52 * 2^1 by norm_num, shift_exact]
    rfl
  have hr : ((⟨m, false, false⟩ : ExtendedMantissa) >>> k).roundedMantissa = 2^53 := h
  simp only [roundWithAccuracy, hs1, hr, hs2]
  exact dif_neg (by norm_num)

end Magnitude

/-- Rounding keeps the magnitude of a number that has more bits than fit. -/
theorem round_magnitude (s : Sign) {m : ℕ} {e : ℤ} (hm : 52 ≤ m.log2) (hm0 : m ≠ 0)
    (he : -1022 ≤ e + m.log2) :
    ∃ q e', ∃ h : 0 < q, roundWithAccuracy b64 s m e .exact = .finite s q e' h ∧ 2^52 ≤ q ∧ q < 2^53 ∧
      e + m.log2 - 52 ≤ e' ∧ e' ≤ e + m.log2 - 51 := by
  have hlog : m.log2 = 52 + (m.log2 - 52) := by omega
  obtain ⟨hlo, hhi⟩ := roundedTo_bounds hlog hm0
  rcases hhi.lt_or_eq with hlt | heq
  · have hpos : 0 < roundedTo m (m.log2 - 52) := by omega
    exact ⟨_, _, hpos, round_stays hlog hm0 s (by omega) hlt hpos, hlo, hlt, by omega, by omega⟩
  · exact ⟨_, _, by positivity, round_carries hlog s (by omega) heq, le_rfl, by norm_num, by omega, by omega⟩

theorem sgn_mul (a b : ℤ) (h : a ≠ 0) (h' : b ≠ 0) :
    sgn (a < 0) * sgn (b < 0) = sgn (a * b < 0) := by
  rcases lt_or_gt_of_ne h with ha | ha <;> rcases lt_or_gt_of_ne h' with hb | hb
  · simp [sgn, ha, hb, not_lt.mpr (Int.mul_nonneg_of_nonpos_of_nonpos ha.le hb.le)]; rfl
  · simp [sgn, ha, not_lt.mpr hb.le, Int.mul_neg_of_neg_of_pos ha hb]; rfl
  · simp [sgn, hb, not_lt.mpr ha.le, Int.mul_neg_of_pos_of_neg ha hb]; rfl
  · simp [sgn, not_lt.mpr ha.le, not_lt.mpr hb.le, not_lt.mpr (Int.mul_nonneg ha.le hb.le)]; rfl

section Mul
variable {a b : ℤ} (ha : a.natAbs ≤ 2^31) (hb : b.natAbs ≤ 2^31)

/-- The product of the significands, before rounding. -/
theorem mul_unpackedInt (h0 : a ≠ 0) (h1 : b ≠ 0) (hla : a.natAbs.log2 ≤ 52) (hlb : b.natAbs.log2 ≤ 52) :
    UnpackedFloat.mul b64 (unpackedInt a) (unpackedInt b) =
      roundWithAccuracy b64 (sgn (a * b < 0))
        ((a * b).natAbs * 2^(104 - a.natAbs.log2 - b.natAbs.log2))
        (-((104 - a.natAbs.log2 - b.natAbs.log2 : ℕ) : ℤ)) .exact := by
  rw [unpackedInt_of_ne h0, unpackedInt_of_ne h1]
  have hm : a.natAbs * 2^(52 - a.natAbs.log2) * (b.natAbs * 2^(52 - b.natAbs.log2)) =
      (a * b).natAbs * 2^(104 - a.natAbs.log2 - b.natAbs.log2) := by
    rw [Int.natAbs_mul, show 104 - a.natAbs.log2 - b.natAbs.log2 = (52 - a.natAbs.log2) + (52 - b.natAbs.log2) by
      omega, pow_add]
    ring
  simp only [UnpackedFloat.mul, sgn_mul a b h0 h1, hm]
  congr 1
  omega

theorem log2_mul_le (h0 : a ≠ 0) (h1 : b ≠ 0) : a.natAbs.log2 + b.natAbs.log2 ≤ (a * b).natAbs.log2 := by
  have ha' := Nat.log2_self_le (n := a.natAbs) (by omega)
  have hb' := Nat.log2_self_le (n := b.natAbs) (by omega)
  have hab : (a * b).natAbs ≠ 0 := by rw [Int.natAbs_mul]; positivity
  rw [Nat.le_log2 hab, pow_add, Int.natAbs_mul]
  exact Nat.mul_le_mul ha' hb'

include ha hb

theorem log2_le_of_int32 (h0 : a ≠ 0) (h1 : b ≠ 0) : a.natAbs.log2 ≤ 52 ∧ b.natAbs.log2 ≤ 52 :=
  ⟨(ofInt_fields h0 (by omega)).1, (ofInt_fields h1 (by omega)).1⟩

/-- Products of integers are exact below `2^53`; a zero product has to have a positive sign. -/
theorem mul_ofInt (hz : a * b = 0 → 0 ≤ a ∧ 0 ≤ b) (h : (a * b).natAbs < 2^53) :
    (ofInt a).mul (ofInt b) = ofInt (a * b) := by
  rw [mul, Float.Model.mul, unpack_ofInt (by omega), unpack_ofInt (by omega)]
  by_cases hab : a * b = 0
  · obtain ⟨hpa, hpb⟩ := hz hab
    have hm : UnpackedFloat.mul b64 (unpackedInt a) (unpackedInt b) = .zero .positive := by
      rcases Int.mul_eq_zero.mp hab with h0 | h0
      · subst h0
        by_cases h1 : b = 0
        · subst h1; rfl
        · rw [unpackedInt_of_ne h1, show decide (b < 0) = false by simpa using hpb]; rfl
      · subst h0
        by_cases h1 : a = 0
        · subst h1; rfl
        · rw [unpackedInt_of_ne h1, show decide (a < 0) = false by simpa using hpa]; rfl
    rw [hm, hab]
    rfl
  · have h0 : a ≠ 0 := fun h => hab (by rw [h, zero_mul])
    have h1 : b ≠ 0 := fun h => hab (by rw [h, mul_zero])
    obtain ⟨hla, hlb⟩ := log2_le_of_int32 ha hb h0 h1
    have hl := log2_mul_le h0 h1
    rw [mul_unpackedInt h0 h1 hla hlb, mul_round_int _ (by omega) h (by omega), ← unpackedInt_of_ne hab,
      pack_unpackedInt h]

/-- A zero product with a negative factor is negative zero. -/
theorem mul_ofInt_negZero (hz : a * b = 0) (hn : a < 0 ∨ b < 0) : (ofInt a).mul (ofInt b) = negZero := by
  rw [mul, Float.Model.mul, unpack_ofInt (by omega), unpack_ofInt (by omega)]
  have hm : UnpackedFloat.mul b64 (unpackedInt a) (unpackedInt b) = .zero .negative := by
    rcases hn with hn | hn
    · obtain rfl : b = 0 := (Int.mul_eq_zero.mp hz).resolve_left (by omega)
      rw [unpackedInt_of_ne (by omega), show decide (a < 0) = true by simpa using hn]; rfl
    · obtain rfl : a = 0 := (Int.mul_eq_zero.mp hz).resolve_right (by omega)
      rw [unpackedInt_of_ne (i := b) (by omega), show decide (b < 0) = true by simpa using hn]; rfl
  rw [hm]
  rfl

/-- A product outside the exact range is still far above every 32-bit integer. -/
theorem expo_mul_ofInt (h : 2^53 ≤ (a * b).natAbs) : 1075 ≤ ((ofInt a).mul (ofInt b)).expo := by
  have hab : a * b ≠ 0 := by omega
  have h0 : a ≠ 0 := fun h => hab (by rw [h, zero_mul])
  have h1 : b ≠ 0 := fun h => hab (by rw [h, mul_zero])
  obtain ⟨hla, hlb⟩ := log2_le_of_int32 ha hb h0 h1
  set k := 104 - a.natAbs.log2 - b.natAbs.log2 with hk
  have hl : 53 ≤ (a * b).natAbs.log2 := (Nat.le_log2 (by omega)).mpr h
  have hl' : (a * b).natAbs.log2 ≤ 62 := by
    have : (a * b).natAbs ≤ 2^62 := by rw [Int.natAbs_mul]; exact (Nat.mul_le_mul ha hb).trans (by norm_num)
    have := Nat.log2_lt (n := (a * b).natAbs) (k := 63) (by omega) |>.mpr (by omega)
    omega
  have hlog : ((a * b).natAbs * 2^k).log2 = (a * b).natAbs.log2 + k := log2_mul_pow rfl (by omega)
  obtain ⟨q, e, hq0, hround, hqlo, hqhi, helo, hehi⟩ :=
    round_magnitude (sgn (a * b < 0)) (m := (a * b).natAbs * 2^k) (e := -(k : ℤ)) (by omega)
      (by have : 0 < (a * b).natAbs := by omega
          positivity) (by omega)
  rw [mul, Float.Model.mul, unpack_ofInt (by omega), unpack_ofInt (by omega), mul_unpackedInt h0 h1 hla hlb,
    ← hk, hround]
  have hp := pack_finite (decide (a * b < 0)) q (e + 1075).toNat hqlo hqhi (by omega) (by omega) (h := hq0)
  rw [show (((e + 1075).toNat : ℕ) : ℤ) - 1075 = e by omega] at hp
  rw [hp, expo_ofFields (by omega) (by omega)]
  omega

end Mul

/-! ### Comparisons of integers -/

/-- The order of the exponents and then of the significands is the order of the integers. -/
theorem compare_significands {n m : ℕ} (h0 : 0 < n) (h1 : 0 < m) :
    (compare ((n.log2 : ℤ) - 52) ((m.log2 : ℤ) - 52)).then
      (compare (n * 2^(52 - n.log2)) (m * 2^(52 - m.log2))) = compare n m := by
  rcases lt_trichotomy n.log2 m.log2 with h | h | h
  · have hlt : n < m := by
      by_contra hc
      have := (Nat.le_log2 (by omega)).mpr ((Nat.log2_self_le (n := m) (by omega)).trans (not_lt.mp hc))
      omega
    rw [compare_lt_iff_lt.mpr (show (n.log2 : ℤ) - 52 < (m.log2 : ℤ) - 52 by omega), compare_lt_iff_lt.mpr hlt]
    rfl
  · rw [h, compare_eq_iff_eq.mpr rfl]
    have hp : 0 < 2^(52 - m.log2) := by positivity
    change compare (n * 2^(52 - m.log2)) (m * 2^(52 - m.log2)) = compare n m
    rcases lt_trichotomy n m with h' | h' | h'
    · rw [compare_lt_iff_lt.mpr h', compare_lt_iff_lt.mpr (Nat.mul_lt_mul_of_pos_right h' hp)]
    · rw [h', compare_eq_iff_eq.mpr rfl, compare_eq_iff_eq.mpr rfl]
    · rw [compare_gt_iff_gt.mpr h', compare_gt_iff_gt.mpr (Nat.mul_lt_mul_of_pos_right h' hp)]
  · have hlt : m < n := by
      by_contra hc
      have := (Nat.le_log2 (by omega)).mpr ((Nat.log2_self_le (n := n) (by omega)).trans (not_lt.mp hc))
      omega
    rw [compare_gt_iff_gt.mpr (show (m.log2 : ℤ) - 52 < (n.log2 : ℤ) - 52 by omega), compare_gt_iff_gt.mpr hlt]
    rfl

theorem compare_unpackedInt (a b : ℤ) :
    (unpackedInt a).compare (unpackedInt b) = some (compare a b) := by
  rcases lt_trichotomy a 0 with h | h | h
  · rw [unpackedInt_of_ne (by omega), show sgn (decide (a < 0)) = .negative by rw [decide_eq_true h]; rfl]
    rcases lt_trichotomy b 0 with h' | h' | h'
    · rw [unpackedInt_of_ne (by omega), show sgn (decide (b < 0)) = .negative by rw [decide_eq_true h']; rfl]
      have hc := compare_significands (n := a.natAbs) (m := b.natAbs) (by omega) (by omega)
      simp only [UnpackedFloat.compare, hc]
      congr 1
      rcases lt_trichotomy a b with h2 | h2 | h2
      · rw [compare_gt_iff_gt.mpr (show b.natAbs < a.natAbs by omega), compare_lt_iff_lt.mpr h2]; rfl
      · rw [h2, compare_eq_iff_eq.mpr rfl, compare_eq_iff_eq.mpr rfl]; rfl
      · rw [compare_lt_iff_lt.mpr (show a.natAbs < b.natAbs by omega), compare_gt_iff_gt.mpr h2]; rfl
    · subst h'; rw [compare_lt_iff_lt.mpr h]; rfl
    · rw [unpackedInt_of_ne (by omega), show sgn (decide (b < 0)) = .positive by
        rw [decide_eq_false (by omega)]; rfl, compare_lt_iff_lt.mpr (by omega)]; rfl
  · subst h
    rcases lt_trichotomy b 0 with h' | h' | h'
    · rw [unpackedInt_of_ne (i := b) (by omega), show sgn (decide (b < 0)) = .negative by
        rw [decide_eq_true h']; rfl, compare_gt_iff_gt.mpr h']; rfl
    · subst h'; rfl
    · rw [unpackedInt_of_ne (i := b) (by omega), show sgn (decide (b < 0)) = .positive by
        rw [decide_eq_false (by omega)]; rfl, compare_lt_iff_lt.mpr h']; rfl
  · rw [unpackedInt_of_ne (by omega), show sgn (decide (a < 0)) = .positive by
      rw [decide_eq_false (by omega)]; rfl]
    rcases lt_trichotomy b 0 with h' | h' | h'
    · rw [unpackedInt_of_ne (by omega), show sgn (decide (b < 0)) = .negative by rw [decide_eq_true h']; rfl,
        compare_gt_iff_gt.mpr (by omega)]; rfl
    · subst h'; rw [compare_gt_iff_gt.mpr h]; rfl
    · rw [unpackedInt_of_ne (by omega), show sgn (decide (b < 0)) = .positive by
        rw [decide_eq_false (by omega)]; rfl]
      have hc := compare_significands (n := a.natAbs) (m := b.natAbs) (by omega) (by omega)
      simp only [UnpackedFloat.compare, hc]
      congr 1
      rcases lt_trichotomy a b with h2 | h2 | h2
      · rw [compare_lt_iff_lt.mpr (show a.natAbs < b.natAbs by omega), compare_lt_iff_lt.mpr h2]
      · rw [h2, compare_eq_iff_eq.mpr rfl, compare_eq_iff_eq.mpr rfl]
      · rw [compare_gt_iff_gt.mpr (show b.natAbs < a.natAbs by omega), compare_gt_iff_gt.mpr h2]

theorem lt_ofInt {a b : ℤ} (ha : a.natAbs < 2^53) (hb : b.natAbs < 2^53) :
    (ofInt a).lt (ofInt b) = decide (a < b) := by
  rw [lt, Float.Model.lt, unpack_ofInt ha, unpack_ofInt hb, UnpackedFloat.lt, compare_unpackedInt]
  rcases lt_trichotomy a b with h | h | h
  · rw [compare_lt_iff_lt.mpr h]; simp [h]
  · rw [compare_eq_iff_eq.mpr h]; simp [h]
  · rw [compare_gt_iff_gt.mpr h]; simp [h.le]

theorem le_ofInt {a b : ℤ} (ha : a.natAbs < 2^53) (hb : b.natAbs < 2^53) :
    (ofInt a).le (ofInt b) = decide (a ≤ b) := by
  rw [le, Float.Model.le, unpack_ofInt ha, unpack_ofInt hb, UnpackedFloat.le, compare_unpackedInt]
  rcases lt_trichotomy a b with h | h | h
  · rw [compare_lt_iff_lt.mpr h]; simp [h.le]
  · rw [compare_eq_iff_eq.mpr h]; simp [h]
  · rw [compare_gt_iff_gt.mpr h]; simp [h]

theorem feq_ofInt_ofInt {a b : ℤ} (ha : a.natAbs < 2^53) (hb : b.natAbs < 2^53) :
    (ofInt a).feq (ofInt b) = decide (a = b) := by
  rw [Bool.eq_iff_iff, feq_ofInt ha, decide_eq_true_iff]
  constructor
  · rintro (h | ⟨rfl, h⟩)
    · exact (ofInt_inj hb ha h).symm
    · have hbe := congrArg F64.isZero h
      rw [isZero_ofInt hb, show negZero.isZero = true from rfl] at hbe
      exact (of_decide_eq_true hbe).symm
  · rintro rfl
    exact .inl rfl

theorem asU64_ofInt {i : ℤ} (hi : i.natAbs < 2^53) : (ofInt i).asU64.toNat = i.toNat := by
  rw [asU64, isNaN_ofInt hi, trunc_ofInt hi]
  simp
  omega

end F64
end LuajitRs
