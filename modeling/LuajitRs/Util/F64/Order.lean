import LuajitRs.Util.F64.Exact
import Mathlib.Data.Prod.Lex

/-! The order of doubles. Every number but NaN has a rank in a linear order, and a comparison compares the
ranks; NaN compares with nothing. -/
namespace LuajitRs
open Float.Model Float.Model.UnpackedFloat

namespace F64

/-- The place of a number in the order: its class, then exponent and significand, backwards below zero. -/
def place : UnpackedFloat → ℤ ×ₗ ℤ ×ₗ ℤ
  | .infinity .negative => toLex (-2, toLex (0, 0))
  | .finite .negative m e _ => toLex (-1, toLex (-e, -(m : ℤ)))
  | .finite .positive m e _ => toLex (1, toLex (e, (m : ℤ)))
  | .infinity .positive => toLex (2, toLex (0, 0))
  | _ => toLex (0, toLex (0, 0))

theorem compare_toLex (a b c a' b' c' : ℤ) : compare (toLex (a, toLex (b, c))) (toLex (a', toLex (b', c'))) =
    (compare a a').then ((compare b b').then (compare c c')) := by
  simp only [Prod.Lex.compare_def, compareLex, compareOn, ofLex_toLex]

theorem compare_neg_neg (a b : ℤ) : compare (-a) (-b) = (compare a b).swap := by
  rcases lt_trichotomy a b with h | h | h
  · rw [compare_lt_iff_lt.mpr h, compare_gt_iff_gt.mpr (neg_lt_neg h), Ordering.swap]
  · rw [h, compare_eq_iff_eq.mpr rfl, compare_eq_iff_eq.mpr rfl, Ordering.swap]
  · rw [compare_gt_iff_gt.mpr h, compare_lt_iff_lt.mpr (neg_lt_neg h), Ordering.swap]

theorem compare_natCast (a b : ℕ) : compare (a : ℤ) b = compare a b := by
  rcases lt_trichotomy a b with h | h | h
  · rw [compare_lt_iff_lt.mpr h, compare_lt_iff_lt.mpr (Int.ofNat_lt.mpr h)]
  · rw [h, compare_eq_iff_eq.mpr rfl, compare_eq_iff_eq.mpr rfl]
  · rw [compare_gt_iff_gt.mpr h, compare_gt_iff_gt.mpr (Int.ofNat_lt.mpr h)]

theorem compare_place {a b : UnpackedFloat} (ha : a ≠ .notANumber) (hb : b ≠ .notANumber) :
    a.compare b = some (compare (place a) (place b)) := by
  cases a with
  | notANumber => exact absurd rfl ha
  | infinity s => cases b with
    | notANumber => exact absurd rfl hb
    | _ s' => cases s <;> cases s' <;> rfl
  | zero s => cases b with
    | notANumber => exact absurd rfl hb
    | zero s' => rfl
    | _ s' => cases s' <;> rfl
  | finite s m e h => cases b with
    | notANumber => exact absurd rfl hb
    | infinity s' => cases s <;> cases s' <;> rfl
    | zero s' => cases s <;> rfl
    | finite s' m' e' h' =>
      cases s <;> cases s' <;>
        simp only [UnpackedFloat.compare, place, compare_toLex, compare_neg_neg, compare_natCast]
      · rw [Ordering.swap_then]
        rfl
      all_goals rfl

/-! ### Unpacking any bit pattern -/

/-- What the fields of a double stand for. -/
def parts (s : Bool) (e f : ℕ) : UnpackedFloat :=
  if e = 2047 then if f = 0 then .infinity (sgn s) else .notANumber
  else if e = 0 then if h : f = 0 then .zero (sgn s) else .finite (sgn s) f (-1074) (Nat.pos_of_ne_zero h)
  else .finite (sgn s) (2^52 + f) ((e : ℤ) - 1075) (by positivity)

theorem expo_lt (x : F64) : x.expo < 2^11 := Nat.mod_lt _ (by positivity)

theorem frac_lt (x : F64) : x.frac < 2^52 := Nat.mod_lt _ (by positivity)

theorem ofFields_self (x : F64) : ofFields x.signBit x.expo x.frac = x := by
  obtain ⟨b⟩ := x
  have hb : b.toNat < 2^64 := b.toNat_lt
  simp only [ofFields, F64.mk.injEq]
  apply UInt64.toNat_inj.mp
  have hsum : (if signBit ⟨b⟩ then 2^63 else 0) + expo ⟨b⟩ * 2^52 + frac ⟨b⟩ = b.toNat := by
    simp only [signBit, expo, frac, decide_eq_true_eq]
    split <;> omega
  rw [hsum, UInt64.toNat_ofNat', Nat.mod_eq_of_lt hb]

theorem ofNat_eq_zero {w n : ℕ} (h : n < 2^w) : BitVec.ofNat w n = 0#w ↔ n = 0 := by
  rw [← BitVec.toNat_inj, BitVec.toNat_ofNat, BitVec.toNat_ofNat, Nat.mod_eq_of_lt h, Nat.zero_mod]

theorem unpack_parts {s : Bool} {e f : ℕ} (he : e < 2^11) (hf : f < 2^52) :
    UnpackedFloat.unpack b64 (ofFields s e f).bits.toBitVec = parts s e f := by
  by_cases h : 0 < e ∧ e < 2047
  · rw [unpack_ofFields h.1 h.2 hf, parts, if_neg (by omega), if_neg (by omega)]
  · have hend : e = 0 ∨ e = 2047 := by omega
    rw [bits_ofFields he hf]
    simp only [UnpackedFloat.unpack, unpackMantissa_packComponents, unpackExponent_packComponents,
      unpackSign_packComponents, ofBitVec_sgn, parts]
    cases hend with
    | inl h0 =>
      subst h0
      rw [if_neg (by decide), if_pos rfl, if_neg (by decide), if_pos rfl]
      by_cases hz : f = 0
      · rw [dif_pos hz, dif_pos ((ofNat_eq_zero hf).mpr hz)]
      · rw [dif_neg hz, dif_neg (fun hc => hz ((ofNat_eq_zero hf).mp hc))]
        exact finite_congr (by rw [BitVec.toNat_ofNat, Nat.mod_eq_of_lt hf]) rfl
    | inr h1 =>
      subst h1
      rw [if_pos (by decide), if_pos rfl]
      simp only [ofNat_eq_zero hf]

theorem pack_parts {s : Bool} {e f : ℕ} (he : e < 2^11) (hf : f < 2^52) :
    ofModel (.pack (parts s e f)) = if e = 2047 ∧ f ≠ 0 then nan else ofFields s e f := by
  by_cases h : 0 < e ∧ e < 2047
  · rw [parts, if_neg (by omega), if_neg (by omega), if_neg (by omega),
      pack_finite s _ e (by omega) (by omega) h.1 h.2, Nat.add_sub_cancel_left]
  · have hend : e = 0 ∨ e = 2047 := by omega
    have hbits : UnpackedFloat.pack b64 (parts s e f) = packComponents b64 (sgn s) (BitVec.ofNat _ e)
        (BitVec.ofNat _ f) → ofModel (.pack (parts s e f)) = ofFields s e f := by
      intro hv
      rw [← bits_ofFields he hf] at hv
      simp only [ofModel, Float.Model.pack, hv]
    by_cases hz : f = 0
    · subst hz
      rw [if_neg (fun hc => hc.2 rfl)]
      apply hbits
      cases hend with
      | inl h0 => subst h0; rfl
      | inr h1 => subst h1; rfl
    · cases hend with
      | inl h0 =>
        subst h0
        have hlog : f.log2 < 52 := (Nat.log2_lt hz).mpr hf
        rw [if_neg (fun hc => by simp at hc)]
        apply hbits
        have hparts : parts s 0 f = .finite (sgn s) f (-1074) (Nat.pos_of_ne_zero hz) := by
          rw [parts, if_neg (by decide), if_pos rfl, dif_neg hz]
        have hm : ¬ f.log2 + 1 = b64.mantissaBits := fun hc => by simp [Format.mantissaBits] at hc; omega
        rw [hparts]
        simp only [UnpackedFloat.pack]
        rw [if_neg (by decide), if_neg hm]
      | inr h1 =>
        subst h1
        rw [if_pos ⟨rfl, hz⟩, parts, if_pos rfl, if_neg hz]
        rfl

section Model
variable (x y z : F64)

theorem pack_bits : ofModel (.pack (UnpackedFloat.unpack b64 x.bits.toBitVec)) = if x.isNaN then nan else x := by
  have hx := ofFields_self x
  have hp := pack_parts (s := x.signBit) x.expo_lt x.frac_lt
  rw [← unpack_parts x.expo_lt x.frac_lt, hx] at hp
  simpa only [isNaN, decide_eq_true_eq] using hp

theorem unpack_model : x.model.unpack = parts x.signBit x.expo x.frac := by
  have hbits : x.model.toBits = (if x.isNaN then nan else x).bits := congrArg F64.bits (pack_bits x)
  rw [Float.Model.unpack, hbits]
  by_cases hn : x.isNaN = true
  · have hfields : x.expo = 2047 ∧ x.frac ≠ 0 := of_decide_eq_true hn
    rw [if_pos hn, parts, if_pos hfields.1, if_neg hfields.2]
    rfl
  · rw [if_neg hn]
    conv_lhs => rw [← ofFields_self x]
    exact unpack_parts x.expo_lt x.frac_lt

theorem isNaN_iff : x.isNaN = true ↔ x.model.unpack = .notANumber := by
  rw [unpack_model, isNaN, decide_eq_true_eq, parts]
  split
  · next he =>
    split
    · next hf => simp [hf]
    · next hf => simp [he, hf]
  · next he =>
    have hne : ¬ (x.expo = 2047 ∧ x.frac ≠ 0) := fun h => he h.1
    split
    · split <;> simp [hne]
    · simp [hne]

/-- A number but NaN is packed again as it was. -/
theorem ofModel_pack_unpack : ofModel (.pack x.model.unpack) = if x.isNaN then nan else x := by
  have hp := pack_parts (s := x.signBit) x.expo_lt x.frac_lt
  rw [unpack_model, hp, ofFields_self]
  simp only [isNaN, decide_eq_true_eq]

end Model

/-! ### Comparisons -/

section Compare
variable {x y z : F64}

def rank (x : F64) : ℤ ×ₗ ℤ ×ₗ ℤ := place x.model.unpack

theorem le_iff (hx : x.isNaN = false) (hy : y.isNaN = false) : x.le y = true ↔ x.rank ≤ y.rank := by
  have hx' : x.model.unpack ≠ .notANumber := fun h => by rw [(isNaN_iff x).mpr h] at hx; cases hx
  have hy' : y.model.unpack ≠ .notANumber := fun h => by rw [(isNaN_iff y).mpr h] at hy; cases hy
  rw [le, Float.Model.le, UnpackedFloat.le, compare_place hx' hy', Option.any_some, ← compare_le_iff_le]
  exact Ordering.isLE_iff_ne_gt

theorem lt_iff (hx : x.isNaN = false) (hy : y.isNaN = false) : x.lt y = true ↔ x.rank < y.rank := by
  have hx' : x.model.unpack ≠ .notANumber := fun h => by rw [(isNaN_iff x).mpr h] at hx; cases hx
  have hy' : y.model.unpack ≠ .notANumber := fun h => by rw [(isNaN_iff y).mpr h] at hy; cases hy
  rw [lt, Float.Model.lt, UnpackedFloat.lt, compare_place hx' hy', ← compare_lt_iff_lt]
  simp [rank]

/-- Numbers are comparable. -/
theorem lt_eq_not_le (hx : x.isNaN = false) (hy : y.isNaN = false) : x.lt y = !y.le x := by
  rw [Bool.eq_iff_iff, lt_iff hx hy, Bool.not_eq_true', ← Bool.not_eq_true, le_iff hy hx]
  exact not_le.symm

theorem rank_zero : zero.rank = toLex (0, toLex (0, 0)) := by
  rw [rank, unpack_model]
  rfl

/-- The sign bit tells whether a number is negative, except for the negative zero. -/
theorem zero_le (hx : x.isNaN = false) (hz : x ≠ negZero) : zero.le x = !x.signBit := by
  have hfields := ofFields_self x
  have hnan : ¬ (x.expo = 2047 ∧ x.frac ≠ 0) := fun h => by
    rw [isNaN, decide_eq_true h] at hx
    cases hx
  rw [Bool.eq_iff_iff, le_iff rfl hx, rank_zero, rank, unpack_model, Bool.not_eq_true', parts]
  split
  · next he =>
    rw [if_pos (not_not.mp fun hf => hnan ⟨he, hf⟩)]
    cases x.signBit <;> simp [sgn, place, Prod.Lex.toLex_le_toLex]
  · split
    · next he =>
      split
      · next hf =>
        cases hs : x.signBit with
        | false => simp [place]
        | true =>
          rw [hs, he, hf] at hfields
          exact absurd hfields.symm hz
      · cases x.signBit <;> simp [sgn, place, Prod.Lex.toLex_le_toLex]
    · cases x.signBit <;> simp [sgn, place, Prod.Lex.toLex_le_toLex]

/-- The exponent tells whether the magnitude reaches one. -/
theorem truncMag_pos : 0 < x.truncMag ↔ 1023 ≤ x.expo := by
  have hf := frac_lt x
  unfold truncMag
  split_ifs with h0 h1
  · omega
  · have : 0 < (2^52 + x.frac) * 2^(x.expo - 1075) := by positivity
    omega
  · rw [Nat.div_pos_iff]
    constructor
    · rintro ⟨-, hle⟩
      by_contra hlt
      have hpow : 2^53 ≤ 2^(1075 - x.expo) := Nat.pow_le_pow_right (by norm_num) (by omega)
      omega
    · intro he
      have hpow : 2^(1075 - x.expo) ≤ 2^52 := Nat.pow_le_pow_right (by norm_num) (by omega)
      exact ⟨by positivity, by omega⟩

theorem rank_one : (ofInt 1).rank = toLex (1, toLex (-52, 2^52)) := by
  rw [rank, unpack_model]
  rfl

theorem one_le (hx : x.isNaN = false) : (ofInt 1).le x = true ↔ 1 ≤ x.trunc := by
  have hnan : ¬ (x.expo = 2047 ∧ x.frac ≠ 0) := fun h => by
    rw [isNaN, decide_eq_true h] at hx
    cases hx
  have hpos := truncMag_pos (x := x)
  rw [le_iff rfl hx, rank_one, rank, unpack_model, trunc, parts]
  split
  · next he =>
    rw [if_pos (not_not.mp fun hf => hnan ⟨he, hf⟩)]
    cases hs : x.signBit <;> simp [sgn, place, Prod.Lex.toLex_le_toLex]
    all_goals omega
  · split
    · next he =>
      have h0 : x.truncMag = 0 := by omega
      split <;> cases x.signBit <;> simp [sgn, place, Prod.Lex.toLex_le_toLex, h0]
    · cases x.signBit <;> simp [sgn, place, Prod.Lex.toLex_le_toLex]
      all_goals omega

theorem feq_comm (x y : F64) : x.feq y = y.feq x := by
  have heq : (x == y) = (y == x) := Bool.beq_comm
  rw [feq, feq, heq, Bool.and_comm x.isZero, Bool.and_comm (!x.isNaN)]

theorem place_inj {a b : UnpackedFloat} (ha : a ≠ .notANumber) (hb : b ≠ .notANumber) (h : place a = place b) :
    a = b ∨ ∃ s s', a = .zero s ∧ b = .zero s' := by
  cases a with
  | notANumber => exact absurd rfl ha
  | infinity s => cases b with
    | notANumber => exact absurd rfl hb
    | infinity s' => cases s <;> cases s' <;> simp [place] at h ⊢
    | zero s' => cases s <;> simp [place] at h
    | finite s' m' e' h' => cases s <;> cases s' <;> simp [place] at h
  | zero s => cases b with
    | notANumber => exact absurd rfl hb
    | infinity s' => cases s' <;> simp [place] at h
    | zero s' => exact .inr ⟨s, s', rfl, rfl⟩
    | finite s' m' e' h' => cases s' <;> simp [place] at h
  | finite s m e h0 => cases b with
    | notANumber => exact absurd rfl hb
    | infinity s' => cases s <;> cases s' <;> simp [place] at h
    | zero s' => cases s <;> simp [place] at h
    | finite s' m' e' h' =>
      left
      cases s <;> cases s' <;> simp [place] at h
      all_goals obtain ⟨rfl, rfl⟩ := h
      all_goals rfl

theorem isZero_unpack : x.isZero = true ↔ ∃ s, x.model.unpack = .zero s := by
  rw [unpack_model]
  constructor
  · intro h
    rcases of_decide_eq_true h with rfl | rfl
    · exact ⟨.positive, rfl⟩
    · exact ⟨.negative, rfl⟩
  · rintro ⟨s, h⟩
    rw [parts] at h
    split_ifs at h with h1 h2 h3 h4
    have hx := ofFields_self x
    rw [h3, h4] at hx
    rw [← hx]
    cases x.signBit <;> rfl

/-- Numbers are equal as IEEE if none is before the other. -/
theorem feq_iff (hx : x.isNaN = false) (hy : y.isNaN = false) : x.feq y = true ↔ x.rank = y.rank := by
  have hx' : x.model.unpack ≠ .notANumber := fun h => by rw [(isNaN_iff x).mpr h] at hx; cases hx
  have hy' : y.model.unpack ≠ .notANumber := fun h => by rw [(isNaN_iff y).mpr h] at hy; cases hy
  have hfeq : x.feq y = true ↔ x = y ∨ (x.isZero = true ∧ y.isZero = true) := by
    simp [feq, hx, hy]
  rw [hfeq, rank, rank]
  constructor
  · rintro (rfl | ⟨hx0, hy0⟩)
    · rfl
    · obtain ⟨s, hs⟩ := isZero_unpack.mp hx0
      obtain ⟨s', hs'⟩ := isZero_unpack.mp hy0
      rw [hs, hs']
      rfl
  · intro h
    rcases place_inj hx' hy' h with heq | ⟨s, s', hs, hs'⟩
    · left
      have hxp := ofModel_pack_unpack x
      have hyp := ofModel_pack_unpack y
      rw [hx, if_neg (by decide)] at hxp
      rw [hy, if_neg (by decide)] at hyp
      rw [← hxp, ← hyp, heq]
    · exact .inr ⟨isZero_unpack.mpr ⟨s, hs⟩, isZero_unpack.mpr ⟨s', hs'⟩⟩

end Compare

/-! ### Negation -/

section Sums
variable (x y : F64)

theorem xor_sign {b : ℕ} (hb : b < 2^64) : b ^^^ 2^63 = if 2^63 ≤ b then b - 2^63 else b + 2^63 := by
  have hlow : (b ^^^ 2^63) % 2^63 = b % 2^63 := by rw [Nat.xor_mod_two_pow, Nat.mod_self, Nat.xor_zero]
  have hhigh : (b ^^^ 2^63) / 2^63 = (b / 2^63) ^^^ 1 := by
    rw [Nat.xor_div_two_pow, Nat.div_self (by positivity)]
  have htop : b / 2^63 = 0 ∨ b / 2^63 = 1 := by omega
  cases htop with
  | inl h =>
    rw [h] at hhigh
    rw [if_neg (by omega)]
    simp at hhigh hlow ⊢
    omega
  | inr h =>
    rw [h] at hhigh
    rw [if_pos (by omega)]
    simp at hhigh hlow ⊢
    omega

theorem neg_fields : x.neg = ofFields (!x.signBit) x.expo x.frac := by
  obtain ⟨b⟩ := x
  have hb : b.toNat < 2^64 := b.toNat_lt
  simp only [neg, ofFields, F64.mk.injEq]
  apply UInt64.toNat_inj.mp
  rw [UInt64.toNat_xor, show (0x8000000000000000 : UInt64).toNat = 2^63 from rfl, xor_sign hb, UInt64.toNat_ofNat']
  simp only [signBit, expo, frac, Bool.not_eq_true', decide_eq_false_iff_not, Nat.not_le]
  split <;> split <;> omega

end Sums

/-! ### Numbers below one -/

/-- Rounding a number that has no more bits than fit. -/
theorem round_fits (s : Sign) {n : ℕ} {e : ℤ} (h0 : 0 < n) (h : n < 2^53) (he : -1022 ≤ e + n.log2) :
    UnpackedFloat.round b64 s n e = .finite s (n * 2^(52 - n.log2)) (e + n.log2 - 52) (by positivity) := by
  obtain ⟨hL, hlo, hhi⟩ := significand_bounds h0 h
  have ht : b64.targetExponent (totalExponent n e) = e + n.log2 - 52 := by
    rw [targetExponent_eq (by rw [totalExponent]; omega), totalExponent]
    omega
  simp only [UnpackedFloat.round, ht, decreaseExponent]
  rw [show (e - (e + n.log2 - 52)).toNat = 52 - n.log2 by omega, Nat.shiftLeft_eq,
    round_exact s (l := 0) (by rw [pow_zero, mul_one]) hlo hhi (by omega)]
  exact finite_congr rfl (by omega)

/-- The fraction of a number between one and two. -/
theorem sub_one {m : ℕ} (hm : m < 2^52) : (ofFields false 1023 m).sub (ofFields false 1023 0) =
    if m = 0 then zero else ofFields false (971 + m.log2) (m * 2^(52 - m.log2) - 2^52) := by
  rw [sub, Float.Model.sub, model_ofFields (by decide) (by decide) hm, model_ofFields (by decide) (by decide) (by decide)]
  simp only [UnpackedFloat.sub, min_self, decreaseExponent, Int.sub_self, Int.toNat_zero, Nat.shiftLeft_zero]
  have hdiff : (sgn false).apply ((2^52 + m : ℕ) : ℤ) - (sgn false).apply ((2^52 + 0 : ℕ) : ℤ) = m := by
    simp only [sgn, Bool.false_eq_true, if_false, Sign.apply]
    omega
  rw [hdiff]
  split
  · next h0 =>
    subst h0
    rfl
  · next h0 =>
    obtain ⟨hL, hlo, hhi⟩ := significand_bounds (Nat.pos_of_ne_zero h0) (show m < 2^53 by omega)
    have hc : compare (m : ℤ) 0 = .gt := by
      rw [compare_gt_iff_gt]
      omega
    have hp := pack_finite false (m * 2^(52 - m.log2)) (971 + m.log2) hlo hhi (by omega) (by omega) (h := by positivity)
    have hround := round_fits .positive (e := -52) (Nat.pos_of_ne_zero h0) (show m < 2^53 by omega) (by omega)
    rw [← hp]
    simp only [UnpackedFloat.normalize, hc, Int.toNat_natCast]
    congr 2
    refine hround.trans ?_
    exact finite_congr rfl (by omega)

/-- A number whose exponent is below that of one lies between zero and one. -/
theorem unit_interval {e f : ℕ} (he : e < 1023) (hf : f < 2^52) :
    zero.le (ofFields false e f) = true ∧ (ofFields false e f).lt (ofFields false 1023 0) = true := by
  have hsign : (ofFields false e f).signBit = false := signBit_ofFields (by omega) hf
  have hnum : (ofFields false e f).isNaN = false := by
    rw [isNaN, expo_ofFields (by omega) hf]
    exact decide_eq_false fun h => by omega
  refine ⟨?_, ?_⟩
  · rw [zero_le hnum, hsign]
    · rfl
    · intro hz
      rw [hz] at hsign
      exact absurd hsign (by decide)
  · have hone : (ofFields false 1023 0).rank = toLex (1, toLex (-52, 2^52)) := by
      rw [rank, model_ofFields (by decide) (by decide) (by decide)]
      rfl
    rw [lt_iff hnum (by decide), hone, rank, unpack_model, hsign, expo_ofFields (by omega) hf,
      frac_ofFields (by omega) hf, parts, if_neg (by omega)]
    split
    · split
      · simp [place, Prod.Lex.toLex_lt_toLex]
      · simp [place, sgn, Prod.Lex.toLex_lt_toLex]
    · have hlt : (e : ℤ) - 1075 < -52 := by omega
      simp [place, sgn, Prod.Lex.toLex_lt_toLex, hlt]

end F64
end LuajitRs
