import LuajitRs.Util.Strfmt.HexFloat
import Mathlib.Tactic.FieldSimp

/-! What the text of a hexadecimal float denotes. A subnormal number gets the exponent of half its value, and a carry
into the leading digit leaves the digit one behind the point; all other texts are exact. -/
namespace LuajitRs.Strfmt

/-- Without a carry the digits behind the point are those of the rounded significand. -/
theorem hexFraction_eq {m : BitVec 64} {f p : ℕ} {e : ℤ} (hf : m.toNat % 2^52 = f) (hp : 0 < p) (hc : ¬ Carries f p) :
    ∃ ds, hexFraction p e m = (ds, e) ∧ ds ≠ [] ∧ (∀ d ∈ ds, d < 16) ∧
      (16^ds.length + ofHex ds) * 16^p = hexNearest (2^52 + f) p * 16^ds.length := by
  rcases Nat.lt_or_ge 13 p with h13 | h13
  · obtain ⟨ds, hrun, hne, hdig, hval⟩ := hexFraction_trimmed (e := e) hf h13
    have hpow : 16^p = 2^52 * 16^(p - 13) := by
      rw [show 2^52 = 16^13 by norm_num, ← pow_add]
      congr 1
      omega
    refine ⟨ds, hrun, hne, hdig, ?_⟩
    rw [hexNearest, if_neg (by omega), hpow, ← Nat.mul_assoc, hval]
    ring
  · obtain ⟨ds, hrun, hlen, hdig, hval⟩ := hexFraction_rounded (e := e) hf hp h13 hc
    exact ⟨ds, hrun, List.ne_nil_of_length_pos (by omega), hdig, by rw [hlen, hval]⟩

/-! ### The parts of a number -/

section Parts
variable {n : F64}

theorem isZero_iff_fields : n.isZero = true ↔ n.expo = 0 ∧ n.frac = 0 := by
  constructor
  · intro h
    rcases of_decide_eq_true h with rfl | rfl
    · exact ⟨rfl, rfl⟩
    · exact ⟨rfl, rfl⟩
  · rintro ⟨he, hf⟩
    have hn := F64.ofFields_self n
    rw [he, hf] at hn
    rw [← hn]
    cases n.signBit <;> rfl

theorem hexParts_normal (he : 0 < n.expo) :
    ∃ m, hexParts n = ((n.expo : ℤ) - 1023, m) ∧ m.toNat = 2^52 + n.frac := by
  refine ⟨_, by rw [hexParts, if_neg he.ne'], ?_⟩
  have hor := Nat.shiftLeft_add_eq_or_of_lt n.frac_lt 1
  rw [Nat.one_shiftLeft] at hor
  rw [BitVec.toNat_or, BitVec.toNat_ofNat, Nat.mod_eq_of_lt (by have := n.frac_lt; omega), hor]
  rfl

/-- A subnormal number is shifted until its highest bit is the leading one. -/
theorem hexParts_subnormal (he : n.expo = 0) (hf : n.frac ≠ 0) :
    ∃ (s : ℕ) (m : BitVec 64), hexParts n = (-1023 - (s : ℤ), m) ∧ m.toNat = n.frac * 2^s ∧ s ≤ 52 ∧ 2^52 ≤ m.toNat ∧
      m.toNat < 2^53 := by
  have hlt := n.frac_lt
  obtain ⟨hlog, hlo, hhi⟩ := F64.ofInt_fields (i := (n.frac : ℤ)) (by omega) (by omega)
  rw [Int.natAbs_natCast] at hlog hlo hhi
  have hnat : (BitVec.ofNat 64 n.frac).toNat = n.frac := by
    rw [BitVec.toNat_ofNat, Nat.mod_eq_of_lt (by omega)]
  have hshift : 63 - n.frac.log2 - 11 = 52 - n.frac.log2 := by omega
  have hval : ((BitVec.ofNat 64 n.frac) <<< (52 - n.frac.log2)).toNat = n.frac * 2^(52 - n.frac.log2) := by
    rw [BitVec.toNat_shiftLeft, hnat, Nat.shiftLeft_eq, Nat.mod_eq_of_lt (by omega)]
  refine ⟨52 - n.frac.log2, (BitVec.ofNat 64 n.frac) <<< (52 - n.frac.log2), ?_, hval, by omega, ?_, ?_⟩
  · rw [hexParts, if_pos he]
    dsimp only
    rw [hnat, hshift]
  · rw [hval]
    exact hlo
  · rw [hval]
    exact hhi

theorem abs_toRat : |n.toRat| =
    if n.expo = 0 then (n.frac : ℚ) * 2^(-1074 : ℤ) else ((2^52 + n.frac : ℕ) : ℚ) * 2^((n.expo : ℤ) - 1075) := by
  have hsign : |(if n.signBit then -1 else 1 : ℚ)| = 1 := by cases n.signBit <;> simp
  rw [F64.toRat, abs_mul, hsign, one_mul, abs_of_nonneg]
  split_ifs
  · positivity
  · positivity

/-- How far the exponent of the parts is below that of the number. -/
def exponentGap (n : F64) : ℤ := if n.expo = 0 then 1 else 0

/-- The parts denote the magnitude, up to the gap. -/
theorem hexParts_value (hfin : n.Finite) (hz : n.isZero = false) :
    ∃ (e : ℤ) (m : BitVec 64) (f : ℕ), hexParts n = (e, m) ∧ m.toNat = 2^52 + f ∧ f < 2^52 ∧ e.natAbs < 2^11 ∧
      |n.toRat| = ((2^52 + f : ℕ) : ℚ) / 2^52 * 2^(e + exponentGap n) ∧ (0 < n.expo → f = n.frac) := by
  have hexpo : n.expo < 2047 := hfin
  have h52 : (2 : ℚ)^52 = 2^(52 : ℤ) := rfl
  rw [abs_toRat, exponentGap]
  rcases Nat.eq_zero_or_pos n.expo with he | he
  · have hf : n.frac ≠ 0 := fun hf => by
      rw [isZero_iff_fields.mpr ⟨he, hf⟩] at hz
      cases hz
    obtain ⟨s, m, hparts, hm, hs, hlo, hhi⟩ := hexParts_subnormal he hf
    refine ⟨_, m, m.toNat - 2^52, hparts, by omega, by omega, by omega, ?_, fun h => absurd he h.ne'⟩
    rw [if_pos he, if_pos he, Nat.add_sub_cancel' hlo, hm, Nat.cast_mul, h52, div_mul_eq_mul_div, mul_assoc, mul_div_assoc,
      Nat.cast_pow, Nat.cast_two, ← zpow_natCast, ← zpow_add₀ two_ne_zero, ← zpow_sub₀ two_ne_zero]
    congr 2
    omega
  · obtain ⟨m, hparts, hm⟩ := hexParts_normal he
    refine ⟨_, m, n.frac, hparts, hm, n.frac_lt, by omega, ?_, fun _ => rfl⟩
    rw [if_neg he.ne', if_neg he.ne', h52, div_mul_eq_mul_div, mul_div_assoc, ← zpow_sub₀ two_ne_zero]
    congr 2
    omega

end Parts

/-! ### What the text denotes -/

section Value
variable {n : F64} {p : ℕ} {upper : Bool}

/-- The number whose parts are written. -/
def magnitude (n : F64) : F64 := if n.signBit then n.neg else n

theorem magnitude_fields (n : F64) : (magnitude n).expo = n.expo ∧ (magnitude n).frac = n.frac := by
  rw [magnitude]
  split_ifs
  · rw [F64.neg_fields, F64.expo_ofFields n.expo_lt n.frac_lt, F64.frac_ofFields n.expo_lt n.frac_lt]
    exact ⟨rfl, rfl⟩
  · exact ⟨rfl, rfl⟩

theorem hexParts_magnitude (n : F64) : hexParts (magnitude n) = hexParts n := by
  obtain ⟨he, hf⟩ := magnitude_fields n
  rw [hexParts, hexParts, he, hf]

theorem isZero_magnitude (n : F64) : (magnitude n).isZero = n.isZero := by
  obtain ⟨he, hf⟩ := magnitude_fields n
  rw [Bool.eq_iff_iff, isZero_iff_fields, isZero_iff_fields, he, hf]

theorem fmtA_zero (hz : n.isZero = true) : fmtA n p upper = hexText n.signBit upper [0] [] (ch 'p') 0 := by
  have hfeq : (magnitude n).feq .zero = true := by
    have hmag := isZero_magnitude n
    rw [hz] at hmag
    rcases of_decide_eq_true hmag with h | h
    · rw [h]
      rfl
    · rw [h]
      rfl
  rw [fmtA]
  rw [magnitude] at hfeq
  dsimp only
  rw [if_pos hfeq, hexText]
  cases upper <;> simp [hexDigit, ch]

section Nonzero
variable {e : ℤ} {m : BitVec 64} (hz : n.isZero = false) (hparts : hexParts n = (e, m))
include hz hparts

theorem fmtA_whole : fmtA n 0 upper =
    hexText n.signBit upper [if 8 ≤ ((m >>> 48) &&& 0xf).toNat then 2 else 1] [] (ch 'p') e := by
  have hfeq := Scale.feq_zero ((isZero_magnitude n).trans hz)
  have hmag := (hexParts_magnitude n).trans hparts
  rw [magnitude] at hfeq hmag
  rw [fmtA]
  dsimp only
  rw [hfeq, hmag, hexText]
  simp

theorem fmtA_places (hp : 0 < p) {ds : List ℕ} {e' : ℤ} (hfrac : hexFraction p e m = (ds, e')) (hds : ds ≠ []) :
    fmtA n p upper = hexText n.signBit upper [1] ds (if upper then ch 'P' else ch 'p') e' := by
  have hfeq := Scale.feq_zero ((isZero_magnitude n).trans hz)
  have hmag := (hexParts_magnitude n).trans hparts
  have hone : hexDigit upper 1 = ch '1' := by cases upper <;> rfl
  rw [magnitude] at hfeq hmag
  rw [fmtA]
  dsimp only
  rw [hfeq, hmag, if_neg (by decide)]
  dsimp only
  rw [if_neg hp.ne', hfrac, hexText, if_neg hds, List.map_singleton, hone]
  simp

end Nonzero

/-- What the text denotes: the rounded significand with the exponent of the parts, except that a carry into the leading
digit leaves a one behind the point. -/
theorem read_fmtA {e : ℤ} {m : BitVec 64} {f : ℕ} (hz : n.isZero = false) (hparts : hexParts n = (e, m))
    (hm : m.toNat = 2^52 + f) (hf : f < 2^52) (he : e.natAbs < 2^11) :
    (¬ Carries f p → readHexFloat (fmtA n p upper) =
      some (n.signBit, hexNearest (2^52 + f) p * (2 : ℚ)^(e - 4 * p))) ∧
    (Carries f p → readHexFloat (fmtA n p upper) = some (n.signBit, 17/8 * (2 : ℚ)^e)) := by
  have hmod : m.toNat % 2^52 = f := by omega
  have hletter : ∀ upper : Bool, (if upper then ch 'P' else ch 'p') = ch 'p' ∨ (if upper then ch 'P' else ch 'p') = ch 'P' :=
    fun upper => by cases upper <;> simp
  have h16 : (16 : ℚ)^p = 2^(4 * p : ℤ) := by
    rw [zpow_mul]
    norm_num
  rcases Nat.eq_zero_or_pos p with rfl | hp
  · refine ⟨fun _ => ?_, fun hc => absurd hc.1 (by decide)⟩
    have hnear := hexNearest_eq f (p := 0) (by decide)
    rw [fmtA_whole hz hparts, topDigit, show m.toNat / 2^48 % 16 = f / 2^(48 - 4 * 0) % 16 by omega,
      read_hexText (by split_ifs <;> simp) (by simp) (.inl rfl) (by omega), hnear,
      Nat.div_eq_of_lt (show f < 2^(52 - 4 * 0) from hf)]
    split_ifs <;> simp <;> norm_num
  · have hread {ds : List ℕ} {e' : ℤ} (hrun : hexFraction p e m = (ds, e')) (hne : ds ≠ []) (hdig : ∀ d ∈ ds, d < 16)
        (he' : e'.natAbs < 2^12) : readHexFloat (fmtA n p upper) =
          some (n.signBit, ((16^ds.length + ofHex ds : ℕ) : ℚ) / 16^ds.length * 2^e') := by
      have hcons := ofHex_cons 1 ds
      rw [ofHex, Nat.one_mul] at hcons
      rw [fmtA_places hz hparts hp hrun hne, read_hexText (by simp) hdig (hletter upper) (by omega), List.singleton_append,
        hcons]
    refine ⟨fun hc => ?_, fun hc => ?_⟩
    · obtain ⟨ds, hrun, hne, hdig, hval⟩ := hexFraction_eq hmod hp hc
      have hval' : ((16^ds.length + ofHex ds : ℕ) : ℚ) * 16^p = hexNearest (2^52 + f) p * 16^ds.length := by
        exact_mod_cast hval
      have hdiv : ((16^ds.length + ofHex ds : ℕ) : ℚ) / 16^ds.length = hexNearest (2^52 + f) p / 16^p := by
        rw [div_eq_div_iff (by positivity) (by positivity), hval']
      rw [hread hrun hne hdig (by omega), hdiv, zpow_sub₀ two_ne_zero, h16, div_mul_eq_mul_div, mul_div_assoc]
    · obtain ⟨hrun, -⟩ := hexFraction_carry (e := e) hmod hc
      have hzeros : ofHex (1 :: .replicate (p - 1) 0) = 16^(p - 1) := by
        rw [ofHex_cons, List.length_replicate, ofHex, List.reverse_replicate, Nat.ofDigits_replicate_zero, Nat.one_mul,
          Nat.add_zero]
      have hdig : ∀ d ∈ 1 :: List.replicate (p - 1) 0, d < 16 := by simp
      obtain ⟨k, rfl⟩ := Nat.exists_eq_succ_of_ne_zero hp.ne'
      rw [hread hrun (by simp) hdig (by omega), hzeros, List.length_cons, List.length_replicate, zpow_add_one₀ two_ne_zero]
      push_cast
      rw [pow_succ]
      congr 2
      field_simp
      norm_num

end Value

/-! ### When the text is exact -/

section Exact
variable {n : F64}

theorem roundedHex_thirteen {m : ℕ} (hlo : 2^52 ≤ m) (hhi : m < 2^53) (e : ℤ) :
    roundedHex 13 ((m : ℚ) / 2^52 * 2^e) = (m : ℚ) / 2^52 * 2^e := by
  rw [roundedHex_eq hlo hhi, hexNearest, if_neg (by decide), zpow_sub₀ two_ne_zero, div_mul_eq_mul_div, mul_div_assoc]
  norm_num

theorem hexNearest_pos (f p : ℕ) : 0 < hexNearest (2^52 + f) p := by
  rw [hexNearest]
  split_ifs with hp
  · apply Nat.div_pos
    · rw [Nat.add_assoc]
      exact (Nat.pow_le_pow_right (by decide) (by omega)).trans (Nat.le_add_right _ _)
    · positivity
  · positivity

theorem hexExact_zero (hz : n.isZero = true) (prec : Option ℕ) (upper : Bool) :
    HexExact n prec (fmtA n (prec.getD 13) upper) := by
  obtain ⟨he, hf⟩ := isZero_iff_fields.mp hz
  have habs : |n.toRat| = 0 := by
    rw [abs_toRat, if_pos he, hf, Nat.cast_zero, zero_mul]
  have hround (p : ℕ) : roundedHex p 0 = 0 := if_pos rfl
  have hread : readHexFloat (fmtA n (prec.getD 13) upper) = some (n.signBit, 0) := by
    rw [fmtA_zero hz, read_hexText (by simp) (by simp) (.inl rfl) (by decide)]
    simp
  unfold HexExact
  rw [hread, habs]
  cases prec <;> simp [hround]

theorem hexExact_nonzero (hfin : n.Finite) (hz : n.isZero = false) (prec : Option ℕ) (upper : Bool) :
    HexExact n prec (fmtA n (prec.getD 13) upper) ↔ 0 < n.expo ∧ ¬ Carries n.frac (prec.getD 13) := by
  obtain ⟨e, m, f, hparts, hm, hf, he, habs, hfrac⟩ := hexParts_value hfin hz
  have hlo : 2^52 ≤ 2^52 + f := by omega
  have hhi : 2^52 + f < 2^53 := by omega
  have hexact (text : List UInt8) : HexExact n prec text ↔
      readHexFloat text = some (n.signBit, roundedHex (prec.getD 13) |n.toRat|) := by
    cases prec with
    | none =>
      rw [Option.getD_none, habs, roundedHex_thirteen hlo hhi, ← habs]
      rfl
    | some p => rfl
  obtain ⟨hplain, hcarry⟩ := @read_fmtA n (prec.getD 13) upper e m f hz hparts hm hf he
  rw [hexact, habs, roundedHex_eq hlo hhi]
  generalize prec.getD 13 = p at hplain hcarry ⊢
  have hpow : (2 : ℚ)^(4 * p : ℤ) = 16^p := by
    rw [zpow_mul]
    norm_num
  have hunit : (2 : ℚ)^(e + exponentGap n - 4 * p) = 2^exponentGap n * 2^(e - 4 * p) := by
    rw [← zpow_add₀ two_ne_zero]
    congr 1
    ring
  have hpos : (0 : ℚ) < 2^(e - 4 * p) := by positivity
  have hnear : (0 : ℚ) < hexNearest (2^52 + f) p := by exact_mod_cast hexNearest_pos f p
  by_cases hc : Carries f p
  · obtain ⟨-, htwice⟩ := hexFraction_carry (e := e) (show m.toNat % 2^52 = f by omega) hc
    have he' : (2 : ℚ)^e = 16^p * 2^(e - 4 * p) := by
      rw [← hpow, ← zpow_add₀ two_ne_zero]
      congr 1
      ring
    rw [hcarry hc, hunit, htwice, Option.some_inj, Prod.mk.injEq, he', exponentGap]
    constructor
    · rintro ⟨-, h⟩
      have h16 : (0 : ℚ) < 16^p * 2^(e - 4 * p) := by positivity
      push_cast at h
      split_ifs at h
      · rw [zpow_one] at h
        linarith
      · rw [zpow_zero] at h
        linarith
    · rintro ⟨h, hno⟩
      rw [← hfrac h] at hno
      exact absurd hc hno
  · rw [hplain hc, hunit, Option.some_inj, Prod.mk.injEq, exponentGap]
    constructor
    · rintro ⟨-, h⟩
      have he0 : 0 < n.expo := by
        apply Nat.pos_of_ne_zero
        intro he0
        rw [if_pos he0, zpow_one] at h
        have := mul_left_cancel₀ hnear.ne' h
        linarith
      exact ⟨he0, by rwa [← hfrac he0]⟩
    · rintro ⟨h, -⟩
      rw [if_neg h.ne', zpow_zero, one_mul]
      exact ⟨rfl, rfl⟩

/-- The text of a number denotes it, rounded to the digits asked for, exactly when the number is a zero or when it is
normal and rounding does not carry into the leading digit. -/
theorem hexExact_iff (hfin : n.Finite) (prec : Option ℕ) (upper : Bool) :
    HexExact n prec (fmtA n (prec.getD 13) upper) ↔
      n.isZero = true ∨ (0 < n.expo ∧ ¬ Carries n.frac (prec.getD 13)) := by
  cases hz : n.isZero with
  | true => exact ⟨fun _ => .inl rfl, fun _ => hexExact_zero hz prec upper⟩
  | false =>
    rw [hexExact_nonzero hfin hz]
    exact ⟨.inr, fun h => h.resolve_left (by decide)⟩

/-- One and a half with one digit, `0x1.8p+0`. -/
theorem hexExact_three_halves : HexExact ⟨0x3ff8000000000000⟩ (some 1) (fmtA ⟨0x3ff8000000000000⟩ 1 false) :=
  (hexExact_iff (n := ⟨0x3ff8000000000000⟩) (Nat.lt_of_sub_eq_succ rfl) (some 1) false).mpr (.inr (by decide))

/-- The least subnormal number is written with half its value, and the number below two with more than two. -/
theorem not_hexExact_least :
    fmtA ⟨1⟩ 13 false = "0x1.0000000000000p-1075".toList.map ch ∧
    fmtA ⟨0x3fffffffffffffff⟩ 3 true = "0X1.100P+1".toList.map ch ∧
    ¬ ∀ (n : F64) (prec : Option ℕ) (upper : Bool), n.Finite → HexExact n prec (fmtA n (prec.getD 13) upper) := by
  refine ⟨by decide, by decide, fun h => ?_⟩
  have hleast := h ⟨1⟩ none false (Nat.lt_of_sub_eq_succ rfl)
  rw [hexExact_nonzero (Nat.lt_of_sub_eq_succ rfl) (by decide)] at hleast
  exact absurd hleast.1 (by decide)

end Exact
end LuajitRs.Strfmt
