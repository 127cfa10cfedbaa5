import LuajitRs.Stdlib.Math.Scale
import LuajitRs.Util.Strfmt.Integer
import Mathlib.Algebra.Order.Round
import Mathlib.Data.Int.Log
import Mathlib.Data.List.DropRight
import Mathlib.Data.Rat.Floor

/-! Hexadecimal floats, as `%a` and `%A` write them. The digits behind the point are those of the significand, and a
precision rounds them with a carry. -/
namespace LuajitRs.Strfmt

/-! ### The text -/

/-- So many hex digits from the top of the fraction. -/
def fracDigits : ℕ → BitVec 64 → List ℕ
  | 0, _ => []
  | k + 1, m => ((m >>> 48) &&& 0xf).toNat :: fracDigits k (m <<< 4)

/-- Round up from the digit before `i` on; a carry out of the first one puts a digit in front and drops the last. -/
def carryFrom (ds : List ℕ) : ℕ → List ℕ × Bool
  | 0 => ((1 :: ds).dropLast, true)
  | i + 1 =>
    let d := ds.getD i 0 + 1
    if d < 16 then (ds.set i d, false) else carryFrom (ds.set i 0) i

/-- The exponent of a nonzero magnitude, and its significand with the leading bit. -/
def hexParts (v : F64) : ℤ × BitVec 64 :=
  let frac : BitVec 64 := .ofNat 64 v.frac
  if v.expo = 0 then
    -- The highest bit of a subnormal number is moved to the place of the leading bit.
    let shift := (63 - frac.toNat.log2) - 11
    (-1023 - shift, frac <<< shift)
  else ((v.expo : ℤ) - 1023, 0x10000000000000 ||| frac)

/-- The exponent with its sign, behind the letter. -/
def expText (letter : UInt8) (e : ℤ) : List UInt8 :=
  [letter, if e < 0 then ch '-' else ch '+'] ++ decimalUpTo 10 e.natAbs

/-- The digits behind the point and the exponent, for a precision that is not zero. -/
def hexFraction (prec : ℕ) (e2 : ℤ) (mant : BitVec 64) : List ℕ × ℤ :=
  let digits := fracDigits 13 mant
  if prec ≤ 13 then
    let ds := digits.take prec
    if 8 ≤ digits.getD prec 0 then
      let r := carryFrom ds prec
      (r.1, if r.2 then e2 + 1 else e2)
    else (ds, e2)
  else
    let s := digits.rdropWhile (· = 0)
    (if s = [] then [0] else s, e2)

def fmtA (n : F64) (prec : ℕ) (upper : Bool) : List UInt8 :=
  let head := (if n.signBit then [ch '-'] else []) ++ [ch '0', if upper then ch 'X' else ch 'x']
  let v := if n.signBit then n.neg else n
  if v.feq .zero then head ++ [ch '0'] ++ expText (ch 'p') 0
  else
    let (e2, mant) := hexParts v
    if prec = 0 then
      let whole := if 8 ≤ ((mant >>> 48) &&& 0xf).toNat then 2 else 1
      head ++ [hexDigit upper whole] ++ expText (ch 'p') e2
    else
      let (frac, e2) := hexFraction prec e2 mant
      head ++ [ch '1', ch '.'] ++ frac.map (hexDigit upper) ++ expText (if upper then ch 'P' else ch 'p') e2

/-! ### The reader -/

/-- The value of hex digits of either case. -/
def hexNat (ds : List UInt8) : ℕ := ds.foldl (fun n c => 16 * n + (digitBytes false).idxOf (Ascii.toLowercase c)) 0

/-- An optional minus, and what is behind it. -/
def readSign (s : List UInt8) : Bool × List UInt8 := if s.head? = some (ch '-') then (true, s.drop 1) else (false, s)

/-- Digits, then optionally a point and more digits: the number without the point, how many digits are behind it, and
the rest. -/
def readDigits (s : List UInt8) : ℕ × ℕ × List UInt8 :=
  let whole := s.takeWhile isDigitByte
  let s := s.dropWhile isDigitByte
  if s.head? = some (ch '.') then
    let frac := (s.drop 1).takeWhile isDigitByte
    (hexNat (whole ++ frac), frac.length, (s.drop 1).dropWhile isDigitByte)
  else (hexNat whole, 0, s)

/-- A binary exponent in decimal digits. -/
def readExponent : List UInt8 → Option ℤ
  | p :: c :: ds =>
    if (p = ch 'p' ∨ p = ch 'P') ∧ (c = ch '+' ∨ c = ch '-') ∧ ds ≠ [] ∧ ds.all Ascii.isDigit then
      some (if c = ch '-' then -(Strscan.natOf ds : ℤ) else Strscan.natOf ds)
    else none
  | _ => none

/-- The sign and the magnitude that a hexadecimal float denotes. -/
def readHexFloat (s : List UInt8) : Option (Bool × ℚ) :=
  let (neg, s) := readSign s
  if s.take 2 = [ch '0', ch 'x'] ∨ s.take 2 = [ch '0', ch 'X'] then
    let (m, places, s) := readDigits (s.drop 2)
    (readExponent s).map fun e => (neg, m / 16^places * 2^e)
  else none

/-- A magnitude rounded to so many hexadecimal digits behind its leading bit, halves away from zero. -/
def roundedHex (p : ℕ) (q : ℚ) : ℚ :=
  if q = 0 then 0
  else
    let unit : ℚ := 2^(Int.log 2 q - 4 * p)
    round (q / unit) * unit

/-- What a text for `n` has to denote. -/
def HexExact (n : F64) (prec : Option ℕ) (text : List UInt8) : Prop :=
  readHexFloat text = some (n.signBit, match prec with
    | none => |n.toRat|
    | some p => roundedHex p |n.toRat|)

/-! ### Reading what is written -/

theorem natOf_decimalUpTo (k : ℕ) {n : ℕ} (hn : n < 10^k) : Strscan.natOf (decimalUpTo k n) = n := by
  induction k generalizing n with
  | zero =>
    obtain rfl : n = 0 := by simpa using hn
    rfl
  | succ k ih =>
    have hdigit : ∀ d < 10, (ch '0' + UInt8.ofNat d).toNat - 48 = d := by decide
    rw [decimalUpTo]
    split_ifs with h
    · rw [Strscan.natOf, List.foldl_cons, List.foldl_nil, hdigit n h]
      omega
    · have hdiv : n / 10 < 10^k := by
        rw [Nat.pow_succ] at hn
        omega
      have hrest := ih hdiv
      rw [Strscan.natOf] at hrest ⊢
      rw [List.foldl_append, hrest, List.foldl_cons, List.foldl_nil, hdigit _ (Nat.mod_lt _ (by decide))]
      omega

theorem decimalUpTo_ne_nil {k : ℕ} (n : ℕ) (hk : 0 < k) : decimalUpTo k n ≠ [] := by
  obtain ⟨k, rfl⟩ := Nat.exists_eq_succ_of_ne_zero hk.ne'
  rw [decimalUpTo]
  split_ifs
  · simp
  · simp

theorem readExponent_expText {letter : UInt8} (hl : letter = ch 'p' ∨ letter = ch 'P') {e : ℤ} (he : e.natAbs < 10^10) :
    readExponent (expText letter e) = some e := by
  have hdigits : (decimalUpTo 10 e.natAbs).all Ascii.isDigit = true :=
    List.all_eq_true.mpr (isDigit_decimalUpTo 10 _)
  have hne := decimalUpTo_ne_nil (k := 10) e.natAbs (by decide)
  simp only [expText, List.cons_append, List.nil_append, readExponent, natOf_decimalUpTo 10 he]
  by_cases hneg : e < 0
  · rw [if_pos ⟨hl, by simp [hneg], hne, hdigits⟩, if_pos (by simp [hneg])]
    congr 1
    omega
  · rw [if_pos ⟨hl, by simp [hneg], hne, hdigits⟩, if_neg (by simp [hneg])]
    congr 1
    omega

section Digits
variable {upper : Bool} {vals : List ℕ}

theorem isDigitByte_map (h : ∀ d ∈ vals, d < 16) : ∀ b ∈ vals.map (hexDigit upper), isDigitByte b = true := by
  intro b hb
  obtain ⟨d, hd, rfl⟩ := List.mem_map.mp hb
  rw [hexDigit_eq upper d (h d hd)]
  exact isDigitByte_digitByte upper d (h d hd)

theorem hexNat_map (h : ∀ d ∈ vals, d < 16) : hexNat (vals.map (hexDigit upper)) = Nat.ofDigits 16 vals.reverse := by
  have hdigit : ∀ d < 16, (digitBytes false).idxOf (Ascii.toLowercase (hexDigit upper d)) = d := by
    cases upper <;> decide
  induction vals using List.reverseRecOn with
  | nil => rfl
  | append_singleton vals d ih =>
    have ih := ih fun d hd => h d (List.mem_append_left _ hd)
    rw [hexNat] at ih ⊢
    rw [List.map_append, List.foldl_append, ih, List.reverse_append]
    simp only [List.map_cons, List.map_nil, List.foldl_cons, List.foldl_nil, List.reverse_singleton, List.singleton_append,
      Nat.ofDigits_cons]
    rw [hdigit d (h d (by simp))]
    push_cast
    omega

end Digits

/-- A number as it is written: a sign, the prefix, digits, digits behind a point if there are any, and the exponent. -/
def hexText (neg upper : Bool) (whole frac : List ℕ) (letter : UInt8) (e : ℤ) : List UInt8 :=
  (if neg then [ch '-'] else []) ++ [ch '0', if upper then ch 'X' else ch 'x'] ++ whole.map (hexDigit upper) ++
    (if frac = [] then [] else ch '.' :: frac.map (hexDigit upper)) ++ expText letter e

theorem read_hexText {neg upper : Bool} {whole frac : List ℕ} {letter : UInt8} {e : ℤ}
    (hwhole : ∀ d ∈ whole, d < 16) (hfrac : ∀ d ∈ frac, d < 16) (hl : letter = ch 'p' ∨ letter = ch 'P')
    (he : e.natAbs < 10^10) :
    readHexFloat (hexText neg upper whole frac letter e) =
      some (neg, (Nat.ofDigits 16 (whole ++ frac).reverse : ℕ) / (16 : ℚ)^frac.length * (2 : ℚ)^e) := by
  set tail := (if frac = [] then [] else ch '.' :: frac.map (hexDigit upper)) ++ expText letter e with htail
  have hstops : Stops isDigitByte (expText letter e) := by
    intro b hb
    obtain rfl : letter = b := Option.some_inj.mp hb
    rcases hl with rfl | rfl
    · rfl
    · rfl
  have hdigits : readDigits (whole.map (hexDigit upper) ++ tail) =
      (Nat.ofDigits 16 (whole ++ frac).reverse, frac.length, expText letter e) := by
    by_cases hnil : frac = []
    · have hpoint : (expText letter e).head? ≠ some (ch '.') := by
        rcases hl with rfl | rfl <;> simp [expText, ch]
      rw [htail, if_pos hnil, List.nil_append, readDigits, takeWhile_append_stops (isDigitByte_map hwhole) hstops,
        dropWhile_append_stops (isDigitByte_map hwhole) hstops, if_neg hpoint, hexNat_map hwhole, hnil, List.append_nil]
      rfl
    · have hpoint : Stops isDigitByte (ch '.' :: (frac.map (hexDigit upper) ++ expText letter e)) := by
        intro b hb
        obtain rfl : ch '.' = b := Option.some_inj.mp hb
        rfl
      have hall : ∀ d ∈ whole ++ frac, d < 16 := fun d hd => (List.mem_append.mp hd).elim (hwhole d) (hfrac d)
      rw [htail, if_neg hnil, List.cons_append, readDigits, takeWhile_append_stops (isDigitByte_map hwhole) hpoint,
        dropWhile_append_stops (isDigitByte_map hwhole) hpoint, if_pos List.head?_cons, List.drop_one, List.tail_cons,
        takeWhile_append_stops (isDigitByte_map hfrac) hstops, dropWhile_append_stops (isDigitByte_map hfrac) hstops]
      dsimp only
      rw [← List.map_append, hexNat_map hall, List.length_map]
  have hsign : readSign (hexText neg upper whole frac letter e) =
      (neg, [ch '0', if upper then ch 'X' else ch 'x'] ++ (whole.map (hexDigit upper) ++ tail)) := by
    cases neg <;> simp [hexText, readSign, ch, htail]
  have hdrop : ([ch '0', if upper then ch 'X' else ch 'x'] ++ (whole.map (hexDigit upper) ++ tail)).drop 2 =
      whole.map (hexDigit upper) ++ tail := rfl
  rw [readHexFloat, hsign]
  dsimp only
  rw [if_pos (by cases upper <;> simp), hdrop, hdigits]
  dsimp only
  rw [readExponent_expText hl he]
  rfl

/-! ### The digits of the fraction -/

/-- The number that digits write, the highest first. -/
def ofHex (ds : List ℕ) : ℕ := Nat.ofDigits 16 ds.reverse

theorem ofHex_append (ds ds' : List ℕ) : ofHex (ds ++ ds') = ofHex ds * 16^ds'.length + ofHex ds' := by
  rw [ofHex, List.reverse_append, Nat.ofDigits_append, List.length_reverse, ofHex, ofHex, Nat.mul_comm, Nat.add_comm]

theorem ofHex_cons (d : ℕ) (ds : List ℕ) : ofHex (d :: ds) = d * 16^ds.length + ofHex ds := by
  have h := ofHex_append [d] ds
  rwa [List.singleton_append, show ofHex [d] = d from Nat.ofDigits_singleton] at h

theorem ofHex_lt {ds : List ℕ} (h : ∀ d ∈ ds, d < 16) : ofHex ds < 16^ds.length := by
  rw [ofHex, ← List.length_reverse]
  exact Nat.ofDigits_lt_base_pow_length (by decide) fun d hd => h d (List.mem_reverse.mp hd)

section Fraction
variable {k : ℕ} {m : BitVec 64}

theorem topDigit (m : BitVec 64) : ((m >>> 48) &&& 0xf).toNat = m.toNat / 2^48 % 16 := by
  rw [BitVec.toNat_and, BitVec.toNat_ushiftRight, Nat.shiftRight_eq_div_pow]
  exact Nat.and_two_pow_sub_one_eq_mod _ 4

theorem shift_fraction (m : BitVec 64) : (m <<< 4).toNat % 2^52 = 16 * (m.toNat % 2^48) := by
  rw [BitVec.toNat_shiftLeft, Nat.shiftLeft_eq]
  omega

/-- The quotient of the fraction, from its top digit and the rest. -/
theorem fraction_div {p q : ℕ} (m : BitVec 64) (h : 2^48 = p * q) :
    m.toNat % 2^52 / q = m.toNat / 2^48 % 16 * p + m.toNat % 2^48 / q := by
  have hq : 0 < q := Nat.pos_of_ne_zero fun h0 => by simp [h0] at h
  have hsplit : m.toNat % 2^52 = m.toNat % 2^48 + m.toNat / 2^48 % 16 * p * q := by
    rw [mul_assoc, ← h]
    omega
  rw [hsplit, Nat.add_mul_div_right _ _ hq, Nat.add_comm]

theorem fracDigits_bounds : (fracDigits k m).length = k ∧ ∀ d ∈ fracDigits k m, d < 16 := by
  induction k generalizing m with
  | zero => exact ⟨rfl, by simp [fracDigits]⟩
  | succ k ih =>
    obtain ⟨hlen, hlt⟩ := ih (m := m <<< 4)
    refine ⟨by rw [fracDigits, List.length_cons, hlen], fun d hd => ?_⟩
    obtain rfl | hd := List.mem_cons.mp hd
    · rw [topDigit]
      exact Nat.mod_lt _ (by decide)
    · exact hlt d hd

theorem ofHex_fracDigits (hk : k ≤ 13) : ofHex (fracDigits k m) = m.toNat % 2^52 / 2^(52 - 4 * k) := by
  induction k generalizing m with
  | zero =>
    rw [Nat.div_eq_of_lt (Nat.mod_lt _ (by decide))]
    rfl
  | succ k ih =>
    rw [fracDigits, ofHex_cons, fracDigits_bounds.1, ih (by omega), topDigit, shift_fraction]
    have hpow : 2^(52 - 4 * k) = 16 * 2^(52 - 4 * (k + 1)) := by
      rw [show 16 = 2^4 by norm_num, ← pow_add]
      congr 1
      omega
    have h48 : 2^48 = 16^k * 2^(52 - 4 * (k + 1)) := by
      rw [show 16 = 2^4 by norm_num, ← pow_mul, ← pow_add]
      congr 1
      omega
    rw [hpow, Nat.mul_div_mul_left _ _ (by decide), fraction_div m h48]

theorem take_fracDigits {j : ℕ} (hj : j ≤ k) : (fracDigits k m).take j = fracDigits j m := by
  induction j generalizing k m with
  | zero => rfl
  | succ j ih =>
    obtain ⟨k, rfl⟩ := Nat.exists_eq_succ_of_ne_zero (by omega : k ≠ 0)
    rw [fracDigits, List.take_succ_cons, ih (by omega)]
    rfl

/-- The digit behind the first `j`. -/
theorem getD_fracDigits {j : ℕ} (hj : j < k) (hk : k ≤ 13) :
    (fracDigits k m).getD j 0 = m.toNat % 2^52 / 2^(48 - 4 * j) % 16 := by
  induction j generalizing k m with
  | zero =>
    obtain ⟨k, rfl⟩ := Nat.exists_eq_succ_of_ne_zero (by omega : k ≠ 0)
    rw [fracDigits, List.getD_cons_zero, topDigit]
    omega
  | succ j ih =>
    obtain ⟨k, rfl⟩ := Nat.exists_eq_succ_of_ne_zero (by omega : k ≠ 0)
    rw [fracDigits, List.getD_cons_succ, ih (by omega) (by omega), shift_fraction]
    have hpow : 2^(48 - 4 * j) = 16 * 2^(48 - 4 * (j + 1)) := by
      rw [show 16 = 2^4 by norm_num, ← pow_add]
      congr 1
      omega
    have h48 : 2^48 = 16^j * 16 * 2^(48 - 4 * (j + 1)) := by
      rw [show 16 = 2^4 by norm_num, ← pow_succ, ← pow_mul, ← pow_add]
      congr 1
      omega
    rw [hpow, Nat.mul_div_mul_left _ _ (by decide), fraction_div m h48, ← mul_assoc,
      Nat.mul_add_mod_self_right]

end Fraction

/-! ### The carry -/

theorem carryFrom_append (pre post : List ℕ) (h : ∀ d ∈ pre, d < 16) :
    (∃ pre', pre'.length = pre.length ∧ (∀ d ∈ pre', d < 16) ∧ ofHex pre' = ofHex pre + 1 ∧
      carryFrom (pre ++ post) pre.length = (pre' ++ post, false)) ∨
    (pre = .replicate pre.length 15 ∧
      carryFrom (pre ++ post) pre.length = ((1 :: (.replicate pre.length 0 ++ post)).dropLast, true)) := by
  induction pre using List.reverseRecOn generalizing post with
  | nil => exact .inr ⟨rfl, rfl⟩
  | append_singleton pre d ih =>
    have hd : d < 16 := h d (by simp)
    have hget : (pre ++ [d] ++ post).getD pre.length 0 = d := by simp
    have hset (x : ℕ) : (pre ++ [d] ++ post).set pre.length x = pre ++ (x :: post) := by simp
    rw [List.length_append, List.length_singleton, carryFrom, hget, hset, hset]
    split_ifs with hlt
    · refine .inl ⟨pre ++ [d + 1], by simp, fun x hx => ?_, ?_, by simp⟩
      · obtain hx | hx := List.mem_append.mp hx
        · exact h x (List.mem_append_left _ hx)
        · rw [List.mem_singleton.mp hx]
          exact hlt
      · rw [ofHex_append, ofHex_append]
        simp only [List.length_singleton, ofHex, List.reverse_singleton, Nat.ofDigits_singleton]
        omega
    · obtain rfl : d = 15 := by omega
      obtain ⟨pre', hlen, hlt', hval, hrun⟩ | ⟨hall, hrun⟩ := ih (0 :: post) fun x hx => h x (List.mem_append_left _ hx)
      · refine .inl ⟨pre' ++ [0], by simp [hlen], fun x hx => ?_, ?_, by simpa using hrun⟩
        · obtain hx | hx := List.mem_append.mp hx
          · exact hlt' x hx
          · rw [List.mem_singleton.mp hx]
            decide
        · rw [ofHex_append, ofHex_append, hval]
          simp only [List.length_singleton, ofHex, List.reverse_singleton, Nat.ofDigits_singleton]
          omega
      · refine .inr ⟨?_, ?_⟩
        · conv_lhs => rw [hall]
          rw [List.replicate_succ']
        · rw [hrun, List.replicate_succ', List.append_assoc]
          rfl

theorem ofHex_fifteens (n : ℕ) : ofHex (.replicate n 15) + 1 = 16^n := by
  induction n with
  | zero => rfl
  | succ n ih =>
    rw [List.replicate_succ, ofHex_cons, List.length_replicate, pow_succ]
    omega

/-- Rounding up, with and without a carry out of the first digit. -/
theorem carryFrom_eq {ds : List ℕ} (h : ∀ d ∈ ds, d < 16) :
    (ofHex ds + 1 < 16^ds.length ∧ ∃ ds', ds'.length = ds.length ∧ (∀ d ∈ ds', d < 16) ∧ ofHex ds' = ofHex ds + 1 ∧
      carryFrom ds ds.length = (ds', false)) ∨
    (ofHex ds + 1 = 16^ds.length ∧ carryFrom ds ds.length = ((1 :: .replicate ds.length 0).dropLast, true)) := by
  have hrun := carryFrom_append ds [] h
  rw [List.append_nil, List.append_nil] at hrun
  obtain ⟨ds', hlen, hlt, hval, hrun⟩ | ⟨hall, hrun⟩ := hrun
  · refine .inl ⟨?_, ds', hlen, hlt, hval, by rw [hrun, List.append_nil]⟩
    rw [← hval, ← hlen]
    exact ofHex_lt hlt
  · refine .inr ⟨?_, hrun⟩
    conv_lhs => rw [hall]
    exact ofHex_fifteens _

/-! ### Rounding -/

/-- The significand `m` with 52 bits behind the point, rounded to `p` hex digits behind it. -/
def hexNearest (m p : ℕ) : ℕ := if p < 13 then (m + 2^(51 - 4 * p)) / 2^(52 - 4 * p) else m * 16^(p - 13)

theorem roundedHex_eq {m : ℕ} (hlo : 2^52 ≤ m) (hhi : m < 2^53) (e : ℤ) (p : ℕ) :
    roundedHex p ((m : ℚ) / 2^52 * 2^e) = hexNearest m p * (2 : ℚ)^(e - 4 * p) := by
  have hpos : (0 : ℚ) < (m : ℚ) / 2^52 * 2^e := by
    have : (0 : ℚ) < m := by exact_mod_cast (by omega : 0 < m)
    positivity
  have hone : (1 : ℚ) ≤ (m : ℚ) / 2^52 := by
    rw [le_div_iff₀ (by positivity), one_mul]
    exact_mod_cast hlo
  have htwo : (m : ℚ) / 2^52 < 2 := by
    rw [div_lt_iff₀ (by positivity)]
    exact_mod_cast (by omega : m < 2 * 2^52)
  have hlog : Int.log 2 ((m : ℚ) / 2^52 * 2^e) = e := by
    apply le_antisymm
    · rw [← Int.lt_add_one_iff, ← Int.lt_zpow_iff_log_lt (by decide) hpos, Nat.cast_ofNat, zpow_add_one₀ two_ne_zero,
        mul_comm]
      exact mul_lt_mul_of_pos_left htwo (by positivity)
    · rw [← Int.zpow_le_iff_le_log (by decide) hpos, Nat.cast_ofNat]
      exact le_mul_of_one_le_left (by positivity) hone
  have hunit : (m : ℚ) / 2^52 * 2^e / 2^(e - 4 * p) = (m : ℚ) * 16^p / 2^52 := by
    rw [zpow_sub₀ two_ne_zero, show (2 : ℚ)^(4 * p : ℤ) = 16^p by rw [zpow_mul]; norm_num]
    field_simp
  rw [roundedHex, if_neg hpos.ne', hlog]
  dsimp only
  rw [hunit]
  congr 1
  rw [hexNearest]
  split_ifs with hp
  · have hpow : (2 : ℚ)^52 = 16^p * 2^(52 - 4 * p) := by
      rw [show (16 : ℚ) = 2^4 by norm_num, ← pow_mul, ← pow_add]
      congr 1
      omega
    have hhalf : (2 : ℚ)^(52 - 4 * p) = 2 * 2^(51 - 4 * p) := by
      rw [← pow_succ']
      congr 1
      omega
    have hq : (m : ℚ) * 16^p / 2^52 + 1/2 = ((m + 2^(51 - 4 * p) : ℕ) : ℚ) / ((2^(52 - 4 * p) : ℕ) : ℚ) := by
      push_cast
      rw [hpow, hhalf]
      field_simp
    rw [round_eq, hq, Rat.floor_natCast_div_natCast]
    rfl
  · have hpow : (16 : ℚ)^p = 2^52 * 16^(p - 13) := by
      rw [show (2 : ℚ)^52 = 16^13 by norm_num, ← pow_add]
      congr 1
      omega
    have hq : (m : ℚ) * 16^p / 2^52 = ((m * 16^(p - 13) : ℕ) : ℚ) := by
      push_cast
      rw [hpow]
      field_simp
    rw [hq, round_natCast]
    rfl

/-- Whether rounding the fraction carries into the leading digit. -/
def Carries (f p : ℕ) : Prop := 1 ≤ p ∧ p ≤ 12 ∧ 2^52 ≤ f + 2^(51 - 4 * p)

instance (f p : ℕ) : Decidable (Carries f p) := inferInstanceAs (Decidable (_ ∧ _ ∧ _))

section Fraction
variable {m : BitVec 64} {f p : ℕ} {e : ℤ} (hf : m.toNat % 2^52 = f)

theorem pow_places (hp : p < 13) : 2^52 = 16^p * 2^(52 - 4 * p) ∧ 2^(52 - 4 * p) = 2^(48 - 4 * p) * 16 ∧
    2^(51 - 4 * p) = 8 * 2^(48 - 4 * p) := by
  refine ⟨?_, ?_, ?_⟩
  · rw [show 16 = 2^4 by norm_num, ← pow_mul, ← pow_add]
    congr 1
    omega
  · rw [show 16 = 2^4 by norm_num, ← pow_add]
    congr 1
    omega
  · rw [show 8 = 2^3 by norm_num, ← pow_add]
    congr 1
    omega

/-- Rounding looks at the next digit. -/
theorem hexNearest_eq (f : ℕ) (hp : p < 13) : hexNearest (2^52 + f) p =
    16^p + (f / 2^(52 - 4 * p) + if 8 ≤ f / 2^(48 - 4 * p) % 16 then 1 else 0) := by
  obtain ⟨hone, hunit, hhalf⟩ := pow_places hp
  have hpos : 0 < 2^(48 - 4 * p) := by positivity
  have hround : (f + 2^(51 - 4 * p)) / 2^(52 - 4 * p) = (f / 2^(48 - 4 * p) + 8) / 16 := by
    rw [hunit, ← Nat.div_div_eq_div_mul, hhalf, Nat.add_mul_div_right _ _ hpos]
  rw [hexNearest, if_pos hp, Nat.add_assoc, hone, Nat.mul_comm (16^p), Nat.mul_add_div (by positivity), hround, hunit,
    ← Nat.div_div_eq_div_mul]
  split_ifs <;> omega

theorem carries_iff (hlt : f < 2^52) (h1 : 1 ≤ p) (hp : p < 13) :
    Carries f p ↔ f / 2^(52 - 4 * p) + (if 8 ≤ f / 2^(48 - 4 * p) % 16 then 1 else 0) = 16^p := by
  obtain ⟨hone, hunit, hhalf⟩ := pow_places hp
  have hpos : 0 < 2^(52 - 4 * p) := by positivity
  have hnear := hexNearest_eq f hp
  have hle : (f + 2^(51 - 4 * p)) / 2^(52 - 4 * p) < 16^p + 1 := by
    rw [Nat.div_lt_iff_lt_mul hpos, Nat.add_mul, ← hone]
    omega
  have hge : 16^p ≤ (f + 2^(51 - 4 * p)) / 2^(52 - 4 * p) ↔ 2^52 ≤ f + 2^(51 - 4 * p) := by
    rw [Nat.le_div_iff_mul_le hpos, ← hone]
  rw [hexNearest, if_pos hp, Nat.add_assoc, hone, Nat.mul_comm (16^p), Nat.mul_add_div hpos] at hnear
  rw [Carries, ← Nat.add_left_cancel hnear, ← hge]
  omega

/-- Trailing zeros are cut off. -/
theorem trimmed (ds : List ℕ) : ∃ k, ds = ds.rdropWhile (· = 0) ++ .replicate k 0 := by
  have hzeros : ds.rtakeWhile (· = 0) = .replicate (ds.rtakeWhile (· = 0)).length 0 :=
    List.eq_replicate_iff.mpr ⟨rfl, fun d hd => by simpa using List.mem_rtakeWhile_imp hd⟩
  exact ⟨_, by rw [← hzeros, List.rdropWhile_append_rtakeWhile]⟩

include hf

/-- The written fraction without a carry, for a precision within the digits. -/
theorem hexFraction_rounded (hp : 0 < p) (h13 : p ≤ 13) (hc : ¬ Carries f p) :
    ∃ ds, hexFraction p e m = (ds, e) ∧ ds.length = p ∧ (∀ d ∈ ds, d < 16) ∧
      16^p + ofHex ds = hexNearest (2^52 + f) p := by
  have hlt : f < 2^52 := hf ▸ Nat.mod_lt _ (by decide)
  obtain ⟨hlen, hdig⟩ := fracDigits_bounds (k := p) (m := m)
  have hval := ofHex_fracDigits (m := m) h13
  rw [hf] at hval
  rw [hexFraction, if_pos h13, take_fracDigits h13]
  rcases Nat.lt_or_ge p 13 with hp12 | hp13
  · have hnext := getD_fracDigits (m := m) hp12 le_rfl
    have hnear := hexNearest_eq f hp12
    have hcarry := carries_iff hlt hp hp12
    rw [hf] at hnext
    rw [hnext, hnear]
    split_ifs at hcarry ⊢ with h8
    · obtain ⟨-, ds', hlen', hdig', hval', hrun⟩ | ⟨hover, -⟩ := carryFrom_eq hdig
      · rw [hlen] at hrun hlen'
        refine ⟨ds', ?_, hlen', hdig', by rw [hval', hval]⟩
        dsimp only
        rw [hrun]
        rfl
      · rw [hlen, hval] at hover
        exact absurd (hcarry.mpr hover) hc
    · exact ⟨_, rfl, hlen, hdig, by rw [hval, Nat.add_zero]⟩
  · obtain rfl : p = 13 := by omega
    have hnext : (fracDigits 13 m).getD 13 0 = 0 := by
      rw [List.getD_eq_getElem?_getD, List.getElem?_eq_none (by omega)]
      rfl
    rw [hnext, if_neg (by decide)]
    refine ⟨_, rfl, hlen, hdig, ?_⟩
    rw [hexNearest, if_neg (by decide), hval]
    norm_num

/-- The written fraction for a precision beyond the digits. -/
theorem hexFraction_trimmed (h13 : 13 < p) :
    ∃ ds, hexFraction p e m = (ds, e) ∧ ds ≠ [] ∧ (∀ d ∈ ds, d < 16) ∧
      (16^ds.length + ofHex ds) * 2^52 = (2^52 + f) * 16^ds.length := by
  have hval := ofHex_fracDigits (m := m) (k := 13) le_rfl
  obtain ⟨hlen, hdig⟩ := fracDigits_bounds (k := 13) (m := m)
  obtain ⟨k, hk⟩ := trimmed (fracDigits 13 m)
  rw [hf, show 52 - 4 * 13 = 0 from rfl, pow_zero, Nat.div_one] at hval
  rw [hexFraction, if_neg (by omega)]
  dsimp only
  generalize (fracDigits 13 m).rdropWhile (· = 0) = s at hk
  rw [hk, List.length_append, List.length_replicate] at hlen
  have hsum : f = ofHex s * 16^k := by
    rw [← hval, hk, ofHex_append, List.length_replicate, ofHex, ofHex, List.reverse_replicate,
      Nat.ofDigits_replicate_zero, Nat.add_zero]
  have hpow : 2^52 = 16^s.length * 16^k := by
    rw [← pow_add, hlen]
    norm_num
  split_ifs with hnil
  · refine ⟨_, rfl, by simp, by simp, ?_⟩
    have h0 : f = 0 := by
      rw [hsum, hnil]
      exact Nat.zero_mul _
    rw [h0, show ofHex [0] = 0 from rfl, Nat.add_zero, Nat.add_zero, Nat.mul_comm]
  · refine ⟨_, rfl, hnil, fun d hd => hdig d (hk ▸ List.mem_append_left _ hd), ?_⟩
    rw [hsum, hpow]
    ring

/-- With a carry the digit one is written in front of the zeros. -/
theorem hexFraction_carry (hc : Carries f p) :
    hexFraction p e m = (1 :: .replicate (p - 1) 0, e + 1) ∧ hexNearest (2^52 + f) p = 2 * 16^p := by
  have hlt : f < 2^52 := hf ▸ Nat.mod_lt _ (by decide)
  have hp : p < 13 := by have := hc.2.1; omega
  obtain ⟨hlenp, hdigp⟩ := fracDigits_bounds (k := p) (m := m)
  have hval := ofHex_fracDigits (m := m) (show p ≤ 13 by omega)
  have hnext := getD_fracDigits (m := m) hp le_rfl
  have hsum := (carries_iff hlt hc.1 hp).mp hc
  rw [hf] at hval hnext
  have hbound := ofHex_lt hdigp
  rw [hlenp, hval] at hbound
  rw [hexNearest_eq f hp, hsum]
  refine ⟨?_, by ring⟩
  rw [hexFraction, if_pos (by omega), take_fracDigits (by omega), hnext]
  split_ifs at hsum ⊢ with h8
  · obtain ⟨hless, -⟩ | ⟨-, hrun⟩ := carryFrom_eq hdigp
    · rw [hlenp, hval] at hless
      omega
    · rw [hlenp] at hrun
      dsimp only
      rw [hrun]
      obtain ⟨k, rfl⟩ := Nat.exists_eq_succ_of_ne_zero (show p ≠ 0 by have := hc.1; omega)
      rw [List.replicate_succ', ← List.cons_append, List.dropLast_concat]
      rfl
  · omega

end Fraction

end LuajitRs.Strfmt
