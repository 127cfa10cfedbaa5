import Mathlib.Data.Nat.Log
import Mathlib.Data.Nat.Size
import Mathlib.Tactic.Ring
import Mathlib.Tactic.NormNum
import Mathlib.Tactic.Positivity

/-! Binary64 numbers as bit patterns, with the conversions from and to 32-bit integers that the
runtime relies on. Only operations that are exact on integers are computed here; no rounding
mode is modelled. -/
namespace LuajitRs

/-- A double, identified by its bit pattern. -/
structure F64 where
  bits : UInt64
  deriving DecidableEq, Repr

namespace F64

def zero : F64 := ⟨0⟩
def negZero : F64 := ⟨0x8000000000000000⟩
/-- The canonical quiet NaN, `f64::NAN`. -/
def nan : F64 := ⟨0x7ff8000000000000⟩

def signBit (x : F64) : Bool := 2^63 ≤ x.bits.toNat
def expo (x : F64) : ℕ := x.bits.toNat / 2^52 % 2^11
def frac (x : F64) : ℕ := x.bits.toNat % 2^52

def ofFields (s : Bool) (e f : ℕ) : F64 :=
  ⟨UInt64.ofNat ((if s then 2^63 else 0) + e*2^52 + f)⟩

def isNaN (x : F64) : Bool := x.expo = 2047 ∧ x.frac ≠ 0
def isZero (x : F64) : Bool := x = zero ∨ x = negZero

/-- IEEE equality: NaN differs from itself and the two zeros agree. -/
def feq (x y : F64) : Bool := !x.isNaN && !y.isNaN && (x == y || (x.isZero && y.isZero))

/-- The magnitude of a finite number, rounded towards zero. -/
def truncMag (x : F64) : ℕ :=
  if x.expo = 0 then 0
  else if 1075 ≤ x.expo then (2^52 + x.frac) * 2^(x.expo-1075)
  else (2^52 + x.frac) / 2^(1075-x.expo)

/-- Rounding towards zero; infinities are larger than every integer type. -/
def trunc (x : F64) : ℤ := if x.signBit then -(x.truncMag : ℤ) else x.truncMag

/-- `n as i32`: truncation that saturates and sends NaN to zero. -/
def asI32 (x : F64) : ℤ := if x.isNaN then 0 else max (-2^31) (min (2^31-1) x.trunc)

/-- `i as f64` for an integer below `2^53` in magnitude, where the conversion is exact. -/
def ofInt (i : ℤ) : F64 :=
  if i = 0 then zero
  else ofFields (i < 0) (1023 + i.natAbs.log2) (i.natAbs * 2^(52 - i.natAbs.log2) - 2^52)

/-- Exact conversion to `i32`: the round trip through the integer gives the number back. -/
def asInt32Exact (x : F64) : Option ℤ :=
  if (ofInt x.asI32).feq x then some x.asI32 else none

/-- The normalisation of table keys: one NaN, and no negative zero. -/
def normalize (x : F64) : F64 := if x.isNaN then nan else if x.isZero then zero else x

theorem toNat_ofFields {s : Bool} {e f : ℕ} (he : e < 2^11) (hf : f < 2^52) :
    (ofFields s e f).bits.toNat = (if s then 2^63 else 0) + e*2^52 + f := by
  simp only [ofFields, UInt64.toNat_ofNat']
  cases s <;> simp <;> omega

theorem expo_ofFields {s : Bool} {e f : ℕ} (he : e < 2^11) (hf : f < 2^52) :
    (ofFields s e f).expo = e := by
  rw [expo, toNat_ofFields he hf]
  cases s <;> simp <;> omega

theorem frac_ofFields {s : Bool} {e f : ℕ} (he : e < 2^11) (hf : f < 2^52) :
    (ofFields s e f).frac = f := by
  rw [frac, toNat_ofFields he hf]
  cases s <;> simp <;> omega

theorem signBit_ofFields {s : Bool} {e f : ℕ} (he : e < 2^11) (hf : f < 2^52) :
    (ofFields s e f).signBit = s := by
  rw [signBit, toNat_ofFields he hf]
  cases s <;> simp <;> omega

/-- The fields of a nonzero integer: its top bit gives the exponent, and scaling by the rest of
the significand width is exact. -/
theorem ofInt_fields {i : ℤ} (h0 : i ≠ 0) (hi : i.natAbs < 2^53) :
    i.natAbs.log2 ≤ 52 ∧ 2^52 ≤ i.natAbs * 2^(52 - i.natAbs.log2) ∧
      i.natAbs * 2^(52 - i.natAbs.log2) < 2^53 := by
  have hn : i.natAbs ≠ 0 := by omega
  have hlo := Nat.log2_self_le hn
  have hhi := Nat.lt_log2_self (n := i.natAbs)
  set L := i.natAbs.log2
  have hL : L ≤ 52 := by
    by_contra h
    have := Nat.pow_le_pow_right (show 0 < 2 by norm_num) (show 53 ≤ L by omega)
    omega
  have hpow : 2^L * 2^(52-L) = 2^52 := by rw [← pow_add]; congr 1; omega
  have hpos : 0 < 2^(52-L) := by positivity
  refine ⟨hL, ?_, ?_⟩
  · calc 2^52 = 2^L * 2^(52-L) := hpow.symm
      _ ≤ i.natAbs * 2^(52-L) := Nat.mul_le_mul_right _ hlo
  · calc i.natAbs * 2^(52-L) < 2^(L+1) * 2^(52-L) := Nat.mul_lt_mul_of_pos_right hhi hpos
      _ = 2 * (2^L * 2^(52-L)) := by ring
      _ = 2^53 := by rw [hpow]; norm_num

section OfInt
variable {i : ℤ}

theorem expo_ofInt (h0 : i ≠ 0) (hi : i.natAbs < 2^53) : (ofInt i).expo = 1023 + i.natAbs.log2 := by
  obtain ⟨hL, _, hhi⟩ := ofInt_fields h0 hi
  rw [ofInt, if_neg h0, expo_ofFields (by omega) (by omega)]

theorem truncMag_ofInt (hi : i.natAbs < 2^53) : (ofInt i).truncMag = i.natAbs := by
  by_cases h0 : i = 0
  · subst h0; rfl
  obtain ⟨hL, hlo, hhi⟩ := ofInt_fields h0 hi
  have he := expo_ofInt h0 hi
  have hf : (ofInt i).frac = i.natAbs * 2^(52 - i.natAbs.log2) - 2^52 := by
    rw [ofInt, if_neg h0, frac_ofFields (by omega) (by omega)]
  have hsum : 2^52 + (i.natAbs * 2^(52 - i.natAbs.log2) - 2^52) =
      i.natAbs * 2^(52 - i.natAbs.log2) := by omega
  simp only [truncMag, he, hf, hsum]
  rw [if_neg (by omega)]
  split_ifs with h
  · have : i.natAbs.log2 = 52 := by omega
    simp [this]
  · have : 1075 - (1023 + i.natAbs.log2) = 52 - i.natAbs.log2 := by omega
    rw [this, Nat.mul_div_cancel _ (by positivity)]

theorem signBit_ofInt (hi : i.natAbs < 2^53) : (ofInt i).signBit = decide (i < 0) := by
  by_cases h0 : i = 0
  · subst h0; rfl
  obtain ⟨hL, _, hhi⟩ := ofInt_fields h0 hi
  rw [ofInt, if_neg h0, signBit_ofFields (by omega) (by omega)]

theorem trunc_ofInt (hi : i.natAbs < 2^53) : (ofInt i).trunc = i := by
  rw [trunc, signBit_ofInt hi, truncMag_ofInt hi]
  by_cases h : i < 0
  · rw [if_pos (by simpa using h)]; omega
  · rw [if_neg (by simpa using h)]; omega

theorem isNaN_ofInt (hi : i.natAbs < 2^53) : (ofInt i).isNaN = false := by
  by_cases h0 : i = 0
  · subst h0; rfl
  have := expo_ofInt h0 hi
  have := (ofInt_fields h0 hi).1
  simp only [isNaN, decide_eq_false_iff_not]
  omega

theorem isZero_ofInt (hi : i.natAbs < 2^53) : (ofInt i).isZero = decide (i = 0) := by
  by_cases h0 : i = 0
  · subst h0; rfl
  have he := expo_ofInt h0 hi
  have : ¬ (ofInt i = zero ∨ ofInt i = negZero) := by
    rintro (h | h) <;> rw [h] at he <;> simp [expo, zero, negZero] at he <;> omega
  simp [isZero, h0, this]

theorem asI32_ofInt (hlo : -2^31 ≤ i) (hhi : i < 2^31) : (ofInt i).asI32 = i := by
  have hi : i.natAbs < 2^53 := by omega
  rw [asI32, isNaN_ofInt hi, trunc_ofInt hi]
  simp only [Bool.false_eq_true, if_false]
  omega

end OfInt

theorem asI32_bounds (x : F64) : -2^31 ≤ x.asI32 ∧ x.asI32 < 2^31 := by
  unfold asI32
  split_ifs <;> omega

theorem feq_ofInt {i : ℤ} (hi : i.natAbs < 2^53) (x : F64) :
    (ofInt i).feq x ↔ x = ofInt i ∨ (i = 0 ∧ x = negZero) := by
  have hz := isZero_ofInt hi
  have hzero : isNaN zero = false := rfl
  have hneg : isNaN negZero = false := rfl
  simp only [feq, isNaN_ofInt hi, hz, Bool.not_false, Bool.true_and, Bool.and_eq_true,
    Bool.or_eq_true, beq_iff_eq, decide_eq_true_eq, Bool.not_eq_true']
  constructor
  · rintro ⟨_, h | ⟨rfl, h⟩⟩
    · exact .inl h.symm
    · simp only [isZero, decide_eq_true_eq] at h
      rcases h with h | h
      · exact .inl h
      · exact .inr ⟨rfl, h⟩
  · rintro (rfl | ⟨rfl, rfl⟩)
    · exact ⟨isNaN_ofInt hi, .inl rfl⟩
    · exact ⟨hneg, .inr ⟨rfl, rfl⟩⟩

/-- The numbers with an exact `i32` value are the converted integers, and negative zero. -/
theorem asInt32Exact_eq_some {x : F64} {k : ℤ} :
    x.asInt32Exact = some k ↔
      (-2^31 ≤ k ∧ k < 2^31) ∧ (x = ofInt k ∨ (k = 0 ∧ x = negZero)) := by
  have hb := asI32_bounds x
  unfold asInt32Exact
  constructor
  · intro h
    split_ifs at h with he
    rw [Option.some.injEq] at h
    subst h
    exact ⟨hb, (feq_ofInt (by omega) x).mp he⟩
  · rintro ⟨hk, h⟩
    have hx : x.asI32 = k := by
      rcases h with rfl | ⟨rfl, rfl⟩
      · exact asI32_ofInt hk.1 hk.2
      · rfl
    rw [hx, if_pos ((feq_ofInt (by omega) x).mpr h)]

theorem asInt32Exact_ofInt {k : ℤ} (hlo : -2^31 ≤ k) (hhi : k < 2^31) :
    (ofInt k).asInt32Exact = some k :=
  asInt32Exact_eq_some.mpr ⟨⟨hlo, hhi⟩, .inl rfl⟩

theorem ofInt_inj {i j : ℤ} (hi : i.natAbs < 2^53) (hj : j.natAbs < 2^53) (h : ofInt i = ofInt j) :
    i = j := by
  rw [← trunc_ofInt hi, h, trunc_ofInt hj]

theorem normalize_ofInt {i : ℤ} (hi : i.natAbs < 2^53) : (ofInt i).normalize = ofInt i := by
  rw [normalize, isNaN_ofInt hi, isZero_ofInt hi]
  by_cases h : i = 0
  · subst h; rfl
  · simp [h]

@[simp] theorem normalize_negZero : negZero.normalize = zero := rfl

theorem normalize_normalize (x : F64) : x.normalize.normalize = x.normalize := by
  by_cases h : x.isNaN
  · rw [show x.normalize = nan by rw [normalize, if_pos h]]; rfl
  · by_cases hz : x.isZero
    · rw [show x.normalize = zero by rw [normalize, if_neg h, if_pos hz]]; rfl
    · rw [show x.normalize = x by rw [normalize, if_neg h, if_neg hz]]
      rw [normalize, if_neg h, if_neg hz]

/-- A normalised number with an exact integer value is that integer's conversion. -/
theorem eq_ofInt_of_asInt32Exact {x : F64} {k : ℤ} (hn : x.normalize = x)
    (h : x.asInt32Exact = some k) : x = ofInt k := by
  rcases (asInt32Exact_eq_some.mp h).2 with h | ⟨_, rfl⟩
  · exact h
  · exact absurd hn (by decide)

end F64
end LuajitRs

/-! The operations on doubles that the trace executor uses. Rounded arithmetic and the ordering go
through the binary64 model of the core library; sign changes act on the bit pattern. -/
namespace LuajitRs
namespace F64

def model (x : F64) : Float.Model := .ofBits x.bits
def ofModel (m : Float.Model) : F64 := ⟨m.toBits⟩

def add (x y : F64) : F64 := ofModel (x.model.add y.model)
def sub (x y : F64) : F64 := ofModel (x.model.sub y.model)
def mul (x y : F64) : F64 := ofModel (x.model.mul y.model)
def div (x y : F64) : F64 := ofModel (x.model.div y.model)
def sqrt (x : F64) : F64 := ofModel x.model.sqrt

def neg (x : F64) : F64 := ⟨x.bits ^^^ 0x8000000000000000⟩
def abs (x : F64) : F64 := ⟨x.bits &&& 0x7fffffffffffffff⟩

def lt (x y : F64) : Bool := x.model.lt y.model
def le (x y : F64) : Bool := x.model.le y.model

/-- Rounding towards minus infinity; from `2^52` on every number is an integer. -/
def floor (x : F64) : F64 :=
  if 1075 ≤ x.expo ∨ x.isZero ∨ ofInt x.trunc = x then x
  else if x.signBit then ofInt (x.trunc - 1) else ofInt x.trunc

def ceil (x : F64) : F64 := x.neg.floor.neg
def truncate (x : F64) : F64 := if x.signBit then x.ceil else x.floor

/-- `n as u32`: truncation that saturates and sends NaN to zero. -/
def asU32 (x : F64) : ℕ := if x.isNaN then 0 else (max 0 (min (2^32-1) x.trunc)).toNat

/-- `n as i32` as the register that holds it. -/
def asInt32 (x : F64) : BitVec 32 := .ofInt 32 x.asI32

/-- `n as i64` as the register that holds it. -/
def asInt64 (x : F64) : BitVec 64 :=
  .ofInt 64 (if x.isNaN then 0 else max (-2^63) (min (2^63-1) x.trunc))

/-- `i as f64` for a 32-bit register. -/
def ofInt32 (i : BitVec 32) : F64 := ofInt i.toInt

/-- `n as f64` for an unsigned integer, rounded to the nearest double. -/
def ofNat (n : ℕ) : F64 := ofModel (.ofNat n)

/-- The double nearest to `m * 10^e`. -/
def ofDecimal (m : ℕ) (e : ℤ) : F64 := if e = 0 then ofNat m else ofModel (.ofScientific m e)

/-- `f64::exp2` of an integer. -/
def exp2 (e : ℤ) : F64 :=
  if e < -1074 then zero
  else if e < -1022 then ⟨UInt64.ofNat (2^(e + 1074).toNat)⟩
  else if e < 1024 then ofFields false (e + 1023).toNat 0
  else ofFields false 2047 0

/-- `n as u64`: truncation that saturates and sends NaN to zero. -/
def asU64 (x : F64) : UInt64 :=
  UInt64.ofNat (if x.isNaN then 0 else max 0 (min (2^64-1) x.trunc)).toNat

/-- `i as f64` for a signed 64-bit integer, rounded to the nearest double. -/
def ofInt64 (i : BitVec 64) : F64 := ofModel (.ofInt i.toInt)

open Float.Model (UnpackedFloat) in
/-- `(n as f32).to_bits()`. -/
def asF32 (x : F64) : BitVec 32 :=
  match x.model.unpack with
  | .finite s m e _ => UnpackedFloat.pack .binary32 (.round .binary32 s m e)
  | u => UnpackedFloat.pack .binary32 u

open Float.Model (UnpackedFloat) in
/-- `f32::from_bits(b) as f64`, which is exact. -/
def ofF32 (b : BitVec 32) : F64 :=
  match UnpackedFloat.unpack .binary32 b with
  | .finite s m e _ => ofModel (.pack (.round .binary64 s m e))
  | u => ofModel (.pack u)

/-- The low word of `n + (2^52 + 2^51)`, as the interpreter's bit library converts its arguments. -/
def num2bit (x : F64) : BitVec 32 := .ofNat 32 (x.add (ofInt 6755399441055744)).bits.toNat

end F64
end LuajitRs
