import LuajitRs.Ffi.Access.Position
import Mathlib.Tactic.FinCases

/-! Scalar types, the conversion of a number to each of them, and the bytes that are written and read for it. -/
namespace LuajitRs
open Lib.Bytes

namespace F64

/-- Far from zero every number is even. -/
theorem two_dvd_truncMag {x : F64} (h : 2^53 ≤ x.truncMag) : 2 ∣ x.truncMag := by
  have hfrac : x.frac < 2^52 := Nat.mod_lt _ (by positivity)
  unfold truncMag at h ⊢
  split at h
  · omega
  · split at h
    · next he he' =>
      rw [if_neg he, if_pos he']
      obtain ⟨k, hk⟩ : ∃ k, x.expo - 1075 = k := ⟨_, rfl⟩
      cases k with
      | zero =>
        rw [hk] at h
        omega
      | succ k => exact Dvd.dvd.mul_left (by rw [hk, pow_succ]; exact Dvd.intro_left _ rfl) _
    · have hdiv := Nat.div_le_self (2^52 + x.frac) (2^(1075 - x.expo))
      omega

theorem two_dvd_trunc {x : F64} (h : 2^53 ≤ x.trunc ∨ x.trunc ≤ -2^53) : 2 ∣ x.trunc := by
  have hmag : 2^53 ≤ x.truncMag := by
    unfold trunc at h
    split at h
    · omega
    · omega
  have hdvd := two_dvd_truncMag hmag
  unfold trunc
  split
  · omega
  · omega

end F64

namespace Ffi

/-! ### Saturation -/

/-- The integer of a conversion to `i64`. -/
def satI64 (t : ℤ) : ℤ := max (-2^63) (min (2^63 - 1) t)
/-- The integer of a conversion to `u64`. -/
def satU64 (t : ℤ) : ℤ := max 0 (min (2^64 - 1) t)

/-- An integer that keeps its residue when it is converted to `i64`. -/
def KeepsI64 (m t : ℤ) : Prop := -2^63 ≤ t ∧ t < 2^63 ∨ t < -2^63 ∧ m ∣ t + 2^63
/-- An integer that keeps its residue when it is converted to `u64`. -/
def KeepsU64 (m t : ℤ) : Prop := 0 ≤ t ∧ t < 2^64 ∨ t < 0 ∧ m ∣ t

section Saturation
variable {m t : ℤ}

theorem not_dvd_odd (hm : 2 ∣ m) {d : ℤ} (hd : ¬ 2 ∣ d) : ¬ m ∣ d := fun h => hd (hm.trans h)

theorem satI64_emod_iff (hm : 2 ∣ m) (heven : 2^63 ≤ t → 2 ∣ t) : satI64 t % m = t % m ↔ KeepsI64 m t := by
  rw [Int.emod_eq_emod_iff_emod_sub_eq_zero, ← Int.dvd_iff_emod_eq_zero, KeepsI64]
  by_cases hhi : 2^63 ≤ t
  · have hsat : satI64 t - t = 2^63 - 1 - t := by rw [satI64]; omega
    have hodd := not_dvd_odd hm (d := 2^63 - 1 - t) (by have := heven hhi; omega)
    rw [hsat]
    exact ⟨fun h => absurd h hodd, fun h => by omega⟩
  · by_cases hlo : t < -2^63
    · have hsat : satI64 t - t = -(t + 2^63) := by rw [satI64]; omega
      rw [hsat, Int.dvd_neg]
      exact ⟨fun h => .inr ⟨hlo, h⟩, fun h => (h.resolve_left (by omega)).2⟩
    · have hsat : satI64 t - t = 0 := by rw [satI64]; omega
      rw [hsat]
      exact ⟨fun _ => .inl ⟨by omega, by omega⟩, fun _ => dvd_zero m⟩

theorem satU64_emod_iff (hm : 2 ∣ m) (heven : 2^63 ≤ t → 2 ∣ t) : satU64 t % m = t % m ↔ KeepsU64 m t := by
  rw [Int.emod_eq_emod_iff_emod_sub_eq_zero, ← Int.dvd_iff_emod_eq_zero, KeepsU64]
  by_cases hhi : 2^64 ≤ t
  · have hsat : satU64 t - t = 2^64 - 1 - t := by rw [satU64]; omega
    have hodd := not_dvd_odd hm (d := 2^64 - 1 - t) (by have := heven (by omega); omega)
    rw [hsat]
    exact ⟨fun h => absurd h hodd, fun h => by omega⟩
  · by_cases hlo : t < 0
    · have hsat : satU64 t - t = -t := by rw [satU64]; omega
      rw [hsat, Int.dvd_neg]
      exact ⟨fun h => .inr ⟨hlo, h⟩, fun h => (h.resolve_left (by omega)).2⟩
    · have hsat : satU64 t - t = 0 := by rw [satU64]; omega
      rw [hsat]
      exact ⟨fun _ => .inl ⟨by omega, by omega⟩, fun _ => dvd_zero m⟩

/-- Two integers have the same signed residue when they have the same residue. -/
theorem bmod_eq_iff {a b : ℤ} {n : ℕ} : a.bmod n = b.bmod n ↔ a % n = b % n := by
  constructor
  · intro h
    rw [← Int.bmod_emod, h, Int.bmod_emod]
  · intro h
    rw [← Int.emod_bmod, h, Int.emod_bmod]

end Saturation

theorem asInt64_toNat {x : F64} (hx : x.isNaN = false) : (x.asInt64.toNat : ℤ) = satI64 x.trunc % 2^64 := by
  rw [F64.asInt64, hx, if_neg Bool.false_ne_true, BitVec.toNat_ofInt, satI64]
  omega

theorem asU64_toNat {x : F64} (hx : x.isNaN = false) : (x.asU64.toNat : ℤ) = satU64 x.trunc := by
  rw [F64.asU64, hx, if_neg Bool.false_ne_true, UInt64.toNat_ofNat', satU64]
  omega

/-! ### Scalars -/

/-- The kinds of scalar types. The width of an integer is in bytes. -/
inductive Scalar
  | bool
  | int (signed : Bool) (w : ℕ)
  | float
  | double
  deriving DecidableEq, Repr

namespace Scalar

def size : Scalar → ℕ
  | bool => 1
  | int _ w => w
  | float => 4
  | double => 8

end Scalar

/-- The predefined numbers as scalars. -/
def scalars : List (ℕ × Scalar) :=
  [(CTypeID.bool, .bool), (CTypeID.cchar, .int true 1), (CTypeID.int8, .int true 1), (CTypeID.uint8, .int false 1),
    (CTypeID.int16, .int true 2), (CTypeID.uint16, .int false 2), (CTypeID.int32, .int true 4),
    (CTypeID.uint32, .int false 4), (CTypeID.int64, .int true 8), (CTypeID.uint64, .int false 8),
    (CTypeID.int128, .int true 16), (CTypeID.uint128, .int false 16), (CTypeID.float, .float), (CTypeID.double, .double)]

/-- The scalar that a predefined number is. -/
def scalarOf (id : ℕ) : Option Scalar := (scalars.find? fun p => p.1 = id).map Prod.snd

theorem scalarOf_some {id : ℕ} {sc : Scalar} (h : scalarOf id = some sc) : (id, sc) ∈ scalars := by
  obtain ⟨p, hp, hsc⟩ := Option.map_eq_some_iff.mp h
  have hid : p.1 = id := by simpa using List.find?_some hp
  rw [← hid, ← hsc]
  exact List.mem_of_find?_eq_some hp

theorem scalarOf_none {id : ℕ} (h : scalarOf id = none) : ∀ p ∈ scalars, id ≠ p.1 := by
  intro p hp hid
  have hnone := List.find?_eq_none.mp (Option.map_eq_none_iff.mp h) p hp
  exact hnone (by simpa using hid.symm)

/-- A C value as it shows in Lua: a number, a truth value, or an object with its exact bytes. -/
inductive CValue
  | num (x : F64)
  | bool (b : Bool)
  | exact (bs : List UInt8)
  deriving DecidableEq, Repr

/-- The residue of an integer in a type of `w` bytes. -/
def residue (signed : Bool) (w : ℕ) (t : ℤ) : ℤ := if signed then t.bmod (2^(8*w)) else t % 2^(8*w)

/-- The conversion of a finite number as C does it. -/
def Scalar.convert (x : F64) : Scalar → CValue
  | bool => .bool (!x.isZero)
  | int signed w => if w ≤ 4 then .num (.ofInt (residue signed w x.trunc)) else .exact (toLE w (x.trunc % 2^(8*w)).toNat)
  | float => .num (.ofF32 x.asF32)
  | double => .num x

/-! ### What is written -/

/-- The bytes of a new scalar, a number written into zeros. -/
def stored (id sz : ℕ) (x : F64) : List UInt8 := writeScalarValue (List.replicate sz 0) id x

/-- The bytes that are written for a predefined number. -/
def Scalar.bytes (x : F64) : Scalar → List UInt8
  | bool => toLE 1 x.asU64.toNat
  | int signed w =>
    if w = 16 then toLE 4 x.asInt64.toNat else toLE w (if signed then x.asInt64.toNat else x.asU64.toNat)
  | float => toLE 4 x.asF32.toNat
  | double => toLE 8 x.bits.toNat

section Written
variable {id sz : ℕ} {x : F64} {sc : Scalar}

theorem scalarBytes_direct (h : scalarOf id = some sc) : scalarBytes id x = sc.bytes x := by
  have hall : ∀ p ∈ scalars, scalarBytes p.1 x = p.2.bytes x := by
    intro p hp
    fin_cases hp <;> rfl
  exact hall (id, sc) (scalarOf_some h)

theorem scalarBytes_alias (h : scalarOf id = none) : scalarBytes id x = toLE 4 x.asInt64.toNat := by
  have hne := scalarOf_none h
  have hid : ∀ {k : ℕ} {s : Scalar}, (k, s) ∈ scalars → id ≠ k := fun hk => hne _ hk
  unfold scalarBytes
  rw [if_neg (hid (s := .int true 1) (by decide)), if_neg (hid (s := .int false 1) (by decide)),
    if_neg (hid (s := .int true 1) (by decide)), if_neg (hid (s := .bool) (by decide)),
    if_neg (hid (s := .int true 2) (by decide)), if_neg (hid (s := .int false 2) (by decide)),
    if_neg (hid (s := .int true 4) (by decide)), if_neg (hid (s := .int false 4) (by decide)),
    if_neg (hid (s := .int true 8) (by decide)), if_neg (hid (s := .int false 8) (by decide)),
    if_neg (hid (s := .float) (by decide)), if_neg (hid (s := .double) (by decide))]

theorem stored_eq : stored id sz x =
    if (scalarBytes id x).length ≤ sz then scalarBytes id x ++ List.replicate (sz - (scalarBytes id x).length) 0
    else List.replicate sz 0 := by
  rw [stored, writeScalarValue, List.length_replicate]
  split
  · rw [splice, List.take_zero, List.nil_append, Nat.zero_add, List.drop_replicate]
  · rfl

theorem length_stored : (stored id sz x).length = sz := by
  rw [stored, length_writeScalarValue, List.length_replicate]

theorem scalar_width (h : scalarOf id = some sc) : sc = .bool ∨ sc = .float ∨ sc = .double ∨
    ∃ signed w, sc = .int signed w ∧ (w = 1 ∨ w = 2 ∨ w = 4 ∨ w = 8 ∨ w = 16) := by
  have hall : ∀ p ∈ scalars, p.2 = .bool ∨ p.2 = .float ∨ p.2 = .double ∨
      ∃ signed w, p.2 = .int signed w ∧ (w = 1 ∨ w = 2 ∨ w = 4 ∨ w = 8 ∨ w = 16) := by
    intro p hp
    fin_cases hp <;> simp
  exact hall (id, sc) (scalarOf_some h)

/-- The bytes of a scalar fill it, except that only the low word of a 16-byte integer is written. -/
theorem stored_direct (h : scalarOf id = some sc) (hw : sc.size ≤ 8) : stored id sc.size x = sc.bytes x := by
  have hlen : (sc.bytes x).length = sc.size := by
    cases sc with
    | int signed w =>
      rw [Scalar.bytes, if_neg (by rw [Scalar.size] at hw; omega), length_toLE, Scalar.size]
    | _ => exact length_toLE ..
  rw [stored_eq, scalarBytes_direct h, hlen, if_pos le_rfl, Nat.sub_self, List.replicate_zero, List.append_nil]

theorem stored_word (hbytes : scalarBytes id x = toLE 4 x.asInt64.toNat) :
    stored id sz x = if 4 ≤ sz then toLE sz (x.asInt64.toNat % 2^32) else List.replicate sz 0 := by
  rw [stored_eq, hbytes, length_toLE]
  split
  · next hsz =>
    obtain ⟨k, rfl⟩ := Nat.exists_eq_add_of_le hsz
    have hdiv : x.asInt64.toNat % 2^32 / 256^4 = 0 := Nat.div_eq_of_lt (Nat.mod_lt _ (by positivity))
    have hmod : x.asInt64.toNat % 2^32 = x.asInt64.toNat % 256^4 := by norm_num
    rw [toLE_add, hdiv, toLE_zero, hmod, toLE_mod, Nat.add_sub_cancel_left]
  · rfl

end Written

end Ffi
end LuajitRs
