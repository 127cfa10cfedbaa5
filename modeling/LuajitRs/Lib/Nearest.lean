import Mathlib.Data.Rat.Floor
import Mathlib.Algebra.Order.Floor.Ring
import Mathlib.Tactic.Linarith

/-! Rounding of a rational number to the nearest integer, with ties to the even one. -/
namespace LuajitRs.Lib.Nearest

def roundEven (q : ℚ) : ℤ :=
  if Int.fract q < 1/2 then ⌊q⌋
  else if 1/2 < Int.fract q then ⌊q⌋ + 1
  else ⌊q⌋ + ⌊q⌋ % 2

theorem roundEven_add_even (q : ℚ) {c : ℤ} (hc : c % 2 = 0) : roundEven (q + c) = roundEven q + c := by
  simp only [roundEven, Int.floor_add_intCast, Int.fract_add_intCast]
  split_ifs <;> omega

/-- The quotient by a power of two, from the rest. -/
theorem roundEven_div_pow (m k : ℕ) : roundEven ((m : ℚ) / 2^k) =
    if 2 * (m % 2^k) < 2^k then ((m / 2^k : ℕ) : ℤ)
    else if 2^k < 2 * (m % 2^k) then (m / 2^k : ℕ) + 1
    else (m / 2^k : ℕ) + ((m / 2^k : ℕ) : ℤ) % 2 := by
  have hpos : (0 : ℚ) < 2^k := by positivity
  have hfloor : ⌊(m : ℚ) / 2^k⌋ = ((m / 2^k : ℕ) : ℤ) := by
    exact_mod_cast Rat.floor_natCast_div_natCast m (2^k)
  have hfract : Int.fract ((m : ℚ) / 2^k) = ((m % 2^k : ℕ) : ℚ) / 2^k := by
    exact_mod_cast Int.fract_div_natCast_eq_div_natCast_mod (k := ℚ) (m := m) (n := 2^k)
  have hlt : Int.fract ((m : ℚ) / 2^k) < 1/2 ↔ 2 * (m % 2^k) < 2^k := by
    rw [hfract, div_lt_div_iff₀ hpos two_pos, one_mul, mul_comm]
    exact_mod_cast Iff.rfl
  have hgt : 1/2 < Int.fract ((m : ℚ) / 2^k) ↔ 2^k < 2 * (m % 2^k) := by
    rw [hfract, div_lt_div_iff₀ two_pos hpos, one_mul, mul_comm _ (2 : ℚ)]
    exact_mod_cast Iff.rfl
  simp only [roundEven, hlt, hgt, hfloor]

end LuajitRs.Lib.Nearest
