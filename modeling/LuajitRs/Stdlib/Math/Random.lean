import LuajitRs.Util.F64.Order
import Mathlib.Data.Fintype.EquivFin

/-! The random number generator: four Tausworthe generators, each a word whose top `k` bits count. On these bits
a step is a bijection that fixes zero only, and the seeding rule sets one of them. -/
namespace LuajitRs
namespace Random

/-- The parameters of a generator: the number of significant bits and the two shifts. -/
structure Tausworthe where
  k : ℕ
  q : ℕ
  s : ℕ
  lt : k < 64
  le : s + q ≤ k
  pos : 0 < q

/-- `CFG`. -/
def cfg : Fin 4 → Tausworthe
  | 0 => ⟨63, 31, 18, by decide, by decide, by decide⟩
  | 1 => ⟨58, 19, 28, by decide, by decide, by decide⟩
  | 2 => ⟨55, 24, 7, by decide, by decide, by decide⟩
  | 3 => ⟨47, 21, 8, by decide, by decide, by decide⟩

/-- One step of a generator. -/
def Tausworthe.step (c : Tausworthe) (z : BitVec 64) : BitVec 64 :=
  ((z <<< c.q ^^^ z) >>> (c.k - c.s)) ^^^ ((z &&& (BitVec.allOnes 64 <<< (64 - c.k))) <<< c.s)

structure RngState where
  u : Fin 4 → BitVec 64

namespace RngState

/-- The fixed initial state. -/
def fixed : RngState where
  u
    | 0 => 0xa0d277570a345b8c
    | 1 => 0x764a296c5d4aa64f
    | 2 => 0x51220704070adeaa
    | 3 => 0x2a2717b5a7b7b927

/-- Update all four generators, xor their outputs. -/
def tw223Step (rs : RngState) : BitVec 64 × RngState :=
  let z i := (cfg i).step (rs.u i)
  (z 0 ^^^ z 1 ^^^ z 2 ^^^ z 3, ⟨z⟩)

def nextU64 (rs : RngState) : BitVec 64 × RngState := rs.tw223Step

/-- A double in [0, 1). -/
def nextF64 (rs : RngState) : F64 × RngState :=
  let p := rs.tw223Step
  (F64.sub ⟨.ofBitVec (p.1 &&& 0x000fffffffffffff ||| 0x3ff0000000000000)⟩ ⟨0x3ff0000000000000⟩, p.2)

def PI : F64 := ⟨0x400921fb54442d18⟩
def E : F64 := ⟨0x4005bf0a8b145769⟩

/-- The words from `i` on, for the thresholds `r` and the double `d`. -/
def seedWords : ℕ → BitVec 32 → F64 → List (BitVec 64)
  | 0, _, _ => []
  | i+1, r, d =>
    let m := 1#64 <<< (r &&& 255).toNat
    let d := (d.mul PI).add E
    let bits := d.bits.toBitVec
    (if bits < m then bits + m else bits) :: seedWords i (r >>> 8) d

/-- `random_seed(rs, d)`: derive the four state words from a double. The old state does not matter. -/
def seed (d : F64) : RngState :=
  let words := seedWords 4 0x11090601 d
  (fun rs => rs.nextU64.2)^[10] ⟨fun i => words.getD i 0⟩

end RngState

/-! ### The significant bits -/

section Step
variable (c : Tausworthe)

/-- The top `k` bits of a word. -/
def Tausworthe.significant (z : BitVec 64) : BitVec c.k := z.extractLsb' (64 - c.k) c.k

/-- The step on the significant bits. -/
def Tausworthe.stepSignificant (v : BitVec c.k) : BitVec c.k :=
  c.significant (c.step (v.setWidth 64 <<< (64 - c.k)))

theorem getLsbD_significant (z : BitVec 64) (i : ℕ) :
    (c.significant z).getLsbD i = (decide (i < c.k) && z.getLsbD (64 - c.k + i)) := BitVec.getLsbD_extractLsb' ..

/-- A significant bit of a step: a bit of the word `s` places below, or at the bottom the sum of two bits. -/
theorem getLsbD_step (z : BitVec 64) {p : ℕ} (hlo : 64 - c.k ≤ p) (hhi : p < 64) : (c.step z).getLsbD p =
    if p < 64 - c.k + c.s then z.getLsbD (p + c.k - c.s) ^^ z.getLsbD (p + c.k - c.s - c.q)
    else z.getLsbD (p - c.s) := by
  have hlt := c.lt
  have hle := c.le
  have hadd : c.k - c.s + p = p + c.k - c.s := by omega
  simp only [Tausworthe.step, BitVec.getLsbD_xor, BitVec.getLsbD_ushiftRight, BitVec.getLsbD_shiftLeft,
    BitVec.getLsbD_and, BitVec.getLsbD_allOnes, hadd]
  split
  · next hp =>
    have h₁ : decide (p + c.k - c.s < 64) = true := decide_eq_true (by omega)
    have h₂ : decide (p + c.k - c.s < c.q) = false := decide_eq_false (by omega)
    have h₃ : (!decide (p < c.s) && (z.getLsbD (p - c.s) && (decide (p - c.s < 64) &&
        !decide (p - c.s < 64 - c.k) && decide (p - c.s - (64 - c.k) < 64)))) = false := by
      by_cases hs : p < c.s
      · rw [decide_eq_true hs]
        rfl
      · rw [decide_eq_true (show p - c.s < 64 - c.k by omega)]
        simp
    rw [h₁, h₂, decide_eq_true hhi, Bool.true_and, Bool.true_and, Bool.not_false, Bool.true_and, h₃,
      Bool.xor_false, Bool.xor_comm]
  · next hp =>
    have hge : 64 ≤ p + c.k - c.s := by omega
    rw [decide_eq_false (show ¬ p + c.k - c.s < 64 by omega), BitVec.getLsbD_of_ge z _ hge,
      decide_eq_true hhi, decide_eq_false (show ¬ p < c.s by omega), decide_eq_true (show p - c.s < 64 by omega),
      decide_eq_false (show ¬ p - c.s < 64 - c.k by omega),
      decide_eq_true (show p - c.s - (64 - c.k) < 64 by omega)]
    simp

/-- The step of the significant bits depends on nothing else. -/
theorem significant_step (z : BitVec 64) : c.significant (c.step z) = c.stepSignificant (c.significant z) := by
  have hlt := c.lt
  have hle := c.le
  have hbit : ∀ p, 64 - c.k ≤ p → p < 64 →
      ((c.significant z).setWidth 64 <<< (64 - c.k)).getLsbD p = z.getLsbD p := by
    intro p hlo hhi
    rw [BitVec.getLsbD_shiftLeft, BitVec.getLsbD_setWidth, getLsbD_significant, decide_eq_true hhi,
      decide_eq_false (by omega), decide_eq_true (by omega), decide_eq_true (by omega)]
    simp only [Bool.not_false, Bool.true_and]
    congr 1
    omega
  apply BitVec.eq_of_getLsbD_eq
  intro i hi
  rw [Tausworthe.stepSignificant, getLsbD_significant, getLsbD_significant, getLsbD_step c z (by omega) (by omega),
    getLsbD_step c _ (by omega) (by omega)]
  split
  · rw [hbit _ (by omega) (by omega), hbit _ (by omega) (by omega)]
  · rw [hbit _ (by omega) (by omega)]

/-- Two words with the same significant bits after a step had the same before. The induction is on the bits. -/
theorem significant_inj {y z : BitVec 64} (h : c.significant (c.step y) = c.significant (c.step z)) :
    c.significant y = c.significant z := by
  have hlt := c.lt
  have hle := c.le
  have hpos := c.pos
  have hstep : ∀ p, 64 - c.k ≤ p → p < 64 → (c.step y).getLsbD p = (c.step z).getLsbD p := by
    intro p hlo hhi
    have hp := congrArg (fun v => v.getLsbD (p - (64 - c.k))) h
    simp only [getLsbD_significant] at hp
    rw [decide_eq_true (by omega), Bool.true_and, Bool.true_and, show 64 - c.k + (p - (64 - c.k)) = p by omega] at hp
    exact hp
  have hbit : ∀ j, 64 - c.k ≤ j → j < 64 → y.getLsbD j = z.getLsbD j := by
    intro j
    induction j using Nat.strong_induction_on with
    | _ j ih =>
      intro hlo hhi
      by_cases hj : j < 64 - c.s
      · have hp := hstep (j + c.s) (by omega) (by omega)
        rw [getLsbD_step c _ (by omega) (by omega), getLsbD_step c _ (by omega) (by omega), if_neg (by omega),
          if_neg (by omega), Nat.add_sub_cancel] at hp
        exact hp
      · -- The other bit of the sum is one of the significant bits below.
        have hlower := ih (j - c.q) (by omega) (by omega) (by omega)
        have hp := hstep (j + c.s - c.k) (by omega) (by omega)
        rw [getLsbD_step c _ (by omega) (by omega), getLsbD_step c _ (by omega) (by omega), if_pos (by omega),
          if_pos (by omega), show j + c.s - c.k + c.k - c.s = j by omega, hlower] at hp
        exact Bool.xor_left_inj.mp hp
  apply BitVec.eq_of_getLsbD_eq
  intro i hi
  rw [getLsbD_significant, getLsbD_significant, hbit _ (by omega) (by omega)]

end Step

/-- The step is a bijection of the significant bits, and zero goes to zero. -/
theorem stepSignificant_bijective (c : Tausworthe) : Function.Bijective c.stepSignificant := by
  have hsurj : ∀ v : BitVec c.k, c.significant (v.setWidth 64 <<< (64 - c.k)) = v := by
    intro v
    have hlt := c.lt
    apply BitVec.eq_of_getLsbD_eq
    intro i hi
    rw [getLsbD_significant, BitVec.getLsbD_shiftLeft, BitVec.getLsbD_setWidth, decide_eq_true hi,
      decide_eq_true (show 64 - c.k + i < 64 by omega), decide_eq_false (show ¬ 64 - c.k + i < 64 - c.k by omega),
      Nat.add_sub_cancel_left, decide_eq_true (show i < 64 by omega)]
    rfl
  have : Finite (BitVec c.k) := Finite.of_injective BitVec.toFin fun _ _ => BitVec.toFin_inj.mp
  apply Function.Injective.bijective_of_finite
  intro v w hvw
  have h := significant_inj c hvw
  rwa [hsurj, hsurj] at h

theorem stepSignificant_zero (c : Tausworthe) : c.stepSignificant 0 = 0 := by
  have hzero : c.step 0 = 0 := by simp [Tausworthe.step]
  have hsig : c.significant 0 = 0 := by
    apply BitVec.eq_of_getLsbD_eq
    intro i hi
    rw [getLsbD_significant]
    simp
  rw [← hsig, ← significant_step, hzero]

/-! ### Runs -/

/-- Every generator has a significant bit set. -/
def RngState.NonDegenerate (rs : RngState) : Prop := ∀ i, (cfg i).significant (rs.u i) ≠ 0

theorem RngState.NonDegenerate.next {rs : RngState} (h : rs.NonDegenerate) : rs.nextU64.2.NonDegenerate := by
  intro i hz
  have hstep : (cfg i).stepSignificant ((cfg i).significant (rs.u i)) = (cfg i).stepSignificant 0 := by
    rw [← significant_step, stepSignificant_zero]
    exact hz
  exact h i ((stepSignificant_bijective (cfg i)).1 hstep)

theorem RngState.NonDegenerate.iterate {rs : RngState} (h : rs.NonDegenerate) (n : ℕ) :
    ((fun rs => rs.nextU64.2)^[n] rs).NonDegenerate := by
  induction n generalizing rs with
  | zero => exact h
  | succ n ih => exact ih h.next

theorem nonDegenerate_fixed : RngState.fixed.NonDegenerate := by
  unfold RngState.NonDegenerate
  decide

/-- A word that reaches the threshold has a significant bit set. -/
theorem significant_ne_zero (c : Tausworthe) {z : BitVec 64} (h : 2^(64 - c.k) ≤ z.toNat) : c.significant z ≠ 0 := by
  intro hz
  have hlt := c.lt
  have hz' := congrArg BitVec.toNat hz
  have hzero : (0 : BitVec c.k).toNat = 0 := BitVec.toNat_zero
  rw [Tausworthe.significant, BitVec.extractLsb'_toNat, Nat.shiftRight_eq_div_pow, hzero] at hz'
  have hpos : 0 < 2^(64 - c.k) := by positivity
  have hprod : 2^(64 - c.k) * 2^c.k = 2^64 := by
    rw [← pow_add]
    congr 1
    omega
  have hone := (Nat.le_div_iff_mul_le hpos).mpr (show 1 * 2^(64 - c.k) ≤ z.toNat by omega)
  have hsmall : z.toNat / 2^(64 - c.k) < 2^c.k := by
    rw [Nat.div_lt_iff_lt_mul hpos, Nat.mul_comm, hprod]
    exact z.isLt
  rw [Nat.mod_eq_of_lt hsmall] at hz'
  omega

/-- The seeding rule lifts a word over the threshold. -/
theorem threshold_le {t : ℕ} (ht : t < 63) (bits : BitVec 64) :
    2^t ≤ (if bits < 1#64 <<< t then bits + 1#64 <<< t else bits).toNat := by
  have hpow : 2^t * 2 ≤ 2^63 := by
    rw [← pow_succ]
    exact Nat.pow_le_pow_right (by norm_num) (by omega)
  have hm : (1#64 <<< t).toNat = 2^t := by
    rw [BitVec.toNat_shiftLeft, Nat.shiftLeft_eq, BitVec.toNat_ofNat, Nat.mod_eq_of_lt] <;> omega
  split
  · next hlt =>
    rw [BitVec.lt_def, hm] at hlt
    rw [BitVec.toNat_add, hm, Nat.mod_eq_of_lt] <;> omega
  · next hge =>
    rw [BitVec.lt_def, hm] at hge
    omega

theorem nonDegenerate_seed (d : F64) : (RngState.seed d).NonDegenerate := by
  rw [RngState.seed]
  apply RngState.NonDegenerate.iterate
  intro i
  match i with
  | 0 => exact significant_ne_zero (cfg 0) (threshold_le (t := 1) (by decide) _)
  | 1 => exact significant_ne_zero (cfg 1) (threshold_le (t := 6) (by decide) _)
  | 2 => exact significant_ne_zero (cfg 2) (threshold_le (t := 9) (by decide) _)
  | 3 => exact significant_ne_zero (cfg 3) (threshold_le (t := 17) (by decide) _)

/-- The low 52 bits of the output become the fraction of a number between one and two. -/
theorem fraction_bits (r : BitVec 64) :
    (⟨.ofBitVec (r &&& 0x000fffffffffffff ||| 0x3ff0000000000000)⟩ : F64) = F64.ofFields false 1023 (r.toNat % 2^52) := by
  have hlt : r.toNat % 2^52 < 2^52 := Nat.mod_lt _ (by positivity)
  have hand : r.toNat &&& 0x000fffffffffffff = r.toNat % 2^52 := Nat.and_two_pow_sub_one_eq_mod r.toNat 52
  have hor : (r.toNat % 2^52) ||| 0x3ff0000000000000 = 1023 * 2^52 + r.toNat % 2^52 := by
    have h := Nat.shiftLeft_add_eq_or_of_lt hlt 1023
    rw [Nat.shiftLeft_eq, Nat.or_comm] at h
    exact h.symm
  have hbits : (r &&& 0x000fffffffffffff ||| 0x3ff0000000000000 : BitVec 64).toNat = 1023 * 2^52 + r.toNat % 2^52 := by
    rw [BitVec.toNat_or, BitVec.toNat_and, ← hor, ← hand]
    rfl
  generalize r.toNat % 2^52 = m at *
  rw [F64.ofFields, F64.mk.injEq]
  apply UInt64.toNat_inj.mp
  rw [UInt64.toNat_ofBitVec, hbits, UInt64.toNat_ofNat', if_neg Bool.false_ne_true, Nat.mod_eq_of_lt (by omega)]
  omega

/-- The output as a double lies between zero and one. -/
theorem nextF64_unit (rs : RngState) :
    F64.zero.le rs.nextF64.1 = true ∧ rs.nextF64.1.lt (F64.ofInt 1) = true := by
  have hone : F64.ofInt 1 = F64.ofFields false 1023 0 := rfl
  have hbits : (⟨0x3ff0000000000000⟩ : F64) = F64.ofFields false 1023 0 := rfl
  have hm : rs.tw223Step.1.toNat % 2^52 < 2^52 := Nat.mod_lt _ (by positivity)
  rw [RngState.nextF64, fraction_bits, hone, hbits, F64.sub_one hm]
  generalize rs.tw223Step.1.toNat % 2^52 = m at *
  split
  · exact F64.unit_interval (e := 0) (f := 0) (by decide) (by decide)
  · next h0 =>
    obtain ⟨hL, hlo, hhi⟩ := F64.significand_bounds (Nat.pos_of_ne_zero h0) (show m < 2^53 by omega)
    have hlog : m.log2 < 52 := (Nat.log2_lt h0).mpr hm
    exact F64.unit_interval (by omega) (by omega)

/-- The generator never degenerates: after any number of steps from the fixed state or from a seed each word has a
significant bit set, a step permutes the significant bits of a word, and a random double lies in `[0, 1)`. -/
theorem random_spec :
    (∀ n, ((fun rs => rs.nextU64.2)^[n] RngState.fixed).NonDegenerate) ∧
    (∀ (d : F64) (n : ℕ), ((fun rs => rs.nextU64.2)^[n] (RngState.seed d)).NonDegenerate) ∧
    (∀ i, ∃ f : BitVec (cfg i).k → BitVec (cfg i).k, Function.Bijective f ∧
      ∀ z, (cfg i).significant ((cfg i).step z) = f ((cfg i).significant z)) ∧
    ∀ rs : RngState, F64.zero.le rs.nextF64.1 = true ∧ rs.nextF64.1.lt (F64.ofInt 1) = true := by
  refine ⟨fun n => nonDegenerate_fixed.iterate n, fun d n => (nonDegenerate_seed d).iterate n, fun i => ?_, nextF64_unit⟩
  exact ⟨(cfg i).stepSignificant, stepSignificant_bijective (cfg i), significant_step (cfg i)⟩

end Random
end LuajitRs
