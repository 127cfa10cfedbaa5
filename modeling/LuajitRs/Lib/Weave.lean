import Mathlib.Tactic.Common
import Mathlib.Data.List.Basic

/-! A list with a piece in place of each of some spans that stand one behind the other. -/
namespace LuajitRs.Lib

variable {α : Type} {xs : List α} {len pos i : ℕ} {spans : List (ℕ × ℕ)}

/-- The spans stand one behind the other from `pos` on. -/
def Spaced (len : ℕ) : ℕ → List (ℕ × ℕ) → Prop
  | pos, [] => pos ≤ len
  | pos, (start, stop) :: spans => pos ≤ start ∧ start ≤ stop ∧ Spaced len stop spans

/-- What lies between the spans. -/
def gaps (len : ℕ) : ℕ → List (ℕ × ℕ) → List (ℕ × ℕ)
  | pos, [] => [(pos, len)]
  | pos, (start, stop) :: spans => (pos, start) :: gaps len stop spans

/-- The list from `pos` on with the pieces in place of their spans. -/
def weave (xs : List α) : ℕ → List ((ℕ × ℕ) × List α) → List α
  | pos, [] => xs.drop pos
  | pos, ((start, stop), piece) :: rest => (xs.take start).drop pos ++ piece ++ weave xs stop rest

def covers (i : ℕ) (v : ℕ × ℕ) : Bool := v.1 ≤ i && i < v.2

theorem Spaced.le_of_mem (h : Spaced len pos spans) : ∀ v ∈ spans, pos ≤ v.1 := by
  induction spans generalizing pos with
  | nil => exact fun v hv => (List.not_mem_nil hv).elim
  | cons v spans ih =>
    obtain ⟨start, stop⟩ := v
    obtain ⟨hs, hstop, h⟩ := h
    exact List.forall_mem_cons.mpr ⟨hs, fun v hv => Nat.le_trans (Nat.le_trans hs hstop) (ih h v hv)⟩

/-- Behind an index, neither the spans nor the gaps cover it. -/
theorem Spaced.countP_zero (h : Spaced len pos spans) (hi : i < pos) :
    spans.countP (covers i) = 0 ∧ (gaps len pos spans).countP (covers i) = 0 := by
  induction spans generalizing pos with
  | nil =>
    have : ¬ pos ≤ i := by omega
    simp [gaps, covers, this]
  | cons v spans ih =>
    obtain ⟨start, stop⟩ := v
    obtain ⟨hs, hstop, h⟩ := h
    have hrest := ih h (by omega)
    rw [gaps, List.countP_cons_of_neg (by simp [covers]; omega), List.countP_cons_of_neg (by simp [covers]; omega)]
    exact hrest

/-- Every index lies in exactly one of the spans and the gaps. -/
theorem Spaced.countP_eq_one (h : Spaced len pos spans) (hpos : pos ≤ i) (hi : i < len) :
    (spans ++ gaps len pos spans).countP (covers i) = 1 := by
  rw [List.countP_append]
  induction spans generalizing pos with
  | nil => simp [gaps, covers, hpos, hi]
  | cons v spans ih =>
    obtain ⟨start, stop⟩ := v
    obtain ⟨hs, hstop, h⟩ := h
    rw [gaps]
    by_cases hbefore : i < start
    · have hrest := h.countP_zero (show i < stop by omega)
      rw [List.countP_cons_of_neg (by simp [covers]; omega), List.countP_cons_of_pos (by simp [covers]; omega),
        hrest.1, hrest.2]
    · by_cases hin : i < stop
      · have hrest := h.countP_zero hin
        rw [List.countP_cons_of_pos (by simp [covers]; omega), List.countP_cons_of_neg (by simp [covers]; omega),
          hrest.1, hrest.2]
      · rw [List.countP_cons_of_neg (by simp [covers]; omega), List.countP_cons_of_neg (by simp [covers]; omega)]
        exact ih h (by omega)

/-- With its own text in place of each span, the list stays as it is. -/
theorem weave_self {ps : List ((ℕ × ℕ) × List α)} (h : Spaced xs.length pos (ps.map Prod.fst))
    (hps : ∀ p ∈ ps, p.2 = (xs.take p.1.2).drop p.1.1) : weave xs pos ps = xs.drop pos := by
  induction ps generalizing pos with
  | nil => rfl
  | cons p ps ih =>
    obtain ⟨⟨start, stop⟩, piece⟩ := p
    obtain ⟨hs, hstop, h⟩ := h
    have hpiece : piece = (xs.take stop).drop start := hps _ (List.mem_cons_self ..)
    rw [weave, ih h fun p hp => hps p (List.mem_cons_of_mem _ hp), hpiece, List.append_assoc]
    have hjoin (a b : ℕ) (hab : a ≤ b) : (xs.take b).drop a ++ xs.drop b = xs.drop a := by
      have hrest : xs.drop b = (xs.drop a).drop (b - a) := by rw [List.drop_drop, Nat.add_sub_cancel' hab]
      rw [List.drop_take, hrest, List.take_append_drop]
    rw [hjoin start stop hstop, hjoin pos start hs]

/-- Before the first span, the list is copied. -/
theorem weave_succ {c : α} {ps : List ((ℕ × ℕ) × List α)} (hc : xs[pos]? = some c) (hps : ∀ p ∈ ps, pos + 1 ≤ p.1.1) :
    weave xs pos ps = c :: weave xs (pos + 1) ps := by
  obtain ⟨hpos, rfl⟩ := List.getElem?_eq_some_iff.mp hc
  cases ps with
  | nil => exact List.drop_eq_getElem_cons hpos
  | cons p ps =>
    obtain ⟨⟨start, stop⟩, piece⟩ := p
    have hlt : pos < start := hps _ (List.mem_cons_self ..)
    have htake : pos < (xs.take start).length := by
      rw [List.length_take]
      omega
    rw [weave, weave, List.drop_eq_getElem_cons htake, List.getElem_take]
    rfl

end LuajitRs.Lib
