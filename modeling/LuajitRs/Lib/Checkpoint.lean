import Mathlib.Order.Lattice
import Mathlib.Tactic.Common

/-! A log of writes and aborts with checkpoints. An abort goes back to the last mark at or below it; what
matters is that no write lies in between. -/
namespace LuajitRs.Lib.Checkpoint
variable {α : Type} [LinearOrder α] {writes writes' aborts aborts' : α → Prop} {marks marks' : List α} {n : α}

/-- Between a write and a later abort there is a mark. -/
def Covered (writes aborts : α → Prop) (marks : List α) : Prop :=
  ∀ q r, writes q → aborts r → q < r → ∃ c ∈ marks, q < c ∧ c ≤ r

/-- A mark lies behind every write. -/
def Settled (writes : α → Prop) (marks : List α) : Prop := ∀ q, writes q → ∃ c ∈ marks, q < c

theorem Covered.mono (h : Covered writes aborts marks) (hsub : ∀ c ∈ marks, c ∈ marks') :
    Covered writes aborts marks' := by
  intro q r hq hr hlt
  obtain ⟨c, hc, hin⟩ := h q r hq hr hlt
  exact ⟨c, hsub c hc, hin⟩

theorem Covered.congr (h : Covered writes aborts marks) (hw : ∀ q, writes' q → writes q)
    (ha : ∀ r, aborts' r → aborts r) : Covered writes' aborts' marks :=
  fun q r hq hr hlt => h q r (hw q hq) (ha r hr) hlt

/-- A new write at the end needs no mark. -/
theorem Covered.write (h : Covered writes aborts marks) (hend : ∀ r, aborts r → r ≤ n)
    (hw : ∀ q, writes' q → writes q ∨ q = n) : Covered writes' aborts marks := by
  intro q r hq hr hlt
  cases hw q hq with
  | inl hold => exact h q r hold hr hlt
  | inr hnew =>
    subst hnew
    exact absurd (hend r hr) (not_le.mpr hlt)

/-- A new abort at the end needs a mark behind the last write. -/
theorem Covered.abort (h : Covered writes aborts marks) (hs : Settled writes marks) (hend : ∀ c ∈ marks, c ≤ n)
    (ha : ∀ r, aborts' r → aborts r ∨ r = n) : Covered writes aborts' marks := by
  intro q r hq hr hlt
  cases ha r hr with
  | inl hold => exact h q r hq hold hlt
  | inr hnew =>
    subst hnew
    obtain ⟨c, hc, hqc⟩ := hs q hq
    exact ⟨c, hc, hqc, hend c hc⟩

/-- A mark can go when no abort lies at or above it. -/
theorem Covered.unmark (h : Covered writes aborts marks) {m : α} (hm : ∀ r, aborts r → r < m)
    (hsub : ∀ c ∈ marks, c = m ∨ c ∈ marks') : Covered writes aborts marks' := by
  intro q r hq hr hlt
  obtain ⟨c, hc, hqc, hcr⟩ := h q r hq hr hlt
  cases hsub c hc with
  | inl heq => exact absurd (hm r hr) (not_lt.mpr (heq ▸ hcr))
  | inr hin => exact ⟨c, hin, hqc, hcr⟩

/-- No write lies between an abort and the last mark at or below it. -/
theorem Covered.rollback (h : Covered writes aborts marks) {c q r : α} (hr : aborts r)
    (hlast : ∀ d ∈ marks, d ≤ r → d ≤ c) (hcq : c ≤ q) (hqr : q < r) : ¬ writes q := by
  intro hq
  obtain ⟨d, hd, hqd, hdr⟩ := h q r hq hr hqr
  exact absurd (hlast d hd hdr) (not_le.mpr (lt_of_le_of_lt hcq hqd))

end LuajitRs.Lib.Checkpoint
