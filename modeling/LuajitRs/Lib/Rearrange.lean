import Mathlib.Order.Defs.Unbundled
import Mathlib.Tactic.Common

/-! Rearranging a section of an array in place: what swaps keep, and what it takes for a section to be
in order, a heap, or split at a pivot. The order is any preorder, so the facts that say nothing about
order are the case where everything is related. -/
namespace LuajitRs.Lib.Rearrange
variable {α : Type} {le : α → α → Prop} {a b c : Array α} {lo hi i j k l : ℕ}

/-- The array `b` has the elements of `a`, and differs only in the positions from `lo` to `hi`. -/
structure Rearranged (lo hi : ℕ) (a b : Array α) : Prop where
  perm : b.Perm a
  frame : ∀ k, k < lo ∨ hi < k → b[k]? = a[k]?
  within : ∀ k, lo ≤ k → k ≤ hi → ∃ k', lo ≤ k' ∧ k' ≤ hi ∧ b[k]? = a[k']?

theorem Rearranged.size (h : Rearranged lo hi a b) : b.size = a.size := h.perm.size_eq

theorem Rearranged.refl (lo hi : ℕ) (a : Array α) : Rearranged lo hi a a :=
  ⟨.refl a, fun _ _ => rfl, fun k hl hh => ⟨k, hl, hh, rfl⟩⟩

theorem Rearranged.trans (h : Rearranged lo hi a b) (h' : Rearranged lo hi b c) :
    Rearranged lo hi a c where
  perm := h'.perm.trans h.perm
  frame k hk := (h'.frame k hk).trans (h.frame k hk)
  within k hl hh := by
    obtain ⟨k₁, hl₁, hh₁, heq₁⟩ := h'.within k hl hh
    obtain ⟨k₂, hl₂, hh₂, heq₂⟩ := h.within k₁ hl₁ hh₁
    exact ⟨k₂, hl₂, hh₂, heq₁.trans heq₂⟩

theorem Rearranged.mono {lo' hi' : ℕ} (h : Rearranged lo hi a b) (hlo : lo' ≤ lo) (hhi : hi ≤ hi') :
    Rearranged lo' hi' a b where
  perm := h.perm
  frame k hk := h.frame k (by omega)
  within k hl hh := by
    by_cases hin : lo ≤ k ∧ k ≤ hi
    · obtain ⟨k', hl', hh', heq⟩ := h.within k hin.1 hin.2
      exact ⟨k', by omega, by omega, heq⟩
    · exact ⟨k, hl, hh, h.frame k (by omega)⟩

/-- The position whose element a swap brings to `k`. -/
def exchange (i j k : ℕ) : ℕ := if k = i then j else if k = j then i else k

theorem exchange_left (i j : ℕ) : exchange i j i = j := if_pos rfl

theorem exchange_right (i j : ℕ) : exchange i j j = i := by
  by_cases h : j = i
  · rw [exchange, if_pos h, h]
  · rw [exchange, if_neg h, if_pos rfl]

theorem exchange_of_ne (hi : k ≠ i) (hj : k ≠ j) : exchange i j k = k := by
  rw [exchange, if_neg hi, if_neg hj]

theorem getElem?_exchange (hi' : i < a.size) (hj' : j < a.size) (k : ℕ) :
    (a.swap i j)[k]? = a[exchange i j k]? := by
  rw [Array.getElem?_swap]
  by_cases hkj : j = k
  · rw [if_pos hkj, ← hkj, exchange_right]
    exact (Array.getElem?_eq_getElem hi').symm
  · by_cases hki : i = k
    · rw [if_neg hkj, if_pos hki, ← hki, exchange_left]
      exact (Array.getElem?_eq_getElem hj').symm
    · rw [if_neg hkj, if_neg hki, exchange_of_ne (Ne.symm hki) (Ne.symm hkj)]

theorem Rearranged.swap (hi' : i < a.size) (hj' : j < a.size) (hli : lo ≤ i) (hih : i ≤ hi)
    (hlj : lo ≤ j) (hjh : j ≤ hi) : Rearranged lo hi a (a.swap i j) where
  perm := Array.swap_perm hi' hj'
  frame k hk := by
    rw [getElem?_exchange, exchange_of_ne (by omega) (by omega)]
  within k hl hh := by
    refine ⟨exchange i j k, ?_, ?_, getElem?_exchange hi' hj' k⟩
    · unfold exchange
      split_ifs <;> omega
    · unfold exchange
      split_ifs <;> omega

/-! ### Order -/

/-- The elements at two positions, as far as there are any, are in order. -/
def Below (le : α → α → Prop) (a : Array α) (k l : ℕ) : Prop := ∀ x ∈ a[k]?, ∀ y ∈ a[l]?, le x y

theorem Below.congr {k' l' : ℕ} (h : Below le a k l) (hk : b[k']? = a[k]?) (hl : b[l']? = a[l]?) :
    Below le b k' l' := by
  intro x hx y hy
  exact h x (hk ▸ hx) y (hl ▸ hy)

theorem Below.trans [IsPreorder α le] (hl : l < a.size) (h : Below le a k l) (h' : Below le a l i) :
    Below le a k i := by
  intro x hx y hy
  have hmid : a[l]? = some a[l] := Array.getElem?_eq_getElem hl
  exact trans_of le (h x hx a[l] hmid) (h' a[l] hmid y hy)

theorem Below.refl [IsPreorder α le] (k : ℕ) : Below le a k k := by
  intro x hx y hy
  rw [Option.mem_def.mp hx] at hy
  cases hy
  exact refl_of le x

theorem below_swap (hi' : i < a.size) (hj' : j < a.size) :
    Below le (a.swap i j) k l ↔ Below le a (exchange i j k) (exchange i j l) := by
  unfold Below
  rw [getElem?_exchange, getElem?_exchange]

/-- The positions from `lo` to `hi` are in order. -/
def SortedOn (le : α → α → Prop) (lo hi : ℕ) (a : Array α) : Prop :=
  ∀ k l, lo ≤ k → k < l → l ≤ hi → Below le a k l

/-- All positions of a section lie below a fixed one outside, also after the section is rearranged. -/
theorem Rearranged.below (h : Rearranged lo hi a b) (hl : l < lo ∨ hi < l)
    (ha : ∀ k, lo ≤ k → k ≤ hi → Below le a k l) : ∀ k, lo ≤ k → k ≤ hi → Below le b k l := by
  intro k hlk hkh
  obtain ⟨k', hl', hh', heq⟩ := h.within k hlk hkh
  exact (ha k' hl' hh').congr heq (h.frame l hl)

theorem Rearranged.above (h : Rearranged lo hi a b) (hl : l < lo ∨ hi < l)
    (ha : ∀ k, lo ≤ k → k ≤ hi → Below le a l k) : ∀ k, lo ≤ k → k ≤ hi → Below le b l k := by
  intro k hlk hkh
  obtain ⟨k', hl', hh', heq⟩ := h.within k hlk hkh
  exact (ha k' hl' hh').congr (h.frame l hl) heq

theorem Rearranged.sortedOn {lo' hi' : ℕ} (h : Rearranged lo hi a b) (hout : hi' < lo ∨ hi < lo')
    (hs : SortedOn le lo' hi' a) : SortedOn le lo' hi' b := by
  intro k l hk hkl hl
  exact (hs k l hk hkl hl).congr (h.frame k (by omega)) (h.frame l (by omega))

/-! ### Insertion -/

/-- The section up to `hi` is in order, but for the element at `j`, which may belong further left. -/
structure Sinking (le : α → α → Prop) (lo hi j : ℕ) (a : Array α) : Prop where
  others : ∀ k l, lo ≤ k → k < l → l ≤ hi → k ≠ j → l ≠ j → Below le a k l
  above : ∀ l, j < l → l ≤ hi → Below le a j l

theorem Sinking.finish [IsPreorder α le] (h : Sinking le lo hi j a) (hj : j < a.size) (hjh : j ≤ hi)
    (hstop : lo < j → Below le a (j - 1) j) : SortedOn le lo hi a := by
  intro k l hk hkl hl
  by_cases hlj : l = j
  · subst hlj
    have hs := hstop (by omega)
    by_cases hkj : k = l - 1
    · exact hkj ▸ hs
    · exact (h.others k (l - 1) hk (by omega) (by omega) (by omega) (by omega)).trans (by omega) hs
  · by_cases hkj : k = j
    · exact hkj ▸ h.above l (by omega) hl
    · exact h.others k l hk hkl hl hkj hlj

theorem Sinking.step (h : Sinking le lo hi j a) (hlo : lo < j) (hj : j < a.size)
    (hbelow : Below le a j (j - 1)) :
    Sinking le lo hi (j - 1) (a.swap j (j - 1) hj (by omega)) := by
  constructor
  · intro k l hk hkl hl hkj hlj
    rw [below_swap]
    unfold exchange
    split_ifs with h₁ h₂ h₃
    · omega
    · exact h.others (j - 1) l (by omega) (by omega) hl (by omega) (by omega)
    · exact h.others k (j - 1) hk (by omega) (by omega) (by omega) (by omega)
    · exact h.others k l hk hkl hl h₁ h₃
  · intro l hjl hl
    rw [below_swap, exchange, if_neg (by omega), if_pos rfl, exchange]
    split_ifs with h₁ h₂
    · exact hbelow
    · omega
    · exact h.above l (by omega) hl

theorem SortedOn.sinking (h : SortedOn le lo j a) : Sinking le lo (j + 1) (j + 1) a where
  others k l hk hkl hl _ hlj := h k l hk hkl (by omega)
  above l hl hlh := by omega

/-! ### Partition -/

/-- The state of a partition by the element `p` at position `hi - 1`: what the upward scan has passed
lies below, what the downward scan has passed lies above. -/
structure Split (le : α → α → Prop) (lo hi i j : ℕ) (p : α) (a : Array α) : Prop where
  pivot : a[hi - 1]? = some p
  low : ∀ k, lo ≤ k → k ≤ i → Below le a k (hi - 1)
  high : ∀ k, j ≤ k → k ≤ hi → Below le a (hi - 1) k

/-- Two elements out of place are exchanged. -/
theorem Split.step {p : α} {i' j' : ℕ} (h : Split le lo hi i j p a)
    (hij' : i' < j') (hjj : j' < j) (hjhi : j ≤ hi - 1) (hi' : i' < a.size) (hj' : j' < a.size)
    (hlow : ∀ k, i < k → k < i' → Below le a k (hi - 1))
    (hhigh : ∀ k, j' < k → k < j → Below le a (hi - 1) k)
    (hup : Below le a (hi - 1) i') (hdown : Below le a j' (hi - 1)) :
    Split le lo hi i' j' p (a.swap i' j') where
  pivot := by
    rw [getElem?_exchange, exchange_of_ne (by omega) (by omega)]
    exact h.pivot
  low k hk hki := by
    rw [below_swap, exchange_of_ne (k := hi - 1) (by omega) (by omega)]
    by_cases hk' : k = i'
    · rw [hk', exchange_left]
      exact hdown
    · rw [exchange_of_ne hk' (by omega)]
      by_cases hki' : k ≤ i
      · exact h.low k hk hki'
      · exact hlow k (by omega) (by omega)
  high k hk hkh := by
    rw [below_swap, exchange_of_ne (k := hi - 1) (by omega) (by omega)]
    by_cases hk' : k = j'
    · rw [hk', exchange_right]
      exact hup
    · rw [exchange_of_ne (by omega) hk']
      by_cases hkj : j ≤ k
      · exact h.high k hkj hkh
      · exact hhigh k (by omega) (by omega)

/-- The element at `p` separates the section. -/
structure Separated (le : α → α → Prop) (lo hi p : ℕ) (a : Array α) : Prop where
  low : ∀ k, lo ≤ k → k < p → Below le a k p
  high : ∀ k, p < k → k ≤ hi → Below le a p k

/-- The pivot goes to the position where the scans met. -/
theorem Split.finish {p : α} {i' : ℕ} (h : Split le lo hi i j p a)
    (hjhi : j ≤ hi - 1) (hij' : i' ≤ j) (hlt : lo < hi) (hsize : hi < a.size)
    (hlow : ∀ k, i < k → k < i' → Below le a k (hi - 1))
    (hhigh : ∀ k, i' ≤ k → k < j → Below le a (hi - 1) k) :
    Separated le lo hi i' (a.swap i' (hi - 1)) where
  low k hk hki := by
    rw [below_swap, exchange_left, exchange_of_ne (by omega) (by omega)]
    by_cases hki' : k ≤ i
    · exact h.low k hk hki'
    · exact hlow k (by omega) hki
  high k hk hkh := by
    have habove : ∀ l, i' ≤ l → l ≤ hi → Below le a (hi - 1) l := by
      intro l hil hlh
      by_cases hlj : j ≤ l
      · exact h.high l hlj hlh
      · exact hhigh l hil (by omega)
    rw [below_swap, exchange_left]
    by_cases hk' : k = hi - 1
    · rw [hk', exchange_right]
      exact habove i' (Nat.le_refl i') (by omega)
    · rw [exchange_of_ne (by omega) hk']
      exact habove k (by omega) hkh

theorem Separated.left {p : ℕ} (h : Separated le lo hi p a) (hp : lo < p)
    (hre : Rearranged lo (p - 1) a b) : Separated le lo hi p b where
  low k hk hkp := hre.below (by omega) (fun l hl hlp => h.low l hl (by omega)) k hk (by omega)
  high k hk hkh := (h.high k hk hkh).congr (hre.frame p (by omega)) (hre.frame k (by omega))

theorem Separated.right {p : ℕ} (h : Separated le lo hi p a) (hre : Rearranged (p + 1) hi a b) :
    Separated le lo hi p b where
  low k hk hkp := (h.low k hk hkp).congr (hre.frame k (by omega)) (hre.frame p (by omega))
  high k hk hkh := hre.above (by omega) (fun l hl hlh => h.high l (by omega) hlh) k (by omega) hkh

theorem Separated.sortedOn [IsPreorder α le] {p : ℕ} (h : Separated le lo hi p a) (hp : p < a.size)
    (hlow : SortedOn le lo (p - 1) a) (hhigh : SortedOn le (p + 1) hi a) : SortedOn le lo hi a := by
  intro k l hk hkl hl
  by_cases hkp : p < k
  · exact hhigh k l hkp hkl hl
  by_cases hlp : l < p
  · exact hlow k l hk hkl (by omega)
  · by_cases hkp' : k = p
    · exact hkp' ▸ h.high l (by omega) hl
    · have hkp'' := h.low k hk (by omega)
      by_cases hlp' : l = p
      · exact hlp' ▸ hkp''
      · exact hkp''.trans hp (h.high l (by omega) hl)

/-! ### Heaps -/

def IsChild (q p : ℕ) : Prop := q = 2 * p + 1 ∨ q = 2 * p + 2

/-- The `m` positions from `lo` form a heap at every parent from `r` on. -/
def HeapFrom (le : α → α → Prop) (lo m r : ℕ) (a : Array α) : Prop :=
  ∀ p q, r ≤ p → IsChild q p → q < m → Below le a (lo + q) (lo + p)

/-- The same but for the element at `s`, whose children lie below its parent. -/
structure HeapExcept (le : α → α → Prop) (lo m r s : ℕ) (a : Array α) : Prop where
  others : ∀ p q, r ≤ p → IsChild q p → q < m → p ≠ s → Below le a (lo + q) (lo + p)
  grand : ∀ p q, r ≤ p → IsChild s p → IsChild q s → q < m → Below le a (lo + q) (lo + p)

theorem HeapExcept.finish {m r s : ℕ} (h : HeapExcept le lo m r s a)
    (hs : ∀ q, IsChild q s → q < m → Below le a (lo + q) (lo + s)) : HeapFrom le lo m r a := by
  intro p q hp hq hqm
  by_cases hps : p = s
  · exact hps ▸ hs q (hps ▸ hq) hqm
  · exact h.others p q hp hq hqm hps

theorem HeapFrom.except {m r : ℕ} (h : HeapFrom le lo m (r + 1) a) : HeapExcept le lo m r r a where
  others p q hp hq hqm hpr := h p q (by omega) hq hqm
  grand p q hp hrp := by
    unfold IsChild at hrp
    omega

/-- The element at `s` goes down to the larger child `c`. -/
theorem HeapExcept.step {m r s c : ℕ} (h : HeapExcept le lo m r s a) (hr : r ≤ s) (hc : IsChild c s)
    (hcm : c < m) (hsize : lo + m ≤ a.size)
    (hup : Below le a (lo + s) (lo + c))
    (hother : ∀ q, IsChild q s → q < m → Below le a (lo + q) (lo + c)) :
    HeapExcept le lo m r c
      (a.swap (lo + s) (lo + c) (by unfold IsChild at hc; omega) (by omega)) := by
  unfold IsChild at hc
  constructor
  · intro p q hp hq hqm hpc
    rw [below_swap]
    unfold IsChild at hq
    by_cases hps : p = s
    · rw [hps, exchange_left]
      by_cases hqc : q = c
      · rw [hqc, exchange_right]
        exact hup
      · rw [exchange_of_ne (by omega) (by omega)]
        exact hother q (by unfold IsChild; omega) hqm
    · rw [exchange_of_ne (k := lo + p) (by omega) (by omega)]
      by_cases hqs : q = s
      · rw [hqs, exchange_left]
        exact h.grand p c hp (by unfold IsChild; omega) hc hcm
      · rw [exchange_of_ne (by omega) (by omega)]
        exact h.others p q hp hq hqm hps
  · intro p q hp hcp hq hqm
    unfold IsChild at hcp hq
    obtain rfl : p = s := by omega
    rw [below_swap, exchange_left, exchange_of_ne (by omega) (by omega)]
    exact h.others c q (by omega) hq hqm (by omega)

/-- The root is the largest. -/
theorem HeapFrom.root [IsPreorder α le] {m : ℕ} (h : HeapFrom le lo m 0 a) (hsize : lo + m ≤ a.size)
    (q : ℕ) (hq : q < m) : Below le a (lo + q) lo := by
  induction q using Nat.strongRecOn with
  | ind q ih =>
    by_cases hq0 : q = 0
    · rw [hq0]
      exact Below.refl lo
    · have hchild : IsChild q ((q - 1) / 2) := by unfold IsChild; omega
      have hparent := h ((q - 1) / 2) q (Nat.zero_le _) hchild hq
      exact hparent.trans (by omega) (ih _ (by omega) (by omega))

end LuajitRs.Lib.Rearrange
