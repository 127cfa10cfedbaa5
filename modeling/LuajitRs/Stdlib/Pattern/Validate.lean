import LuajitRs.Lib.Ensures
import LuajitRs.Stdlib.Pattern.Engine

/-! What the validator accepts: patterns that are a sequence of complete items. The scanners of the matcher find
the same end of an item, and stay inside the pattern. -/
namespace LuajitRs.Pattern

open Lib

/-- An error that is raised, not a fault. -/
def Raised : Stop → Prop
  | .raise _ => True
  | .fault _ => False

/-- No error at all. -/
def Never (_ : Stop) : Prop := False

variable {s pat : List UInt8} {c b : UInt8} {i j e n : ℕ}

theorem byteAt_ok (h : s[i]? = some c) : byteAt s i = .ok c := by
  rw [byteAt, h]

theorem byteAt_ensures (h : i < s.length) : Ensures Never (byteAt s i) fun c => s[i]? = some c := by
  rw [byteAt_ok (List.getElem?_eq_getElem h)]
  exact List.getElem?_eq_getElem h

theorem slice_ok {a b : ℕ} (hab : a ≤ b) (hb : b ≤ s.length) : slice s a b = .ok ((s.take b).drop a) := by
  rw [slice, if_pos ⟨hab, hb⟩]

theorem hasByte_eq : hasByte pat i b = .ok (pat[i]? = some b : Bool) := by
  rw [hasByte]
  split
  · next h => simp [byteAt, List.getElem?_eq_getElem h, Except.map, beq_eq_decide]
  · next h => simp [List.getElem?_eq_none (Nat.not_lt.mp h)]

theorem lt_length_of_getElem? {α : Type} {s : List α} {a : α} (h : s[i]? = some a) : i < s.length :=
  (List.getElem?_eq_some_iff.mp h).1

/-! ### Sets -/

/-- Where the items of the set at `i` begin. -/
def setItems (pat : List UInt8) (i : ℕ) : ℕ :=
  let j := if pat[i + 1]? = some (ch '^') then i + 2 else i + 1
  if pat[j]? = some (ch ']') then j + 1 else j

theorem lt_setItems (pat : List UInt8) (i : ℕ) : i < setItems pat i := by
  unfold setItems
  grind

/-- The items from `j` on reach the bracket that ends before `e`. -/
inductive SetEnd (pat : List UInt8) : ℕ → ℕ → Prop
  | close {j : ℕ} (h : pat[j]? = some (ch ']')) : SetEnd pat j (j + 1)
  | escape {j e : ℕ} (h : pat[j]? = some (ch '%')) (hj : j + 1 < pat.length) (rest : SetEnd pat (j + 2) e) :
      SetEnd pat j e
  | byte {j e : ℕ} {c : UInt8} (h : pat[j]? = some c) (hclose : c ≠ ch ']') (hesc : c ≠ ch '%')
      (rest : SetEnd pat (j + 1) e) : SetEnd pat j e

theorem SetEnd.bounds (h : SetEnd pat j e) : j < e ∧ e ≤ pat.length := by
  induction h with
  | close h => exact ⟨Nat.lt_succ_self _, lt_length_of_getElem? h⟩
  | escape _ _ _ ih => exact ⟨by omega, ih.2⟩
  | byte _ _ _ _ ih => exact ⟨by omega, ih.2⟩

theorem validateSetFrom_ensures (n : ℕ) (h0 : 0 < n) (hn : pat.length < n + j) :
    Ensures Raised (validateSetFrom pat n j) (SetEnd pat j) := by
  induction n generalizing j with
  | zero => cases h0
  | succ n ih =>
    rw [validateSetFrom]
    by_cases hj : j < pat.length
    · rw [if_pos hj]
      refine (byteAt_ensures hj).weaken (fun _ => False.elim) |>.bind fun p hp => ?_
      by_cases hclose : p = ch ']'
      · rw [if_pos hclose]
        subst hclose
        exact .close hp
      · rw [if_neg hclose]
        by_cases hesc : p = ch '%'
        · rw [if_pos hesc]
          subst hesc
          by_cases hlast : j + 1 < pat.length
          · rw [if_pos hlast]
            exact (ih (by omega) (by omega)).mono fun e he => .escape hp hlast he
          · rw [if_neg hlast]
            trivial
        · rw [if_neg hesc]
          exact (ih (by omega) (by omega)).mono fun e he => .byte hp hclose hesc he
    · rw [if_neg hj]
      trivial

theorem validateSet_ensures (i : ℕ) : Ensures Raised (validateSet pat i) (SetEnd pat (setItems pat i)) := by
  simp only [validateSet, hasByte_eq, Ensures.bind_iff, Ensures.ok_iff, decide_eq_true_eq]
  exact validateSetFrom_ensures _ (Nat.succ_pos _) (by omega)

/-- The matcher's scanner stops at the same bracket. -/
theorem SetEnd.setEndFrom_eq (h : SetEnd pat j e) (hn : pat.length < n + j) : setEndFrom pat n j = .ok (e - 1) := by
  induction h generalizing n with
  | @close j h =>
    have hj := lt_length_of_getElem? h
    obtain ⟨n, rfl⟩ : ∃ m, n = m + 1 := ⟨n - 1, by omega⟩
    rw [setEndFrom, if_pos hj, byteAt_ok h]
    simp
  | @escape j e h hj rest ih =>
    obtain ⟨n, rfl⟩ : ∃ m, n = m + 1 := ⟨n - 1, by omega⟩
    rw [setEndFrom, if_pos (by omega), byteAt_ok h, ← ih (n := n) (by omega)]
    simp [hj]
  | @byte j e c h hclose hesc rest ih =>
    have hj := lt_length_of_getElem? h
    obtain ⟨n, rfl⟩ : ∃ m, n = m + 1 := ⟨n - 1, by omega⟩
    rw [setEndFrom, if_pos hj, byteAt_ok h, ← ih (n := n) (by omega), ok_bind, if_neg hclose,
      if_neg fun h => hesc h.1]

/-! ### Items -/

/-- A complete item from `i` to `e`. -/
inductive Item (pat : List UInt8) : ℕ → ℕ → Prop
  | balanced {i : ℕ} (h : pat[i]? = some (ch '%')) (hb : pat[i + 1]? = some (ch 'b')) (hl : i + 3 < pat.length) :
      Item pat i (i + 4)
  | frontier {i e : ℕ} (h : pat[i]? = some (ch '%')) (hf : pat[i + 1]? = some (ch 'f'))
      (hs : pat[i + 2]? = some (ch '[')) (he : SetEnd pat (setItems pat (i + 2)) e) : Item pat i e
  | escape {i : ℕ} {c : UInt8} (h : pat[i]? = some (ch '%')) (hc : pat[i + 1]? = some c) (hb : c ≠ ch 'b')
      (hf : c ≠ ch 'f') : Item pat i (i + 2)
  | set {i e : ℕ} (h : pat[i]? = some (ch '[')) (he : SetEnd pat (setItems pat i) e) : Item pat i e
  | byte {i : ℕ} {c : UInt8} (h : pat[i]? = some c) (hesc : c ≠ ch '%') (hset : c ≠ ch '[') : Item pat i (i + 1)

theorem Item.bounds (h : Item pat i e) : i < e ∧ e ≤ pat.length := by
  cases h with
  | balanced _ _ hl => omega
  | frontier _ _ _ he => exact ⟨by have := lt_setItems pat (i + 2); have := he.bounds; omega, he.bounds.2⟩
  | escape _ hc => exact ⟨by omega, lt_length_of_getElem? hc⟩
  | set _ he => exact ⟨by have := lt_setItems pat i; have := he.bounds; omega, he.bounds.2⟩
  | byte h => exact ⟨by omega, lt_length_of_getElem? h⟩

/-- Complete items from `i` to the end of the pattern. -/
inductive Wf (pat : List UInt8) : ℕ → Prop
  | done {i : ℕ} (h : pat.length ≤ i) : Wf pat i
  | item {i e : ℕ} (h : Item pat i e) (rest : Wf pat e) : Wf pat i

theorem validateItem_ensures (hi : i < pat.length) : Ensures Raised (validateItem pat i) (Item pat i) := by
  rw [validateItem]
  refine (byteAt_ensures hi).weaken (fun _ => False.elim) |>.bind fun p hp => ?_
  by_cases hesc : p = ch '%'
  · subst hesc
    rw [if_pos rfl]
    by_cases hlast : i + 1 < pat.length
    · rw [if_pos hlast]
      refine (byteAt_ensures hlast).weaken (fun _ => False.elim) |>.bind fun cl hcl => ?_
      by_cases hb : cl = ch 'b'
      · subst hb
        rw [if_pos rfl]
        split
        · next hl => exact .balanced hp hcl hl
        · trivial
      · rw [if_neg hb]
        by_cases hf : cl = ch 'f'
        · subst hf
          rw [if_pos rfl]
          simp only [hasByte_eq, ok_bind, decide_eq_true_eq]
          split
          · next hs => exact (validateSet_ensures _).mono fun e he => .frontier hp hcl hs he
          · trivial
        · rw [if_neg hf]
          exact .escape hp hcl hb hf
    · rw [if_neg hlast]
      trivial
  · rw [if_neg hesc]
    by_cases hset : p = ch '['
    · subst hset
      rw [if_pos rfl]
      exact (validateSet_ensures _).mono fun e he => .set hp he
    · rw [if_neg hset]
      exact .byte hp hesc hset

/-- A repetition suffix is a complete item of its own. -/
theorem ne_of_isRepetition (hc : isRepetition c = true) : c ≠ ch '%' ∧ c ≠ ch '[' := by
  refine ⟨?_, ?_⟩ <;> rintro rfl <;> exact absurd hc (by decide)

theorem validateFrom_ensures (n : ℕ) (h0 : 0 < n) (hn : pat.length < n + i) :
    Ensures Raised (validateFrom pat n i) fun _ => Wf pat i := by
  induction n generalizing i with
  | zero => cases h0
  | succ n ih =>
    rw [validateFrom]
    by_cases hi : i < pat.length
    · rw [if_pos hi]
      refine (validateItem_ensures hi).bind fun j hj => ?_
      have hb := hj.bounds
      by_cases hl : j < pat.length
      · rw [if_pos hl]
        obtain ⟨c, hc⟩ : ∃ c, pat[j]? = some c := ⟨_, List.getElem?_eq_getElem hl⟩
        rw [byteAt_ok hc]
        simp only [Except.map, ok_bind]
        by_cases hrep : isRepetition c = true
        · rw [if_pos hrep]
          have hne := ne_of_isRepetition hrep
          exact (ih (by omega) (by omega)).mono fun _ hw => .item hj (.item (.byte hc hne.1 hne.2) hw)
        · rw [if_neg hrep]
          exact (ih (i := j) (by omega) (by omega)).mono fun _ hw => .item hj hw
      · rw [if_neg hl]
        exact (ih (i := j) (by omega) (by omega)).mono fun _ hw => .item hj hw
    · rw [if_neg hi]
      exact .done (Nat.not_lt.mp hi)

theorem validatePattern_ensures (pat : List UInt8) :
    Ensures Raised (validatePattern pat) fun _ => Wf pat (patStart pat) :=
  validateFrom_ensures _ (Nat.succ_pos _) (by omega)

/-- An accepted pattern is complete items from its start. -/
theorem wf_of_validatePattern (h : validatePattern pat = .ok ()) : Wf pat (patStart pat) :=
  (validatePattern_ensures pat).of_ok h

/-! ### Reading one item back -/

namespace Wf

theorem item_of_lt (h : Wf pat i) (hi : i < pat.length) : ∃ e, Item pat i e ∧ Wf pat e := by
  cases h with
  | done h => omega
  | item h rest => exact ⟨_, h, rest⟩

theorem byte (h : Wf pat i) (hc : pat[i]? = some c) (hesc : c ≠ ch '%') (hset : c ≠ ch '[') : Wf pat (i + 1) := by
  obtain ⟨e, hitem, rest⟩ := h.item_of_lt (lt_length_of_getElem? hc)
  cases hitem <;> first | exact rest | grind

theorem repetition (h : Wf pat i) (hc : pat[i]? = some c) (hrep : isRepetition c = true) : Wf pat (i + 1) :=
  h.byte hc (ne_of_isRepetition hrep).1 (ne_of_isRepetition hrep).2

/-- An escape has its byte. -/
theorem escape_lt (h : Wf pat i) (hc : pat[i]? = some (ch '%')) : i + 1 < pat.length := by
  obtain ⟨e, hitem, rest⟩ := h.item_of_lt (lt_length_of_getElem? hc)
  cases hitem with
  | balanced _ hb _ => exact lt_length_of_getElem? hb
  | frontier _ hf _ _ => exact lt_length_of_getElem? hf
  | escape _ hc _ _ => exact lt_length_of_getElem? hc
  | set h' => simp [hc] at h'
  | byte h' hesc => grind

theorem balanced (h : Wf pat i) (hc : pat[i]? = some (ch '%')) (hb : pat[i + 1]? = some (ch 'b')) :
    i + 3 < pat.length ∧ Wf pat (i + 4) := by
  obtain ⟨e, hitem, rest⟩ := h.item_of_lt (lt_length_of_getElem? hc)
  cases hitem with
  | balanced _ _ hl => exact ⟨hl, rest⟩
  | frontier _ hf => simp [hb] at hf
  | escape _ hcl hnb => grind
  | set h' => simp [hc] at h'
  | byte h' hesc => grind

theorem frontier (h : Wf pat i) (hc : pat[i]? = some (ch '%')) (hf : pat[i + 1]? = some (ch 'f')) :
    pat[i + 2]? = some (ch '[') ∧ ∃ e, SetEnd pat (setItems pat (i + 2)) e ∧ Wf pat e := by
  obtain ⟨e, hitem, rest⟩ := h.item_of_lt (lt_length_of_getElem? hc)
  cases hitem with
  | balanced _ hb => simp [hf] at hb
  | frontier _ _ hs he => exact ⟨hs, e, he, rest⟩
  | escape _ hcl _ hnf => grind
  | set h' => simp [hc] at h'
  | byte h' hesc => grind

theorem escape (h : Wf pat i) (hc : pat[i]? = some (ch '%')) (hcl : pat[i + 1]? = some c) (hb : c ≠ ch 'b')
    (hf : c ≠ ch 'f') : Wf pat (i + 2) := by
  obtain ⟨e, hitem, rest⟩ := h.item_of_lt (lt_length_of_getElem? hc)
  cases hitem with
  | balanced _ hb' => grind
  | frontier _ hf' => grind
  | escape => exact rest
  | set h' => simp [hc] at h'
  | byte h' hesc => grind

theorem set (h : Wf pat i) (hc : pat[i]? = some (ch '[')) : ∃ e, SetEnd pat (setItems pat i) e ∧ Wf pat e := by
  obtain ⟨e, hitem, rest⟩ := h.item_of_lt (lt_length_of_getElem? hc)
  cases hitem with
  | balanced h' => simp [hc] at h'
  | frontier h' => simp [hc] at h'
  | escape h' => simp [hc] at h'
  | set _ he => exact ⟨e, he, rest⟩
  | byte h' _ hset => grind

end Wf

theorem elementEnd_set (h : pat[i]? = some (ch '[')) (he : SetEnd pat (setItems pat i) e) :
    elementEnd pat i = .ok e := by
  have hb := he.bounds
  have hend := he.setEndFrom_eq (n := pat.length + 1) (by omega)
  simp only [setItems] at hend
  have he1 : e - 1 + 1 = e := by omega
  simp only [elementEnd, byteAt_ok h, ok_bind, hasByte_eq, decide_eq_true_eq, hend]
  simp [he1]

/-- An item other than `%b` and `%f` ends where the matcher's scanner says. -/
theorem Wf.elementEnd_ok (h : Wf pat i) (hi : i < pat.length)
    (hbf : pat[i]? = some (ch '%') → pat[i + 1]? ≠ some (ch 'b') ∧ pat[i + 1]? ≠ some (ch 'f')) :
    ∃ e, elementEnd pat i = .ok e ∧ i < e ∧ e ≤ pat.length ∧ Wf pat e := by
  obtain ⟨c, hc⟩ : ∃ c, pat[i]? = some c := ⟨_, List.getElem?_eq_getElem hi⟩
  by_cases hesc : c = ch '%'
  · subst hesc
    have hl := h.escape_lt hc
    obtain ⟨cl, hcl⟩ : ∃ cl, pat[i + 1]? = some cl := ⟨_, List.getElem?_eq_getElem hl⟩
    have hne := hbf hc
    rw [hcl] at hne
    refine ⟨i + 2, ?_, by omega, by omega, h.escape hc hcl (fun h => hne.1 (by rw [h])) fun h => hne.2 (by rw [h])⟩
    simp [elementEnd, byteAt_ok hc]
  · by_cases hset : c = ch '['
    · subst hset
      obtain ⟨e, he, hw⟩ := h.set hc
      have hb := he.bounds
      have hs := lt_setItems pat i
      exact ⟨e, elementEnd_set hc he, by omega, hb.2, hw⟩
    · refine ⟨i + 1, ?_, by omega, by omega, h.byte hc hesc hset⟩
      rw [elementEnd, byteAt_ok hc, ok_bind, if_neg hesc, if_neg hset]
      rfl

end LuajitRs.Pattern
