import LuajitRs.Stdlib.Pattern.Validate
import LuajitRs.Stdlib.Pattern.Gsub

/-! The byte search: it returns the first index where the needle stands. -/
namespace LuajitRs.Pattern

open Lib

variable {h needle rest : List UInt8} {first : UInt8} {i n : ℕ}

theorem Never.weaken {α : Type} {E : Stop → Prop} {m : Except Stop α} {Q : α → Prop} (h : Ensures Never m Q) :
    Ensures E m Q :=
  Ensures.weaken h fun _ => False.elim

/-- The first index where the needle stands in `h`, or none. -/
def FirstOcc (h needle : List UInt8) : Option ℕ → Prop
  | some i => needle <+: h.drop i ∧ ∀ j < i, ¬ needle <+: h.drop j
  | none => ∀ j, ¬ needle <+: h.drop j

theorem length_le_of_prefix_drop (hp : needle <+: h.drop i) (hi : i ≤ h.length) : i + needle.length ≤ h.length := by
  have := hp.length_le
  rw [List.length_drop] at this
  omega

theorem FirstOcc.bound (hi : FirstOcc h needle (some i)) : i + needle.length ≤ h.length := by
  refine length_le_of_prefix_drop hi.1 (Nat.not_lt.mp fun hlt => ?_)
  have hnil : needle = [] := by
    have hp := hi.1
    rwa [List.drop_eq_nil_of_le hlt.le, List.prefix_nil] at hp
  subst hnil
  exact hi.2 0 (by omega) List.nil_prefix

theorem FirstOcc.unique {r q : Option ℕ} (hr : FirstOcc h needle r) (hq : FirstOcc h needle q) : r = q := by
  cases r with
  | none =>
    cases q with
    | none => rfl
    | some j => exact absurd hq.1 (hr j)
  | some i =>
    cases q with
    | none => exact absurd hr.1 (hq i)
    | some j =>
      have hij : ¬ i < j := fun hlt => hq.2 i hlt hr.1
      have hji : ¬ j < i := fun hlt => hr.2 j hlt hq.1
      exact congrArg some (by omega)

theorem prefix_drop_iff (first : UInt8) (hi : i + (rest.length + 1) ≤ h.length) :
    first :: rest <+: h.drop i ↔
      h[i]? = some first ∧ (h.take (i + (rest.length + 1))).drop (i + 1) = rest := by
  have hlt : i < h.length := by omega
  rw [List.drop_eq_getElem_cons hlt, List.cons_prefix_cons, List.getElem?_eq_getElem hlt, Option.some.injEq,
    List.prefix_iff_eq_take, List.drop_take]
  have heq : i + (rest.length + 1) - (i + 1) = rest.length := by omega
  rw [heq]
  exact and_congr eq_comm eq_comm

theorem findBytesFrom_ensures (n i : ℕ) (hn : h.length < n + i) (h0 : 0 < n)
    (hbefore : ∀ j < i, ¬ first :: rest <+: h.drop j) :
    Ensures Never (findBytesFrom h first rest n i) (FirstOcc h (first :: rest)) := by
  induction n generalizing i with
  | zero => cases h0
  | succ n ih =>
    rw [findBytesFrom]
    by_cases hi : i + (rest.length + 1) ≤ h.length
    · rw [if_pos hi]
      refine (byteAt_ensures (by omega)).bind fun c hc => ?_
      rw [slice_ok (by omega) hi, ok_bind]
      have hocc := prefix_drop_iff first hi
      rw [hc, Option.some.injEq] at hocc
      split
      · next heq => exact ⟨hocc.mpr heq, hbefore⟩
      · next hne =>
        refine ih (i + 1) (by omega) (by omega) fun j hj => ?_
        cases Nat.lt_succ_iff_lt_or_eq.mp hj with
        | inl hj => exact hbefore j hj
        | inr hj =>
          subst hj
          exact fun hp => hne (hocc.mp hp)
    · rw [if_neg hi]
      intro j hp
      by_cases hj : j < i
      · exact hbefore j hj hp
      · have := hp.length_le
        rw [List.length_drop, List.length_cons] at this
        omega

theorem singleton_prefix_drop_iff : [first] <+: h.drop i ↔ h[i]? = some first := by
  rw [List.singleton_prefix_iff_head?_eq_some, List.head?_drop]

theorem findIdx_firstOcc (h : List UInt8) (b : UInt8) : FirstOcc h [b] (h.findIdx? (· == b)) := by
  cases hr : h.findIdx? (· == b) with
  | none =>
    rw [List.findIdx?_eq_none_iff] at hr
    intro j hp
    rw [singleton_prefix_drop_iff] at hp
    simpa using hr b (List.mem_of_getElem? hp)
  | some i =>
    obtain ⟨hi, heq, hbefore⟩ := List.findIdx?_eq_some_iff_getElem.mp hr
    refine ⟨?_, fun j hj hp => ?_⟩
    · rw [singleton_prefix_drop_iff, List.getElem?_eq_getElem hi, beq_iff_eq.mp heq]
    · rw [singleton_prefix_drop_iff, List.getElem?_eq_some_iff] at hp
      obtain ⟨hl, hb⟩ := hp
      exact hbefore j hj (beq_iff_eq.mpr hb)

theorem findBytesInSlice_ensures (h needle : List UInt8) :
    Ensures Never (findBytesInSlice h needle) (FirstOcc h needle) := by
  unfold findBytesInSlice
  split
  · next hlong =>
    intro j hp
    have := hp.length_le
    rw [List.length_drop] at this
    omega
  · split
    · exact ⟨List.nil_prefix, fun j hj => nomatch hj⟩
    · exact findIdx_firstOcc h _
    · exact findBytesFrom_ensures _ 0 (by omega) (Nat.succ_pos _) fun j hj => nomatch hj

/-! ### Replacement strings -/

theorem copyRest_ensures {E : Stop → Prop} {text : List UInt8} {r : Subst × ℕ} (hr : r.2 ≤ text.length) :
    Ensures E (copyRest text r) fun _ => True := by
  rw [copyRest, slice_ok hr le_rfl]
  trivial

section Substitute
variable {E : Stop → Prop} (huse : E (.raise "invalid use of '%' in replacement string"))
include huse

theorem substitute_ensures {capture : UInt8 → Except Stop (List UInt8)}
    (h : ∀ d, Ensures E (capture d) fun _ => True) (repl : List UInt8) :
    Ensures E (substitute capture repl) fun _ => True := by
  have hpiece (d : UInt8) : Ensures E (escapePiece capture d) fun _ => True := by
    rw [escapePiece]
    split
    · trivial
    · split
      · exact h d
      · exact huse
  induction repl using substitute.induct with
  | case1 => trivial
  | case2 c => trivial
  | case3 d rest ih =>
    rw [substitute, if_pos rfl]
    exact (hpiece d).bind fun _ _ => ih.bind fun _ _ => trivial
  | case4 c d rest hc ih =>
    rw [substitute, if_neg hc]
    exact ih.bind fun _ _ => trivial

variable (hindex : ∀ n : ℕ, E (.raise s!"invalid capture index %{n}"))
include hindex

theorem plainPiece_ensures (repl full : List UInt8) : Ensures E (plainPiece repl full) fun _ => True := by
  rw [plainPiece]
  split
  · refine substitute_ensures huse (fun d => ?_) repl
    split
    · trivial
    · split
      · trivial
      · exact hindex _
  · trivial

variable {text pat repl : List UInt8} {max : Option ℕ}

theorem gsubPlainLoop_ensures (hpat : pat ≠ []) (n pos : ℕ) (r : Subst) (h0 : 0 < n) (hpos : pos ≤ text.length)
    (hn : text.length + 1 < n + pos) :
    Ensures E (gsubPlainLoop text pat repl max n pos r) fun p => p.2 ≤ text.length := by
  have hlen : 0 < pat.length := List.length_pos_iff.mpr hpat
  induction n generalizing pos r with
  | zero => cases h0
  | succ n ih =>
    rw [gsubPlainLoop]
    split
    · exact hpos
    · rw [slice_ok hpos le_rfl, ok_bind, List.take_length]
      refine (Never.weaken (findBytesInSlice_ensures _ _)).bind fun f hf => ?_
      match f, hf with
      | none, _ => exact hpos
      | some found, hf =>
        have hb := hf.bound
        rw [List.length_drop] at hb
        dsimp only
        rw [slice_ok (Nat.le_add_right _ _) (by omega), ok_bind, slice_ok (Nat.le_add_right _ _) (by omega), ok_bind]
        exact (plainPiece_ensures huse hindex _ _).bind fun piece _ => ih _ _ (by omega) (by omega) (by omega)

theorem gsubPlain_ensures (hpat : pat ≠ []) : Ensures E (gsubPlain text pat repl max) fun _ => True := by
  rw [gsubPlain]
  exact (gsubPlainLoop_ensures huse hindex hpat _ 0 _ (by omega) (Nat.zero_le _) (by omega)).bind
    fun p hp => copyRest_ensures hp

end Substitute

end LuajitRs.Pattern
