import Mathlib.Tactic.Common

/-! Postconditions of computations that may stop with an error. `E` says which errors are allowed: with none,
the computation returns; with all but some, it never stops for the others. -/
namespace LuajitRs.Lib

variable {ε α β : Type}

/-- The computation returns a value that satisfies `Q`, or stops with an error that `E` allows. -/
def Ensures (E : ε → Prop) (m : Except ε α) (Q : α → Prop) : Prop :=
  match m with
  | .ok a => Q a
  | .error e => E e

variable {E F : ε → Prop} {m : Except ε α} {f : α → Except ε β} {P Q : α → Prop} {R : β → Prop}

@[simp] theorem ok_bind (a : α) : (Except.ok a >>= f) = f a := rfl
@[simp] theorem pure_eq_ok (a : α) : (pure a : Except ε α) = .ok a := rfl

@[simp] theorem error_bind (e : ε) : (Except.error e >>= f) = .error e := rfl

theorem bind_eq_ok {x : Except ε α} {b : β} : (x >>= f) = .ok b ↔ ∃ a, x = .ok a ∧ f a = .ok b := by
  cases x with
  | error e => simp
  | ok a => simp

namespace Ensures

@[simp] theorem ok_iff {a : α} : Ensures E (.ok a) Q ↔ Q a := Iff.rfl

@[simp] theorem error_iff {e : ε} : Ensures E (.error e : Except ε α) Q ↔ E e := Iff.rfl

@[simp] theorem bind_iff : Ensures E (m >>= f) R ↔ Ensures E m fun a => Ensures E (f a) R := by
  cases m with
  | ok a => exact Iff.rfl
  | error e => exact Iff.rfl

@[simp] theorem map_iff {g : α → β} : Ensures E (m.map g) R ↔ Ensures E m fun a => R (g a) := by
  cases m with
  | ok a => exact Iff.rfl
  | error e => exact Iff.rfl

theorem mono (h : Ensures E m P) (hQ : ∀ a, P a → Q a) : Ensures E m Q := by
  cases m with
  | ok a => exact hQ a h
  | error e => exact h

theorem weaken (h : Ensures E m Q) (hF : ∀ e, E e → F e) : Ensures F m Q := by
  cases m with
  | ok a => exact h
  | error e => exact hF e h

theorem bind (h : Ensures E m P) (hf : ∀ a, P a → Ensures E (f a) R) : Ensures E (m >>= f) R :=
  bind_iff.mpr (h.mono hf)

/-- Where no error is allowed, the computation returns. -/
theorem none_iff : Ensures (fun _ => False) m Q ↔ ∃ a, m = .ok a ∧ Q a := by
  cases m with
  | ok a => simp
  | error e => simp

theorem of_ok {a : α} (h : Ensures E m Q) (hm : m = .ok a) : Q a := by
  subst hm
  exact h

theorem mapM {xs : List α} (h : ∀ x ∈ xs, Ensures E (f x) R) : Ensures E (xs.mapM f) fun ys => ∀ y ∈ ys, R y := by
  induction xs with
  | nil => simp
  | cons x xs ih =>
    rw [List.mapM_cons]
    refine (h x (List.mem_cons_self ..)).bind fun y hy => ?_
    refine (ih fun z hz => h z (List.mem_cons_of_mem x hz)).bind fun ys hys => ?_
    exact List.forall_mem_cons.mpr ⟨hy, hys⟩

end Ensures
end LuajitRs.Lib
