import Mathlib.Data.List.Basic
import Mathlib.Logic.Relation
import Mathlib.Tactic.Common

/-! Programs over data of their own that consult an oracle. A consultation may change the world of
the oracle and may raise an error; the program itself may only go wrong by a fault. The rules reduce
a statement about a program to its data: no faults, a postcondition on return, and nothing in the
world changed but by consultations. An oracle that logs the questions lets a run be compared with the run for
another oracle: as long as the two agree on the questions asked, the runs agree. -/
namespace LuajitRs.Lib.Oracle

/-- What the program works on, and what only the oracle touches. -/
structure Split (δ ω : Type) where
  data : δ
  world : ω

/-- The program goes wrong, or an error of the oracle passes through. -/
inductive Stop (φ ε : Type)
  | fault (f : φ)
  | raised (e : ε)

abbrev Prog (φ ε δ ω α : Type) := EStateM (Stop φ ε) (Split δ ω) α

variable {φ ε δ ω α β κ ρ : Type}

def fault (f : φ) : Prog φ ε δ ω α := fun w => .error (.fault f) w

/-- Ask the oracle. -/
def ask (o : ω → κ → Except ε ρ × ω) (q : κ) : Prog φ ε δ ω ρ := fun w =>
  match o w.world q with
  | (.ok r, s) => .ok r { w with world := s }
  | (.error e, s) => .error (.raised e) { w with world := s }

/-- The worlds that consultations lead to. -/
def Consulted (o : ω → κ → Except ε ρ × ω) : ω → ω → Prop :=
  Relation.ReflTransGen fun s s' => ∃ q, (o s q).2 = s'

/-- Run on the data `d` in a world that satisfies `I`, the program does not go wrong, keeps `I`, and
meets `Q` when it returns. -/
def Meets (I : ω → Prop) (m : Prog φ ε δ ω α) (d : δ) (Q : α → δ → Prop) : Prop :=
  ∀ s, I s → match m ⟨d, s⟩ with
    | .ok a w => I w.world ∧ Q a w.data
    | .error (.raised _) w => I w.world
    | .error (.fault _) _ => False

variable {I : ω → Prop} {m : Prog φ ε δ ω α} {f : α → Prog φ ε δ ω β} {d : δ} {Q : α → δ → Prop}
  {R : β → δ → Prop}

theorem Meets.pure {a : α} (h : Q a d) : Meets I (pure a : Prog φ ε δ ω α) d Q :=
  fun _ hs => ⟨hs, h⟩

theorem Meets.mono {Q' : α → δ → Prop} (h : Meets I m d Q) (hQ : ∀ a e, Q a e → Q' a e) :
    Meets I m d Q' := by
  intro s hs
  have hm := h s hs
  cases hrun : m ⟨d, s⟩ with
  | ok a w =>
    rw [hrun] at hm
    exact ⟨hm.1, hQ a w.data hm.2⟩
  | error e w =>
    rw [hrun] at hm
    cases e with
    | raised e => exact hm
    | fault f => exact hm

theorem Meets.bind (h : Meets I m d Q) (hf : ∀ a e, Q a e → Meets I (f a) e R) :
    Meets I (m >>= f) d R := by
  intro s hs
  have hm := h s hs
  simp only [Bind.bind, EStateM.bind]
  cases hrun : m ⟨d, s⟩ with
  | ok a w =>
    rw [hrun] at hm
    exact hf a w.data hm.2 w.world hm.1
  | error e w =>
    rw [hrun] at hm
    cases e with
    | raised e => exact hm
    | fault f => exact hm.elim

/-- What every answer of the oracle satisfies can be used of this one. -/
theorem Meets.ask {o : ω → κ → Except ε ρ × ω} {q : κ} {A : ρ → Prop}
    (hI : ∀ s q, I s → I (o s q).2) (hA : ∀ s r s', o s q = (.ok r, s') → A r) :
    Meets I (ask o q : Prog φ ε δ ω ρ) d fun r e => d = e ∧ A r := by
  intro s hs
  have hnext := hI s q hs
  unfold Oracle.ask
  rcases hans : o s q with ⟨r | r, s'⟩
  · rw [hans] at hnext
    exact hnext
  · rw [hans] at hnext
    exact ⟨hnext, rfl, hA s r s' hans⟩

end LuajitRs.Lib.Oracle

namespace LuajitRs.Lib.Oracle

variable {φ ε δ ω α β κ ρ : Type}

/-- The questions, each with the world in which it is asked. -/
abbrev Log (ω κ : Type) := List (ω × κ)

/-- The oracle `o` that keeps a log in its world. -/
def logged (o : ω → κ → Except ε ρ × ω) : ω × Log ω κ → κ → Except ε ρ × (ω × Log ω κ) :=
  fun w q => ((o w.1 q).1, ((o w.1 q).2, w.2 ++ [(w.1, q)]))

/-- The questions of a run that ends with `r`. -/
def asked : EStateM.Result (Stop φ ε) (Split δ (ω × Log ω κ)) α → Log ω κ
  | .ok _ w => w.world.2
  | .error _ w => w.world.2

/-- The run without its log. -/
def forget : EStateM.Result (Stop φ ε) (Split δ (ω × Log ω κ)) α → EStateM.Result (Stop φ ε) (Split δ ω) α
  | .ok a w => .ok a ⟨w.data, w.world.1⟩
  | .error e w => .error e ⟨w.data, w.world.1⟩

/-- What a run of the logging program asks and leaves: an error that it raises is the answer to its last question. -/
structure Traced (o o' : ω → κ → Except ε ρ × ω) (D : δ → Prop) (Q : κ → Prop) (A : α → Prop) (new : Log ω κ)
    (r : EStateM.Result (Stop φ ε) (Split δ (ω × Log ω κ)) α) (r' : EStateM.Result (Stop φ ε) (Split δ ω) α) :
    Prop where
  questions : ∀ e ∈ new, Q e.2
  returned : ∀ a w, r = .ok a w → A a ∧ D w.data
  answered : ∀ e ∈ new, ∀ x s, o e.1 e.2 = (.error x, s) → ∃ d l, r = .error (.raised x) ⟨d, (s, l)⟩
  raised : ∀ x w, r = .error (.raised x) w → ∃ e ∈ new, (o e.1 e.2).1 = .error x
  agrees : (∀ e ∈ new, o e.1 e.2 = o' e.1 e.2) → r' = forget r

/-- On data with the property `D`, the logging program `p` asks questions with the property `Q`, keeps `D`, returns a
value with the property `A`, and runs like `p'` while the oracles agree. -/
def Follows (o o' : ω → κ → Except ε ρ × ω) (D : δ → Prop) (Q : κ → Prop)
    (p : Prog φ ε δ (ω × Log ω κ) α) (p' : Prog φ ε δ ω α) (A : α → Prop) : Prop :=
  ∀ d s log, D d → ∃ new, asked (p ⟨d, (s, log)⟩) = log ++ new ∧
    Traced o o' D Q A new (p ⟨d, (s, log)⟩) (p' ⟨d, s⟩)

section
variable {o o' : ω → κ → Except ε ρ × ω} {D : δ → Prop} {Q : κ → Prop} {A : α → Prop} {B : β → Prop}
  {p : Prog φ ε δ (ω × Log ω κ) α} {p' : Prog φ ε δ ω α}

/-- A run that asks nothing and goes on like `p'`. -/
theorem Follows.silent (h : ∀ d s log, D d → (∃ a e, A a ∧ D e ∧ p ⟨d, (s, log)⟩ = .ok a ⟨e, (s, log)⟩ ∧
      p' ⟨d, s⟩ = .ok a ⟨e, s⟩) ∨
    ∃ f, p ⟨d, (s, log)⟩ = .error (.fault f) ⟨d, (s, log)⟩ ∧ p' ⟨d, s⟩ = .error (.fault f) ⟨d, s⟩) :
    Follows o o' D Q p p' A := by
  intro d s log hd
  obtain ⟨a, e, ha, he, hp, hp'⟩ | ⟨f, hp, hp'⟩ := h d s log hd
  · rw [hp, hp']
    refine ⟨[], (List.append_nil _).symm, ⟨by simp, ?_, by simp, by simp, fun _ => rfl⟩⟩
    rintro _ _ ⟨⟩
    exact ⟨ha, he⟩
  · rw [hp, hp']
    exact ⟨[], (List.append_nil _).symm, ⟨by simp, by simp, by simp, by simp, fun _ => rfl⟩⟩

theorem Follows.pure {a : α} (ha : A a) :
    Follows o o' D Q (Pure.pure a : Prog φ ε δ (ω × Log ω κ) α) (Pure.pure a) A :=
  .silent fun d _ _ hd => .inl ⟨a, d, ha, hd, rfl, rfl⟩

theorem Follows.fault (f : φ) : Follows o o' D Q (Oracle.fault f : Prog φ ε δ (ω × Log ω κ) α) (Oracle.fault f) A :=
  .silent fun _ _ _ _ => .inr ⟨f, rfl, rfl⟩

theorem Follows.ask {q : κ} (hq : Q q) :
    Follows o o' D Q (ask (logged o) q : Prog φ ε δ (ω × Log ω κ) ρ) (ask o' q) fun _ => True := by
  intro d s log hd
  refine ⟨[(s, q)], ?_, ?_⟩
  · unfold Oracle.ask logged
    cases (o s q).1 <;> simp [asked]
  · rcases hans : o s q with ⟨x | r, s'⟩
    · have hrun : Oracle.ask (logged o) q (⟨d, (s, log)⟩ : Split δ (ω × Log ω κ)) =
          .error (.raised x : Stop φ ε) ⟨d, (s', log ++ [(s, q)])⟩ := by
        simp [Oracle.ask, logged, hans]
      rw [hrun]
      refine ⟨by simpa using hq, by simp, ?_, ?_, fun hagree => ?_⟩
      · simp only [List.mem_singleton, forall_eq, hans, Prod.mk.injEq, Except.error.injEq]
        rintro _ _ ⟨rfl, rfl⟩
        exact ⟨d, _, rfl⟩
      · rintro _ _ ⟨⟩
        exact ⟨(s, q), List.mem_singleton_self _, by rw [hans]⟩
      · have hsame := hagree (s, q) (List.mem_singleton_self _)
        simp only [hans] at hsame
        simp [Oracle.ask, ← hsame, forget]
    · have hrun : Oracle.ask (logged o) q (⟨d, (s, log)⟩ : Split δ (ω × Log ω κ)) =
          (.ok r ⟨d, (s', log ++ [(s, q)])⟩ : EStateM.Result (Stop φ ε) _ _) := by
        simp [Oracle.ask, logged, hans]
      rw [hrun]
      refine ⟨by simpa using hq, ?_, ?_, by simp, fun hagree => ?_⟩
      · rintro _ _ ⟨⟩
        exact ⟨trivial, hd⟩
      · simp [hans]
      · have hsame := hagree (s, q) (List.mem_singleton_self _)
        simp only [hans] at hsame
        simp [Oracle.ask, ← hsame, forget]

theorem Follows.bind {f : α → Prog φ ε δ (ω × Log ω κ) β} {f' : α → Prog φ ε δ ω β} (h : Follows o o' D Q p p' A)
    (hf : ∀ a, A a → Follows o o' D Q (f a) (f' a) B) : Follows o o' D Q (p >>= f) (p' >>= f') B := by
  intro d s log hd
  obtain ⟨new, hnew, ht⟩ := h d s log hd
  simp only [Bind.bind, EStateM.bind]
  cases hp : p ⟨d, (s, log)⟩ with
  | error x w =>
    rw [hp] at hnew ht
    refine ⟨new, hnew, ht.questions, by simp, fun e he y s' hy => ?_, fun y w' hy => ?_, fun hagree => ?_⟩
    · obtain ⟨d', l, hr⟩ := ht.answered e he y s' hy
      cases hr
      exact ⟨d', l, rfl⟩
    · cases hy
      exact ht.raised y w rfl
    · rw [ht.agrees hagree]
      rfl
  | ok a w =>
    rw [hp] at hnew ht
    obtain ⟨ha, hw⟩ := ht.returned a w rfl
    obtain ⟨new', hnew', ht'⟩ := hf a ha w.data w.world.1 w.world.2 hw
    have hlog : w.world.2 = log ++ new := hnew
    refine ⟨new ++ new', ?_, ?_, ht'.returned, ?_, ?_, fun hagree => ?_⟩
    · rw [← List.append_assoc, ← hlog]
      exact hnew'
    · intro e he
      exact (List.mem_append.mp he).elim (ht.questions e) (ht'.questions e)
    · intro e he y s' hy
      obtain hfirst | hsecond := List.mem_append.mp he
      · obtain ⟨_, _, hr⟩ := ht.answered e hfirst y s' hy
        cases hr
      · exact ht'.answered e hsecond y s' hy
    · intro y w' hy
      obtain ⟨e, he, hans⟩ := ht'.raised y w' hy
      exact ⟨e, List.mem_append_right _ he, hans⟩
    · have hfirst := ht.agrees fun e he => hagree e (List.mem_append_left _ he)
      rw [hfirst]
      exact ht'.agrees fun e he => hagree e (List.mem_append_right _ he)

end

end LuajitRs.Lib.Oracle
