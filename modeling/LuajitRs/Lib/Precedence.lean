import Mathlib.Data.List.Basic

/-! Operator expressions with a left and a right priority for each binary operator and one priority for the prefix
operators. An operator takes to its right what binds tighter than its right priority, so that a sequence of
operands, prefixes and binary operators has a tree that respects the priorities. -/
namespace LuajitRs.Lib.Precedence

/-- Parse trees with binary operators `B`, prefix operators `U` and operands `A`. -/
inductive Tree (B U A : Type)
  | operand (a : A)
  | unary (u : U) (t : Tree B U A)
  | binary (b : B) (l r : Tree B U A)
  deriving DecidableEq

/-- Left and right priorities of the binary operators, and the priority of the prefix operators. -/
structure Priorities (B : Type) where
  left : B → ℕ
  right : B → ℕ
  unary : ℕ

variable {B U A I : Type} {P : Priorities B} {bin : B → I} {pre : U → I} {opd : A → I}

namespace Tree

/-- The items of a tree in their order in the text. -/
def flatten (bin : B → I) (pre : U → I) (opd : A → I) : Tree B U A → List I
  | operand a => [opd a]
  | unary u t => pre u :: flatten bin pre opd t
  | binary b l r => flatten bin pre opd l ++ bin b :: flatten bin pre opd r

/-- No operator at the right edge takes an operator of left priority `p`. -/
def Closed (P : Priorities B) (p : ℕ) : Tree B U A → Prop
  | operand _ => True
  | unary _ t => p ≤ P.unary ∧ t.Closed P p
  | binary b _ r => p ≤ P.right b ∧ r.Closed P p

/-- The tree respects the priorities, and the operators at its left edge bind tighter than `limit`. -/
def Bound (P : Priorities B) : ℕ → Tree B U A → Prop
  | _, operand _ => True
  | _, unary _ t => t.Bound P P.unary
  | limit, binary b l r => limit < P.left b ∧ l.Closed P (P.left b) ∧ l.Bound P limit ∧ r.Bound P (P.right b)

end Tree

/-- An operand with prefix operators before it. -/
inductive Prefixed (pre : U → I) (opd : A → I) : List I → Prop
  | operand (a : A) : Prefixed pre opd [opd a]
  | unary (u : U) {s : List I} : Prefixed pre opd s → Prefixed pre opd (pre u :: s)

/-- Prefixed operands joined by binary operators. -/
inductive Joined (bin : B → I) (pre : U → I) (opd : A → I) : List I → Prop
  | single {s : List I} : Prefixed pre opd s → Joined bin pre opd s
  | join {s p : List I} (b : B) : Joined bin pre opd s → Prefixed pre opd p → Joined bin pre opd (s ++ bin b :: p)

open Tree

theorem Prefixed.exists_tree {s : List I} (h : Prefixed pre opd s) :
    ∃ t : Tree B U A, t.flatten bin pre opd = s ∧ ∀ limit, t.Bound P limit := by
  induction h with
  | operand a => exact ⟨.operand a, rfl, fun _ => trivial⟩
  | unary u _ ih =>
    obtain ⟨t, rfl, ht⟩ := ih
    exact ⟨.unary u t, rfl, fun _ => ht _⟩

/-- One more operator and operand at the right end of a tree go below the last operator that takes them. -/
theorem Tree.Bound.extend {t p : Tree B U A} {b : B} {limit : ℕ} (ht : t.Bound P limit)
    (hp : p.Bound P (P.right b)) (hlimit : t.Closed P (P.left b) → limit < P.left b) :
    ∃ t' : Tree B U A, t'.flatten bin pre opd = t.flatten bin pre opd ++ bin b :: p.flatten bin pre opd ∧
      t'.Bound P limit := by
  induction t generalizing limit with
  | operand a => exact ⟨.binary b (.operand a) p, rfl, hlimit trivial, trivial, trivial, hp⟩
  | unary u t ih =>
    by_cases hc : (Tree.unary u t).Closed P (P.left b)
    · exact ⟨.binary b (.unary u t) p, rfl, hlimit hc, hc, ht, hp⟩
    · obtain ⟨t', ht', hb⟩ := ih ht fun hc' => Nat.lt_of_not_le fun hle => hc ⟨hle, hc'⟩
      exact ⟨.unary u t', congrArg _ ht', hb⟩
  | binary o l r _ ih =>
    by_cases hc : (Tree.binary o l r).Closed P (P.left b)
    · exact ⟨.binary b (.binary o l r) p, rfl, hlimit hc, hc, ht, hp⟩
    · obtain ⟨ho, hcl, hl, hr⟩ := ht
      obtain ⟨r', hr', hb⟩ := ih hr fun hc' => Nat.lt_of_not_le fun hle => hc ⟨hle, hc'⟩
      refine ⟨.binary o l r', ?_, ho, hcl, hl, hb⟩
      rw [flatten, flatten, hr', List.append_assoc, List.cons_append]

/-- Every sequence has a tree that respects the priorities. -/
theorem Joined.exists_tree {s : List I} {limit : ℕ} (h : Joined bin pre opd s) (hlimit : ∀ b, limit < P.left b) :
    ∃ t : Tree B U A, t.flatten bin pre opd = s ∧ t.Bound P limit := by
  induction h with
  | single hs =>
    obtain ⟨t, ht, hb⟩ := hs.exists_tree
    exact ⟨t, ht, hb limit⟩
  | join b _ hp ih =>
    obtain ⟨t, rfl, ht⟩ := ih
    obtain ⟨q, rfl, hq⟩ : ∃ q : Tree B U A, q.flatten bin pre opd = _ ∧ ∀ limit, q.Bound P limit := hp.exists_tree
    exact ht.extend (hq _) fun _ => hlimit b

end LuajitRs.Lib.Precedence
