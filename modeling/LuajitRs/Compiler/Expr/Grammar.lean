import LuajitRs.Compiler.Expr

/-! The grammar of operator expressions. Each binary operator has a level, and a tree of a level joins trees of at
least that level; the prefix operators have the level between products and powers. Its trees are the ones that
respect the priorities of the parser, so that every sequence has one tree and the parser applies the operators in
the order of this tree. -/
namespace LuajitRs.Parse
open Bc Lib.Precedence

/-- The level of a binary operator; operators of a higher level bind tighter. -/
def BinOp.level : BinOp → ℕ
  | .noBinOp => 0
  | .or | .coal => 1
  | .and => 2
  | .ne | .eq | .lt | .ge | .le | .gt => 3
  | .bOr => 4
  | .bXor => 5
  | .bAnd => 6
  | .bShl | .bShr | .bSar => 7
  | .concat => 8
  | .add | .sub => 9
  | .mul | .div | .mod => 10
  | .pow => 12

/-- The level of the prefix operators, below powers only. -/
def UNARY_LEVEL : ℕ := 11

/-- The binary operators that associate to the right. -/
def BinOp.RightAssoc (op : BinOp) : Prop := op = .concat ∨ op = .pow

instance (op : BinOp) : Decidable op.RightAssoc := inferInstanceAs (Decidable (_ ∨ _))

variable {α : Type}

/-- The trees of a level. The right operand of a power may begin with prefix operators. -/
inductive Derives : ℕ → ParseTree α → Prop
  | operand (a : α) : Derives (BinOp.pow.level + 1) (.operand a)
  | unary (u : UnTok) {t : ParseTree α} : Derives UNARY_LEVEL t → Derives UNARY_LEVEL (.unary u t)
  | left (b : BinTok) {l r : ParseTree α} : ¬ b.op.RightAssoc → Derives b.op.level l → Derives (b.op.level + 1) r →
      Derives b.op.level (.binary b l r)
  | right (b : BinTok) {l r : ParseTree α} : b.op.RightAssoc → Derives (b.op.level + 1) l →
      Derives (min b.op.level UNARY_LEVEL) r → Derives b.op.level (.binary b l r)
  | tighter {n : ℕ} {t : ParseTree α} : Derives (n + 1) t → Derives n t

theorem Derives.mono {n m : ℕ} {t : ParseTree α} (h : Derives n t) (hm : m ≤ n) : Derives m t := by
  induction hm with
  | refl => exact h
  | step _ ih => exact ih h.tighter

theorem rightAssoc_iff (op : BinOp) : op.RightAssoc ↔ op.level = 8 ∨ op.level = 12 := by
  unfold BinOp.RightAssoc
  cases op <;> decide

/-- The priorities of an operator of each level. -/
theorem priority_level (op : BinOp) (h : op ≠ .noBinOp) :
    (1 ≤ op.level ∧ op.level ≤ 7 ∧ op.priority = (op.level, op.level)) ∨
    (9 ≤ op.level ∧ op.level ≤ 10 ∧ op.priority = (op.level + 1, op.level + 1)) ∨
    (op.level = 8 ∧ op.priority = (9, 8)) ∨ (op.level = 12 ∧ op.priority = (14, 13)) := by
  cases op <;> first | exact absurd rfl h | decide

theorem priorities_level (b : BinTok) :
    (1 ≤ b.op.level ∧ b.op.level ≤ 7 ∧ priorities.left b = b.op.level ∧ priorities.right b = b.op.level) ∨
    (9 ≤ b.op.level ∧ b.op.level ≤ 10 ∧ priorities.left b = b.op.level + 1 ∧ priorities.right b = b.op.level + 1) ∨
    (b.op.level = 8 ∧ priorities.left b = 9 ∧ priorities.right b = 8) ∨
    (b.op.level = 12 ∧ priorities.left b = 14 ∧ priorities.right b = 13) := by
  have h := priority_level b.op b.2
  simp only [Prod.ext_iff] at h
  exact h

theorem unary_priority : priorities.unary = 12 := rfl

/-! ### Trees of a level respect the priorities -/

/-- An operator that a tree of level `n` does not take from behind it. -/
def Weak (n : ℕ) (b : BinTok) : Prop := b.op.level < n ∨ b.op.level = n ∧ ¬ b.op.RightAssoc

theorem Derives.closed {n : ℕ} {t : ParseTree α} (h : Derives n t) {b : BinTok} (hb : Weak n b) :
    t.Closed priorities (priorities.left b) := by
  have hlevels := priorities_level b
  induction h with
  | operand a => trivial
  | unary u _ ih =>
    refine ⟨?_, ih hb⟩
    rw [unary_priority]
    simp only [Weak, UNARY_LEVEL] at hb
    omega
  | left o ho _ _ _ ihr =>
    have hlevels' := priorities_level o
    simp only [Weak, rightAssoc_iff] at hb ihr ho
    exact ⟨by omega, ihr (by omega)⟩
  | right o ho _ _ _ ihr =>
    have hlevels' := priorities_level o
    simp only [Weak, rightAssoc_iff, UNARY_LEVEL] at hb ihr ho
    exact ⟨by omega, ihr (by omega)⟩
  | tighter _ ih =>
    simp only [Weak] at hb ih
    exact ih (by omega)

theorem Derives.bound {n : ℕ} {t : ParseTree α} (h : Derives n t) {limit : ℕ}
    (hlimit : ∀ b : BinTok, n ≤ b.op.level → limit < priorities.left b) : t.Bound priorities limit := by
  induction h generalizing limit with
  | operand a => trivial
  | unary u _ ih =>
    refine ih fun b hb => ?_
    have hlevels := priorities_level b
    rw [unary_priority]
    unfold UNARY_LEVEL at hb
    omega
  | left o ho hl _ ihl ihr =>
    refine ⟨hlimit o le_rfl, hl.closed (.inr ⟨rfl, ho⟩), ihl hlimit, ihr fun b hb => ?_⟩
    have hlevels := priorities_level b
    have hlevels' := priorities_level o
    rw [rightAssoc_iff] at ho
    omega
  | right o ho hl _ ihl ihr =>
    refine ⟨hlimit o le_rfl, hl.closed (.inl (Nat.lt_succ_self _)), ihl fun b hb => hlimit b (by omega),
      ihr fun b hb => ?_⟩
    have hlevels := priorities_level b
    have hlevels' := priorities_level o
    rw [rightAssoc_iff] at ho
    unfold UNARY_LEVEL at hb
    omega
  | tighter _ ih => exact ih fun b hb => hlimit b (by omega)

/-! ### Trees that respect the priorities have a level -/

/-- The highest level of a tree. -/
def rootLevel : ParseTree α → ℕ
  | .operand _ => BinOp.pow.level + 1
  | .unary _ _ => UNARY_LEVEL
  | .binary b _ _ => b.op.level

/-- The root of a tree, by what its priority says about its edges. -/
theorem rootLevel_cases (t : ParseTree α) : rootLevel t = 13 ∨
    (rootLevel t = 11 ∧ ∀ p, t.Closed priorities p → p ≤ 12) ∨
    ∃ b : BinTok, rootLevel t = b.op.level ∧ (∀ p, t.Closed priorities p → p ≤ priorities.right b) ∧
      ∀ limit, t.Bound priorities limit → limit < priorities.left b := by
  cases t with
  | operand a => exact .inl rfl
  | unary u t => exact .inr (.inl ⟨rfl, fun _ h => h.1⟩)
  | binary b l r => exact .inr (.inr ⟨b, rfl, fun _ h => h.1, fun _ h => h.1⟩)

/-- The root of a left operand. -/
theorem le_rootLevel_of_closed {t : ParseTree α} {b : BinTok} (h : t.Closed priorities (priorities.left b)) :
    (if b.op.RightAssoc then b.op.level + 1 else b.op.level) ≤ rootLevel t := by
  have hlevels := priorities_level b
  simp only [rightAssoc_iff]
  obtain hroot | ⟨hroot, hc⟩ | ⟨o, hroot, hc, -⟩ := rootLevel_cases t
  · split_ifs <;> omega
  · have hle := hc _ h
    split_ifs <;> omega
  · have hle := hc _ h
    have hlevels' := priorities_level o
    split_ifs <;> omega

/-- The root of a right operand. -/
theorem le_rootLevel_of_bound {t : ParseTree α} {b : BinTok} (h : t.Bound priorities (priorities.right b)) :
    (if b.op.RightAssoc then min b.op.level UNARY_LEVEL else b.op.level + 1) ≤ rootLevel t := by
  have hlevels := priorities_level b
  simp only [rightAssoc_iff, UNARY_LEVEL]
  obtain hroot | ⟨hroot, -⟩ | ⟨o, hroot, -, hb⟩ := rootLevel_cases t
  · split_ifs <;> omega
  · split_ifs <;> omega
  · have hlt := hb _ h
    have hlevels' := priorities_level o
    split_ifs <;> omega

/-- The root of the operand of a prefix operator. -/
theorem le_rootLevel_of_unary {t : ParseTree α} (h : t.Bound priorities UNARY_PRIORITY) : UNARY_LEVEL ≤ rootLevel t := by
  unfold UNARY_LEVEL
  obtain hroot | ⟨hroot, -⟩ | ⟨o, hroot, -, hb⟩ := rootLevel_cases t
  · omega
  · omega
  · have hlt : 12 < priorities.left o := hb _ h
    have hlevels := priorities_level o
    omega

theorem derives_of_bound (t : ParseTree α) {limit : ℕ} (h : t.Bound priorities limit) : Derives (rootLevel t) t := by
  induction t generalizing limit with
  | operand a => exact .operand a
  | unary u t ih => exact .unary u ((ih h).mono (le_rootLevel_of_unary h))
  | binary b l r ihl ihr =>
    obtain ⟨-, hclosed, hl, hr⟩ := h
    have hle := le_rootLevel_of_closed hclosed
    have hle' := le_rootLevel_of_bound hr
    by_cases hright : b.op.RightAssoc
    · rw [if_pos hright] at hle hle'
      exact .right b hright ((ihl hl).mono hle) ((ihr hr).mono hle')
    · rw [if_neg hright] at hle hle'
      exact .left b hright ((ihl hl).mono hle) ((ihr hr).mono hle')

/-- The expressions of the grammar are the trees that respect the priorities. -/
theorem derives_iff_bound (t : ParseTree α) : Derives 1 t ↔ t.Bound priorities 0 := by
  constructor
  · intro h
    refine h.bound fun b hb => ?_
    have hlevels := priorities_level b
    omega
  · intro h
    refine (derives_of_bound t h).mono ?_
    obtain hroot | ⟨hroot, -⟩ | ⟨o, hroot, -⟩ := rootLevel_cases t
    · omega
    · omega
    · have hlevels := priorities_level o
      omega

/-! ### The order of the operators -/

open ParseTree

/-- The expression of a tree and its text determine the tree. -/
theorem eq_of_denote {t t' : ParseTree α} {rest rest' : List (Tok ⊕ α)} (hd : denote t = denote t')
    (hi : items t ++ rest = items t' ++ rest') : t = t' ∧ rest = rest' := by
  induction t generalizing t' rest rest' with
  | operand a =>
    cases t' with
    | operand a' =>
      obtain ⟨ha, hrest⟩ := List.cons.inj hi
      exact ⟨by rw [Sum.inr.inj ha], hrest⟩
    | unary u' t' => cases hd
    | binary b' l' r' => cases hd
  | unary u t ih =>
    cases t' with
    | operand a' => cases hd
    | unary u' t' =>
      obtain ⟨hu, hi⟩ := List.cons.inj hi
      obtain ⟨rfl, hrest⟩ := ih (Expr.unop.inj hd).2 hi
      exact ⟨by rw [Subtype.ext (Sum.inl.inj hu)], hrest⟩
    | binary b' l' r' => cases hd
  | binary b l r ihl ihr =>
    cases t' with
    | operand a' => cases hd
    | unary u' t' => cases hd
    | binary b' l' r' =>
      rw [items_binary, items_binary] at hi
      obtain ⟨-, hl, hr⟩ := Expr.binop.inj hd
      obtain ⟨rfl, htail⟩ := ihl hl hi
      obtain ⟨hb, htail⟩ := List.cons.inj htail
      obtain ⟨rfl, hrest⟩ := ihr hr htail
      exact ⟨by rw [Subtype.ext (Sum.inl.inj hb)], hrest⟩

/-- Two parses of one text with enough levels agree. -/
theorem bound_unique {t t' : ParseTree α} (h : t.Bound priorities 0) (h' : t'.Bound priorities 0)
    (hi : items t = items t') : t = t' := by
  have hstop : ∀ s : ParseTree α, Stops s [] := fun s hn => absurd rfl hn
  have hrun := ((climbs t).operand (max (depth t) (depth t') + 1) h (hstop t) (fun hn => absurd rfl hn) []).1
    (Nat.lt_succ_of_le (le_max_left ..))
  have hrun' := ((climbs t').operand (max (depth t) (depth t') + 1) h' (hstop t') (fun hn => absurd rfl hn) []).1
    (Nat.lt_succ_of_le (le_max_right ..))
  rw [hi, hrun'] at hrun
  have hden : denote t = denote t' := by
    injection hrun with hv
    exact (congrArg Prod.fst hv).symm
  exact (eq_of_denote hden (congrArg (· ++ []) hi)).1

/-- Every sequence of operands with prefix operators, joined by binary operators, has one tree in the grammar, and the
parser applies the operators in the order of this tree. Where the tree nests more deeply than the syntax levels allow,
the parser stops on the way. -/
theorem exprBinop_order {seq : List (Tok ⊕ α)}
    (h : Joined (fun b : BinTok => .inl b.1) (fun u : UnTok => .inl u.1) .inr seq) :
    ∃ t : ParseTree α, (items t = seq ∧ Derives 1 t) ∧ (∀ t' : ParseTree α, items t' = seq → Derives 1 t' → t' = t) ∧
      ∀ (level : ℕ) (rest : List (Tok ⊕ α)) (log : List (Emit α)), nextOp rest = .noBinOp →
        (level + depth t + 1 < LJ_MAX_XLEVEL →
          exprAt level ⟨seq ++ rest, log⟩ = .ok (denote t, .noBinOp) ⟨rest, log ++ emits t⟩) ∧
        (LJ_MAX_XLEVEL ≤ level + depth t + 1 → ∃ s done, exprAt level ⟨seq ++ rest, log⟩ = .error .syntaxLevels s ∧
          s.emitted = log ++ done ∧ done <+: emits t) := by
  have hpos : ∀ b : BinTok, 0 < priorities.left b := by
    intro b
    have hlevels := priorities_level b
    omega
  obtain ⟨t, rfl, hb⟩ := h.exists_tree hpos
  refine ⟨t, ⟨rfl, (derives_iff_bound t).mpr hb⟩, fun t' hi ht' => ?_, fun level rest log hrest => ?_⟩
  · exact bound_unique ((derives_iff_bound t').mp ht') hb hi
  have hnone : ∀ {p : Prop}, nextOp rest ≠ .noBinOp → p := fun hn => absurd hrest hn
  obtain ⟨hok, herr⟩ := (climbs t).operand (LJ_MAX_XLEVEL - 1 - level) hb hnone hnone log
  refine ⟨fun hd => ?_, fun hd => herr (by omega)⟩
  have hrun := hok (by omega)
  rw [hrest] at hrun
  exact hrun

/-- `-a ^ b .. c .. d` is `(-(a ^ b)) .. (c .. d)`. -/
theorem exprBinop_order_concat :
    exprAt 0 ⟨[.inl (.char 45), .inr 0, .inl (.char 94), .inr 1, .inl .concat, .inr 2, .inl .concat, .inr 3], []⟩ =
      .ok (.binop .concat (.unop .unm (.binop .pow (.simple 0) (.simple 1))) (.binop .concat (.simple 2) (.simple 3)),
        .noBinOp)
        ⟨[], [.simple 0, .binopLeft .pow, .simple 1, .binop .pow, .unop .unm, .binopLeft .concat, .simple 2,
          .binopLeft .concat, .simple 3, .binop .concat, .binop .concat]⟩ := by
  let cat : BinTok := ⟨.concat, by decide⟩
  let pow : BinTok := ⟨.char 94, by decide⟩
  let neg : UnTok := ⟨.char 45, by decide⟩
  let tree : ParseTree ℕ := .binary cat (.unary neg (.binary pow (.operand 0) (.operand 1)))
    (.binary cat (.operand 2) (.operand 3))
  have hseq : Joined (fun b : BinTok => .inl b.1) (fun u : UnTok => .inl u.1) Sum.inr
      [.inl (.char 45), .inr 0, .inl (.char 94), .inr 1, .inl .concat, .inr 2, .inl .concat, .inr 3] :=
    .join cat (.join cat (.join pow (.single (.unary neg (.operand 0))) (.operand 1)) (.operand 2)) (.operand 3)
  have hbound : tree.Bound priorities 0 :=
    ⟨by decide, ⟨by decide, by decide, trivial⟩, ⟨by decide, trivial, trivial, trivial⟩,
      ⟨by decide, trivial, trivial, trivial⟩⟩
  obtain ⟨t, -, hunique, hrun⟩ := exprBinop_order hseq
  obtain rfl := hunique tree rfl ((derives_iff_bound tree).mpr hbound)
  exact (hrun 0 [] [] rfl).1 (by decide)

end LuajitRs.Parse
