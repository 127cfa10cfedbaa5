import Mathlib
import LuajitRs.Compiler.Bc
import LuajitRs.Compiler.Lex.Scan
import LuajitRs.Lib.Precedence

/-! Precedence climbing in the parser. An operand stands for what `expr_simple` reads, and the code that an
operator emits for a record of its emission, so that the parser leaves the order in which it applies the operators
and the expression that they build. -/
namespace LuajitRs.Parse
open Bc Lib.Precedence

def LJ_MAX_XLEVEL : ℕ := 200

inductive BinOp
  | add | sub | mul | div | mod | pow
  | bAnd | bOr | bXor | bShl | bShr | bSar
  | concat
  | ne | eq | lt | ge | le | gt
  | and | or | coal
  | noBinOp
  deriving DecidableEq, Repr

/-- Left and right priorities, in the order of the operators. -/
def PRIORITY : List (ℕ × ℕ) :=
  [(10, 10), (10, 10), (11, 11), (11, 11), (11, 11), (14, 13), (6, 6), (4, 4), (5, 5), (7, 7), (7, 7), (7, 7), (9, 8),
    (3, 3), (3, 3), (3, 3), (3, 3), (3, 3), (3, 3), (2, 2), (1, 1), (1, 1)]

def BinOp.priority (op : BinOp) : ℕ × ℕ := PRIORITY.getD op.ctorIdx (0, 0)

def UNARY_PRIORITY : ℕ := 12

def token2binop : Tok → BinOp
  | .char c =>
    if c = 43 then .add
    else if c = 45 then .sub
    else if c = 42 then .mul
    else if c = 47 then .div
    else if c = 37 then .mod
    else if c = 94 then .pow
    else if c = 38 then .bAnd
    else if c = 124 then .bOr
    else if c = 126 then .bXor
    else if c = 60 then .lt
    else if c = 62 then .gt
    else .noBinOp
  | .shl => .bShl
  | .shr => .bShr
  | .sar => .bSar
  | .concat => .concat
  | .ne | .neBang => .ne
  | .eq => .eq
  | .le => .le
  | .ge => .ge
  | .and | .andAnd => .and
  | .or | .orOr => .or
  | .coal => .coal
  | _ => .noBinOp

/-- The prefix operators of `expr_unop`. -/
def token2unop : Tok → Option BCOp
  | .not => some .not
  | .char c =>
    if c = 33 then some .not
    else if c = 45 then some .unm
    else if c = 35 then some .len
    else if c = 126 then some .bnot
    else none
  | _ => none

/-- What an expression descriptor denotes. -/
inductive Expr (α : Type)
  | simple (a : α)
  | unop (op : BCOp) (e : Expr α)
  | binop (op : BinOp) (l r : Expr α)
  deriving DecidableEq

/-- The emissions of the parser: an operand, the left side of a binary operator, and the operators. -/
inductive Emit (α : Type)
  | simple (a : α)
  | binopLeft (op : BinOp)
  | binop (op : BinOp)
  | unop (op : BCOp)
  deriving DecidableEq

/-- The rest of the source, where an operand is one item, and the emissions so far. -/
structure ParseState (α : Type) where
  items : List (Tok ⊕ α)
  emitted : List (Emit α)

inductive ParseError
  | syntaxLevels
  | unexpectedSymbol
  | diverge
  deriving DecidableEq, Repr

/-- The parser stops at an error with the emissions up to it. -/
abbrev ParseM (α : Type) := EStateM ParseError (ParseState α)

section Parser
variable {α : Type}

namespace ParseState

/-- The current token; an operand is no operator. -/
def tok (s : ParseState α) : Tok :=
  match s.items with
  | .inl tok :: _ => tok
  | _ => .eof

def next (s : ParseState α) : ParseState α := { s with items := s.items.tail }

def emit (s : ParseState α) (e : Emit α) : ParseState α := { s with emitted := s.emitted ++ [e] }

end ParseState

def exprSimple : ParseM α (Expr α) := fun s =>
  match s.items with
  | .inr a :: _ => .ok (.simple a) (s.next.emit (.simple a))
  | _ => .error .unexpectedSymbol s

/-- `expr_unop`, with the recursive `expr_binop`. -/
def exprUnop (exprBinop : ℕ → ParseM α (Expr α × BinOp)) : ParseM α (Expr α) := do
  match token2unop (← get).tok with
  | none => exprSimple
  | some op =>
    modify .next
    let (v, _) ← exprBinop UNARY_PRIORITY
    modify (.emit · (.unop op))
    pure (.unop op v)

/-- The loop of `expr_binop`. -/
def binopLoop (exprBinop : ℕ → ParseM α (Expr α × BinOp)) (limit : ℕ) :
    ℕ → Expr α → BinOp → ParseM α (Expr α × BinOp)
  | 0, _, _ => throw .diverge
  | fuel+1, v, opr => do
    if opr ≠ .noBinOp ∧ limit < opr.priority.1 then
      modify .next
      modify (.emit · (.binopLeft opr))
      let (v2, nextop) ← exprBinop opr.priority.2
      modify (.emit · (.binop opr))
      binopLoop exprBinop limit fuel (.binop opr v v2) nextop
    else pure (v, opr)

/-- `expr_binop` when so many syntax levels are left; every turn of the loop takes a token. -/
def exprBinop : ℕ → ℕ → ParseM α (Expr α × BinOp)
  | 0, _ => throw .syntaxLevels
  | levels+1, limit => do
    let v ← exprUnop (exprBinop levels)
    let s ← get
    binopLoop (exprBinop levels) limit (s.items.length + 1) v (token2binop s.tok)

/-- The operators of an expression at a syntax level, as `expr` parses them. -/
def exprAt (level : ℕ) : ParseM α (Expr α × BinOp) := exprBinop (LJ_MAX_XLEVEL - 1 - level) 0

end Parser
end LuajitRs.Parse

/-! The parser on the text of a tree that respects its priorities: it builds the expression of the tree and emits
the operators of the tree in postorder, unless the tree nests too deeply, where it stops on the way. -/
namespace LuajitRs.Parse
open Bc Lib.Precedence

/-- Tokens of binary and of prefix operators. -/
abbrev BinTok := { tok : Tok // token2binop tok ≠ .noBinOp }
abbrev UnTok := { tok : Tok // (token2unop tok).isSome = true }

def BinTok.op (b : BinTok) : BinOp := token2binop b.1
def UnTok.op (u : UnTok) : BCOp := (token2unop u.1).get u.2

/-- The priorities of the parser. -/
def priorities : Priorities BinTok := ⟨fun b => b.op.priority.1, fun b => b.op.priority.2, UNARY_PRIORITY⟩

abbrev ParseTree (α : Type) := Tree BinTok UnTok α

variable {α : Type}

namespace ParseTree

/-- The items of a tree in the source. -/
def items (t : ParseTree α) : List (Tok ⊕ α) := t.flatten (fun b => .inl b.1) (fun u => .inl u.1) .inr

/-- The expression of a tree. -/
def denote : ParseTree α → Expr α
  | .operand a => .simple a
  | .unary u t => .unop u.op (denote t)
  | .binary b l r => .binop b.op (denote l) (denote r)

/-- The operators of a tree in the order of their application. -/
def emits : ParseTree α → List (Emit α)
  | .operand a => [.simple a]
  | .unary u t => emits t ++ [.unop u.op]
  | .binary b l r => emits l ++ .binopLeft b.op :: emits r ++ [.binop b.op]

/-- The syntax levels that the operands of a tree take. -/
def depth : ParseTree α → ℕ
  | .operand _ => 0
  | .unary _ t => depth t + 1
  | .binary _ l r => max (depth l) (depth r + 1)

theorem items_binary (b : BinTok) (l r : ParseTree α) (rest : List (Tok ⊕ α)) :
    items (.binary b l r) ++ rest = items l ++ (.inl b.1 :: (items r ++ rest)) := by
  rw [items, Tree.flatten, List.append_assoc]
  rfl

end ParseTree

/-! ### Runs of the parser -/

section Runs
variable {sub : ℕ → ParseM α (Expr α × BinOp)} {s s' : ParseState α} {limit fuel : ℕ} {v : Expr α} {opr : BinOp}

/-- The binary operator at the front of some items. -/
def nextOp (items : List (Tok ⊕ α)) : BinOp := token2binop (⟨items, []⟩ : ParseState α).tok

theorem exprBinop_succ (levels : ℕ) : exprBinop (levels + 1) limit s =
    match exprUnop (exprBinop levels) s with
    | .ok v s' => binopLoop (exprBinop levels) limit (s'.items.length + 1) v (nextOp s'.items) s'
    | .error e s' => .error e s' := by
  rw [exprBinop]
  change EStateM.bind _ _ _ = _
  rw [EStateM.bind]
  cases exprUnop (exprBinop levels) s <;> rfl

theorem exprUnop_prefix (u : UnTok) (rest : List (Tok ⊕ α)) (log : List (Emit α)) :
    exprUnop sub ⟨.inl u.1 :: rest, log⟩ = match sub UNARY_PRIORITY ⟨rest, log⟩ with
      | .ok p s' => .ok (.unop u.op p.1) (s'.emit (.unop u.op))
      | .error e s' => .error e s' := by
  have hop : token2unop u.1 = some u.op := (Option.some_get u.2).symm
  simp only [exprUnop, bind, EStateM.bind, get, getThe, MonadStateOf.get, EStateM.get, ParseState.tok, hop, modify,
    modifyGet, MonadStateOf.modifyGet, EStateM.modifyGet, ParseState.next, List.tail_cons]
  cases sub UNARY_PRIORITY ⟨rest, log⟩ <;> rfl

/-- The loop stops at an operator that it does not take. -/
theorem binopLoop_stop (h : opr ≠ .noBinOp → opr.priority.1 ≤ limit) :
    binopLoop sub limit (fuel + 1) v opr s = .ok (v, opr) s := by
  rw [binopLoop, if_neg fun hn => absurd (h hn.1) (Nat.not_le_of_lt hn.2)]
  rfl

theorem binopLoop_step (b : BinTok) (hlimit : limit < priorities.left b) (rest : List (Tok ⊕ α)) (log : List (Emit α)) :
    binopLoop sub limit (fuel + 1) v b.op ⟨.inl b.1 :: rest, log⟩ =
      match sub (priorities.right b) ⟨rest, log ++ [.binopLeft b.op]⟩ with
      | .ok p s' => binopLoop sub limit fuel (.binop b.op v p.1) p.2 (s'.emit (.binop b.op))
      | .error e s' => .error e s' := by
  have hright : priorities.right b = b.op.priority.2 := rfl
  rw [binopLoop, if_pos ⟨b.2, hlimit⟩, hright]
  simp only [bind, EStateM.bind, modify, modifyGet, MonadStateOf.modifyGet, EStateM.modifyGet, ParseState.next,
    ParseState.emit, List.tail_cons]
  cases sub b.op.priority.2 ⟨rest, log ++ [.binopLeft b.op]⟩ <;> rfl

end Runs
open ParseTree

/-- The operator after a tree is not taken by its operators at the right edge. -/
def Stops (t : ParseTree α) (rest : List (Tok ⊕ α)) : Prop :=
  nextOp rest ≠ .noBinOp → t.Closed priorities (nextOp rest).priority.1

/-- A run that emits the operators of a tree up to the first one that nests too deeply. -/
def Overflows (r : EStateM.Result ParseError (ParseState α) (Expr α × BinOp)) (log done : List (Emit α)) : Prop :=
  ∃ s p, r = .error .syntaxLevels s ∧ s.emitted = log ++ p ∧ p <+: done

variable {limit : ℕ}

/-- On the text of the tree the parser comes to the loop behind the tree, if the levels suffice. -/
def Climbs (t : ParseTree α) : Prop :=
  ∀ (limit levels : ℕ) (rest : List (Tok ⊕ α)) (log : List (Emit α)), t.Bound priorities limit → Stops t rest →
    (depth t ≤ levels → ∃ fuel, rest.length < fuel ∧ exprBinop (levels + 1) limit ⟨items t ++ rest, log⟩ =
      binopLoop (exprBinop levels) limit fuel (denote t) (nextOp rest) ⟨rest, log ++ emits t⟩) ∧
    (levels < depth t → Overflows (exprBinop (levels + 1) limit ⟨items t ++ rest, log⟩) log (emits t))

/-- A tree that no operator after it continues is an operand. -/
theorem Climbs.operand {t : ParseTree α} (h : Climbs t) {rest : List (Tok ⊕ α)} (levels : ℕ)
    (hb : t.Bound priorities limit) (hstop : Stops t rest)
    (hlimit : nextOp rest ≠ .noBinOp → (nextOp rest).priority.1 ≤ limit) (log : List (Emit α)) :
    (depth t < levels → exprBinop levels limit ⟨items t ++ rest, log⟩ =
      .ok (denote t, nextOp rest) ⟨rest, log ++ emits t⟩) ∧
    (levels ≤ depth t → Overflows (exprBinop levels limit ⟨items t ++ rest, log⟩) log (emits t)) := by
  cases levels with
  | zero =>
    refine ⟨fun hd => absurd hd (Nat.not_lt_zero _), fun _ => ?_⟩
    exact ⟨_, [], rfl, (List.append_nil _).symm, List.nil_prefix⟩
  | succ levels =>
    obtain ⟨hok, herr⟩ := h limit levels rest log hb hstop
    refine ⟨fun hd => ?_, herr⟩
    obtain ⟨fuel, hfuel, hrun⟩ := hok (Nat.le_of_lt_succ hd)
    obtain ⟨fuel, rfl⟩ : ∃ n, fuel = n + 1 := ⟨fuel - 1, by omega⟩
    rw [hrun, binopLoop_stop hlimit]

theorem climbs_unary (u : UnTok) {t : ParseTree α} (h : Climbs t) : Climbs (.unary u t) := by
  intro limit levels rest log hb hstop
  have hb' : t.Bound priorities UNARY_PRIORITY := hb
  have hitems : items (.unary u t) ++ rest = .inl u.1 :: (items t ++ rest) := rfl
  obtain ⟨hok, herr⟩ := h.operand levels hb' (fun h => (hstop h).2) (fun h => (hstop h).1) log
  rw [hitems, exprBinop_succ, exprUnop_prefix]
  constructor
  · intro hd
    rw [hok hd]
    refine ⟨_, Nat.lt_succ_self _, ?_⟩
    rw [emits, ← List.append_assoc]
    rfl
  · intro hd
    obtain ⟨s, p, hr, hs, hp⟩ := herr (Nat.le_of_lt_succ hd)
    rw [hr]
    exact ⟨s, p, rfl, hs, hp.trans (List.prefix_append ..)⟩

theorem climbs_binary (b : BinTok) {l r : ParseTree α} (hl : Climbs l) (hr : Climbs r) : Climbs (.binary b l r) := by
  intro limit levels rest log hb hstop
  obtain ⟨hlimit, hclosed, hbl, hbr⟩ := hb
  obtain ⟨hokl, herrl⟩ := hl limit levels (.inl b.1 :: (items r ++ rest)) log hbl fun _ => hclosed
  obtain ⟨hokr, herrr⟩ := hr.operand levels hbr (fun h => (hstop h).2) (fun h => (hstop h).1)
    (log ++ emits l ++ [.binopLeft b.op])
  rw [items_binary, emits, depth]
  constructor
  · intro hd
    obtain ⟨fuel, hfuel, hrun⟩ := hokl (le_of_max_le_left hd)
    obtain ⟨fuel, rfl⟩ : ∃ n, fuel = n + 1 := ⟨fuel - 1, by omega⟩
    refine ⟨fuel, ?_, ?_⟩
    · rw [List.length_cons, List.length_append] at hfuel
      omega
    · have hop : nextOp (.inl b.1 :: (items r ++ rest)) = b.op := rfl
      rw [hrun, hop, binopLoop_step b hlimit, hokr (le_of_max_le_right hd)]
      simp only [ParseState.emit, List.append_assoc, List.cons_append, List.nil_append]
      rfl
  · intro hd
    by_cases hdl : levels < depth l
    · obtain ⟨s, p, hr, hs, hp⟩ := herrl hdl
      rw [List.append_assoc]
      exact ⟨s, p, hr, hs, hp.trans (List.prefix_append ..)⟩
    · obtain ⟨fuel, hfuel, hrun⟩ := hokl (Nat.le_of_not_lt hdl)
      obtain ⟨fuel, rfl⟩ : ∃ n, fuel = n + 1 := ⟨fuel - 1, by omega⟩
      have hop : nextOp (.inl b.1 :: (items r ++ rest)) = b.op := rfl
      obtain ⟨s, p, hr, hs, hp⟩ := herrr (by omega)
      rw [hrun, hop, binopLoop_step b hlimit, hr]
      refine ⟨s, emits l ++ .binopLeft b.op :: p, rfl, by rw [hs]; simp, ?_⟩
      rw [List.append_assoc, List.prefix_append_right_inj, List.cons_append, List.cons_prefix_cons]
      exact ⟨rfl, hp.trans (List.prefix_append ..)⟩

/-- The parser follows every tree that respects the priorities. -/
theorem climbs (t : ParseTree α) : Climbs t := by
  induction t with
  | operand a =>
    intro limit levels rest log _ _
    exact ⟨fun _ => ⟨_, Nat.lt_succ_self _, rfl⟩, fun h => absurd h (Nat.not_lt_zero _)⟩
  | unary u t ih => exact climbs_unary u ih
  | binary b l r ihl ihr => exact climbs_binary b ihl ihr

end LuajitRs.Parse
