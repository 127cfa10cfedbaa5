import LuajitRs.Jit.Opt.Sink.Rewrite

/-! Dead code elimination. The instructions that snapshots name are marked, the marks are propagated
backwards to operands, and an instruction without a mark that has no side effect of its own becomes a NOP.
What the pass keeps is a least fixed point, `Trace.Live`. -/
namespace LuajitRs.Ir

/-- The upvalue-write helper. -/
def IRCALL_USET : ℕ := 10
/-- The foreign-function call. -/
def IRCALL_FFI : ℕ := 13

/-- The operations whose guard is dropped with an unused result. -/
def IROp.weak : IROp → Bool
  | addov | subov | mulov | urefo | urefc | tnew | tdup | cnew | cnewi | bufput | bufstr | calln | calla
  | calll => true
  | _ => false

namespace IRIns
variable (ins : IRIns)

/-- A store or any other op with a non-weak guard has a side-effect. -/
def sideeff : Bool := ins.op.kind = .s || (ins.isGuard && !ins.op.weak)

def isUset : Bool := ins.op = .calll && ins.op2 = IRCALL_USET

/-- The buffer operations change the shared buffer. -/
def isBufop : Bool := ins.op = .bufhdr || ins.op = .bufput || ins.op = .bufstr

/-- Kept even when nothing uses it. -/
def keeps : Bool := ins.sideeff || ins.isUset || ins.isBufop

end IRIns

namespace IrBuf
variable (buf : IrBuf)

/-- Mark an operand; literals and constants are below `REF_FIRST`. -/
def markRef (o : ℕ) : IrBuf := if REF_FIRST ≤ o then buf.modify o .setMark else buf

def markOperands (ir : IRIns) : IrBuf := (buf.markRef ir.op1).markRef ir.op2

/-- Reroute the chain of an opcode around an instruction; `pchain` is the instruction that links to it, 0
for the root of the chain. -/
def unlink (pchain : ℕ) (ir : IRIns) : IrBuf :=
  if pchain = 0 then { buf with chain := Function.update buf.chain ir.op ir.prev }
  else buf.modify pchain fun i => { i with prev := ir.prev }

/-- The backward pass over the first `k` instructions. -/
def dcePropagate : ℕ → IrBuf → (IROp → ℕ) → IrBuf
  | 0, buf, _ => buf
  | k+1, buf, pchain =>
    let r := REF_FIRST + k
    match buf.ir r with
    | none => buf
    | some ir =>
      if ir.isMarked then
        dcePropagate k ((buf.modify r .clearMark).markOperands ir) (Function.update pchain ir.op r)
      else if ir.keeps then dcePropagate k (buf.markOperands ir) pchain
      else dcePropagate k ((buf.unlink (pchain ir.op) ir).modify r .setNop) pchain

end IrBuf

namespace Trace
variable (tr : Trace)

/-- Mark all instructions referenced by snapshots. -/
def dceMarksnap : IrBuf := tr.snapmap.foldl (fun b e => b.markRef e.ref) tr.ir

/-- The backward pass over all instructions. -/
def dceIr : IrBuf := IrBuf.dcePropagate (tr.ir.nins - REF_FIRST) tr.dceMarksnap fun _ => 0

/-- `opt_dce`. -/
def optDce : Trace := { tr with ir := tr.dceIr }

/-- The instructions that a snapshot, a mark or a side effect needs, directly or through operands. -/
inductive Live : ℕ → Prop
  | snap {e : SnapEntry} (he : e ∈ tr.snapmap) : Live e.ref
  | marked {r : ℕ} {ins : IRIns} (hi : tr.ir.ir r = some ins) (hm : ins.isMarked = true) : Live r
  | kept {r : ℕ} {ins : IRIns} (hi : tr.ir.ir r = some ins) (hk : ins.keeps = true) : Live r
  | op1 {r : ℕ} {ins : IRIns} (hr : Live r) (hlo : REF_FIRST ≤ r) (hi : tr.ir.ir r = some ins) : Live ins.op1
  | op2 {r : ℕ} {ins : IRIns} (hr : Live r) (hlo : REF_FIRST ≤ r) (hi : tr.ir.ir r = some ins) : Live ins.op2

end Trace

/-! ### What one step of the pass does to the buffer -/

/-- Equal but for the mark and the chain. -/
abbrev Same (ins ins' : IRIns) : Prop := SameUpTo id ins ins'

theorem Same.refl (ins : IRIns) : Same ins ins := ⟨rfl, rfl, rfl, rfl, rfl⟩

theorem Same.trans {a b c : IRIns} (h : Same a b) (h' : Same b c) : Same a c :=
  ⟨h'.op.trans h.op, h'.ty.trans h.ty, h'.guard.trans h.guard, h'.op1.trans h.op1, h'.op2.trans h.op2⟩

theorem Same.keeps {ins ins' : IRIns} (h : Same ins ins') : ins'.keeps = ins.keeps := by
  have hop2 : ins'.op2 = ins.op2 := h.op2
  simp only [IRIns.keeps, IRIns.sideeff, IRIns.isUset, IRIns.isBufop, IRIns.isGuard, h.op, h.guard, hop2]

section Buffer
variable {tr : Trace} {buf : IrBuf} {n r q : ℕ} {ins ir : IRIns} {f : IRIns → IRIns}

theorem same_setMark (i : IRIns) : Same i i.setMark := ⟨rfl, rfl, rfl, rfl, rfl⟩
theorem same_clearMark (i : IRIns) : Same i i.clearMark := ⟨rfl, rfl, rfl, rfl, rfl⟩

theorem ir_markRef (o q : ℕ) :
    (buf.markRef o).ir q = (buf.ir q).map fun i => if REF_FIRST ≤ q ∧ q = o then i.setMark else i := by
  unfold IrBuf.markRef
  split
  next h =>
    rw [IrBuf.ir_modify _ _ _ _ ((Nat.le_succ _).trans h)]
    by_cases hq : q = o
    · subst hq
      simp only [h, and_self, if_true]
    · simp only [if_neg hq, if_neg fun h : REF_FIRST ≤ q ∧ q = o => hq h.2, Option.map_id']
  next h =>
    have hq : ¬(REF_FIRST ≤ q ∧ q = o) := by
      intro hq
      exact h (hq.2 ▸ hq.1)
    simp only [if_neg hq, Option.map_id']

/-- What the pass has settled from `n` on: live instructions are kept and the others are gone. -/
structure Decided (tr : Trace) (n : ℕ) (buf : IrBuf) : Prop where
  k : buf.k = tr.ir.k
  k64 : buf.k64 = tr.ir.k64
  len : buf.ins.length = tr.ir.ins.length
  loop : buf.chain .loop = tr.ir.chain .loop
  base : buf.ir REF_BIAS = tr.ir.ir REF_BIAS
  live : ∀ r ins, n ≤ r → tr.ir.ir r = some ins → tr.Live r → ∃ ins', buf.ir r = some ins' ∧ Same ins ins'
  dead : ∀ r ins', n ≤ r → ¬ tr.Live r → buf.ir r = some ins' → ins'.op = .nop

/-- A reason to mark the instruction at `r`, given by a snapshot or an instruction from `n` on. -/
def Trace.Wanted (tr : Trace) (n r : ℕ) (ins : IRIns) : Prop :=
  ins.isMarked = true ∨ (∃ e ∈ tr.snapmap, e.ref = r) ∨
    ∃ q i, n ≤ q ∧ tr.Live q ∧ tr.ir.ir q = some i ∧ (i.op1 = r ∨ i.op2 = r)

/-- The instructions before `n` carry the marks that they need. -/
def Pending (tr : Trace) (n : ℕ) (buf : IrBuf) : Prop :=
  ∀ r ins, REF_FIRST ≤ r → r < n → tr.ir.ir r = some ins →
    ∃ ins', buf.ir r = some ins' ∧ Same ins ins' ∧ (ins'.isMarked = true ↔ tr.Wanted n r ins)

theorem Decided.modify (h : Decided tr n buf) (hf : ∀ i, Same i (f i)) (hq : REF_FIRST ≤ q) :
    Decided tr n (buf.modify q f) := by
  have hb : REF_BIAS ≤ q := (Nat.le_succ _).trans hq
  refine ⟨?_, ?_, ?_, ?_, ?_, ?_, ?_⟩
  · rw [IrBuf.k_modify, h.k]
  · rw [IrBuf.k64_modify, h.k64]
  · rw [IrBuf.ins_modify, List.length_modify, h.len]
  · rw [IrBuf.chain_modify, h.loop]
  · rw [IrBuf.ir_modify _ _ _ _ hb, if_neg (Nat.ne_of_lt (Nat.lt_of_succ_le hq)), h.base]
  · intro r ins hr hi hl
    obtain ⟨ins', hi', hs⟩ := h.live r ins hr hi hl
    rw [IrBuf.ir_modify _ _ _ _ hb, hi']
    split
    · exact ⟨f ins', rfl, hs.trans (hf ins')⟩
    · exact ⟨ins', rfl, hs⟩
  · intro r ins' hr hl hi
    rw [IrBuf.ir_modify _ _ _ _ hb] at hi
    split at hi
    · rw [Option.map_eq_some_iff] at hi
      obtain ⟨i, hi, rfl⟩ := hi
      rw [(hf i).op]
      exact h.dead r i hr hl hi
    · exact h.dead r ins' hr hl hi

/-- What the pass does to an instruction that is not settled yet. -/
theorem Decided.modify_lt (h : Decided tr n buf) (hq : REF_FIRST ≤ q) (hn : q < n) (f : IRIns → IRIns) :
    Decided tr n (buf.modify q f) := by
  have hb : REF_BIAS ≤ q := (Nat.le_succ _).trans hq
  have hne : ∀ r, n ≤ r → (buf.modify q f).ir r = buf.ir r := by
    intro r hr
    rw [IrBuf.ir_modify _ _ _ _ hb, if_neg (by omega)]
  refine ⟨?_, ?_, ?_, ?_, ?_, ?_, ?_⟩
  · rw [IrBuf.k_modify, h.k]
  · rw [IrBuf.k64_modify, h.k64]
  · rw [IrBuf.ins_modify, List.length_modify, h.len]
  · rw [IrBuf.chain_modify, h.loop]
  · rw [IrBuf.ir_modify _ _ _ _ hb, if_neg (Nat.ne_of_lt (Nat.lt_of_succ_le hq)), h.base]
  · intro r ins hr hi hl
    rw [hne r hr]
    exact h.live r ins hr hi hl
  · intro r ins' hr hl hi
    rw [hne r hr] at hi
    exact h.dead r ins' hr hl hi

theorem Decided.markRef (h : Decided tr n buf) (o : ℕ) : Decided tr n (buf.markRef o) := by
  unfold IrBuf.markRef
  split
  next ho => exact h.modify same_setMark ho
  next => exact h

theorem Decided.markOperands (h : Decided tr n buf) (ir : IRIns) : Decided tr n (buf.markOperands ir) :=
  (h.markRef ir.op1).markRef ir.op2

theorem Decided.unlink (h : Decided tr n buf) (hloop : ir.op ≠ .loop) {p : ℕ} (hp : p = 0 ∨ REF_FIRST ≤ p) :
    Decided tr n (buf.unlink p ir) := by
  unfold IrBuf.unlink
  split
  · exact ⟨h.k, h.k64, h.len, (Function.update_of_ne hloop.symm _ _).trans h.loop, h.base, h.live, h.dead⟩
  next h0 => exact h.modify (fun _ => ⟨rfl, rfl, rfl, rfl, rfl⟩) (hp.resolve_left h0)

theorem ir_unlink (buf : IrBuf) (ir : IRIns) {p : ℕ} (hp : p = 0 ∨ REF_FIRST ≤ p) (q : ℕ) :
    ∃ f : IRIns → IRIns, (∀ i, Same i (f i) ∧ (f i).isMarked = i.isMarked) ∧
      (buf.unlink p ir).ir q = (buf.ir q).map f := by
  unfold IrBuf.unlink
  split
  · exact ⟨id, fun i => ⟨.refl i, rfl⟩, by simp [IrBuf.ir]⟩
  next h0 =>
    have hb : REF_BIAS ≤ p := (Nat.le_succ _).trans (hp.resolve_left h0)
    rw [IrBuf.ir_modify _ _ _ _ hb]
    split
    · exact ⟨fun i => { i with prev := ir.prev }, fun i => ⟨⟨rfl, rfl, rfl, rfl, rfl⟩, rfl⟩, rfl⟩
    · exact ⟨id, fun i => ⟨.refl i, rfl⟩, by simp⟩

/-- One more instruction is settled. -/
theorem Decided.settle (h : Decided tr (n + 1) buf) (hi : tr.ir.ir n = some ins)
    (hb : ∃ ins', buf.ir n = some ins' ∧ (tr.Live n → Same ins ins') ∧ (¬ tr.Live n → ins'.op = .nop)) :
    Decided tr n buf := by
  obtain ⟨ins', hi', hlive, hdead⟩ := hb
  refine ⟨h.k, h.k64, h.len, h.loop, h.base, ?_, ?_⟩
  · intro r i hr hri hl
    by_cases hrn : r = n
    · subst hrn
      rw [hi] at hri
      cases hri
      exact ⟨ins', hi', hlive hl⟩
    · exact h.live r i (by omega) hri hl
  · intro r i hr hl hri
    by_cases hrn : r = n
    · subst hrn
      rw [hi'] at hri
      cases hri
      exact hdead hl
    · exact h.dead r i (by omega) hl hri

end Buffer

/-! ### The pass -/

section Pass
variable {tr : Trace} {buf : IrBuf} {n r : ℕ} {ins ins' : IRIns}

/-- The marks that the operands of a live instruction add. -/
theorem Trace.wanted_live (hl : tr.Live n) (hi : tr.ir.ir n = some ins) (i : IRIns) :
    tr.Wanted n r i ↔ tr.Wanted (n + 1) r i ∨ r = ins.op1 ∨ r = ins.op2 := by
  unfold Trace.Wanted
  constructor
  · intro h
    obtain h | h | ⟨q, j, hq, hlq, hj, hop⟩ := h
    · exact .inl (.inl h)
    · exact .inl (.inr (.inl h))
    · by_cases hqn : q = n
      · subst hqn
        rw [hi] at hj
        cases hj
        exact .inr (hop.imp Eq.symm Eq.symm)
      · exact .inl (.inr (.inr ⟨q, j, by omega, hlq, hj, hop⟩))
  · intro h
    obtain (h | h | ⟨q, j, hq, hlq, hj, hop⟩) | h := h
    · exact .inl h
    · exact .inr (.inl h)
    · exact .inr (.inr ⟨q, j, by omega, hlq, hj, hop⟩)
    · exact .inr (.inr ⟨n, ins, le_rfl, hl, hi, h.imp Eq.symm Eq.symm⟩)

theorem Trace.wanted_dead (hl : ¬ tr.Live n) (i : IRIns) : tr.Wanted n r i ↔ tr.Wanted (n + 1) r i := by
  unfold Trace.Wanted
  constructor
  · intro h
    obtain h | h | ⟨q, j, hq, hlq, hj, hop⟩ := h
    · exact .inl h
    · exact .inr (.inl h)
    · have hqn : q ≠ n := by
        rintro rfl
        exact hl hlq
      exact .inr (.inr ⟨q, j, by omega, hlq, hj, hop⟩)
  · intro h
    obtain h | h | ⟨q, j, hq, hlq, hj, hop⟩ := h
    · exact .inl h
    · exact .inr (.inl h)
    · exact .inr (.inr ⟨q, j, by omega, hlq, hj, hop⟩)

/-- When the pass comes to an instruction, the mark and the side effects decide whether it is live: all
its users have been passed. -/
theorem Trace.live_iff (hssa : tr.ir.SSA) (hlo : REF_FIRST ≤ n) (hi : tr.ir.ir n = some ins) :
    tr.Live n ↔ tr.Wanted (n + 1) n ins ∨ ins.keeps = true := by
  constructor
  · intro h
    have key : ∀ {r}, tr.Live r → r = n → tr.Wanted (n + 1) n ins ∨ ins.keeps = true := by
      intro r h
      cases h with
      | snap he => exact fun hr => .inl (.inr (.inl ⟨_, he, hr⟩))
      | marked hj hm =>
        rintro rfl
        rw [hi] at hj
        cases hj
        exact .inl (.inl hm)
      | kept hj hk =>
        rintro rfl
        rw [hi] at hj
        cases hj
        exact .inr hk
      | @op1 q j hq hqlo hj =>
        intro hr
        have hlt := (ssa_ir hssa ((Nat.le_succ _).trans hqlo) hj).1
        exact .inl (.inr (.inr ⟨q, j, by omega, hq, hj, .inl hr⟩))
      | @op2 q j hq hqlo hj =>
        intro hr
        have hlt := (ssa_ir hssa ((Nat.le_succ _).trans hqlo) hj).2
        exact .inl (.inr (.inr ⟨q, j, by omega, hq, hj, .inr hr⟩))
    exact key h rfl
  · intro h
    obtain (h | ⟨e, he, hr⟩ | ⟨q, j, hq, hlq, hj, hop⟩) | h := h
    · exact .marked hi h
    · exact hr ▸ .snap he
    · have hqlo : REF_FIRST ≤ q := by omega
      obtain hop | hop := hop
      · exact hop ▸ .op1 hlq hqlo hj
      · exact hop ▸ .op2 hlq hqlo hj
    · exact .kept hi h

theorem ir_markOperands (buf : IrBuf) (ir : IRIns) (q : ℕ) (hq : REF_FIRST ≤ q) :
    ∃ f : IRIns → IRIns, (∀ i, Same i (f i) ∧ ((f i).isMarked = true ↔ i.isMarked = true ∨ q = ir.op1 ∨ q = ir.op2)) ∧
      (buf.markOperands ir).ir q = (buf.ir q).map f := by
  rw [IrBuf.markOperands, ir_markRef, ir_markRef, Option.map_map]
  refine ⟨_, fun i => ?_, rfl⟩
  simp only [Function.comp, hq, true_and]
  by_cases h1 : q = ir.op1
  · by_cases h2 : q = ir.op2
    · rw [if_pos h1, if_pos h2]
      exact ⟨⟨rfl, rfl, rfl, rfl, rfl⟩, by simp [IRIns.isMarked, IRIns.setMark, h1]⟩
    · rw [if_pos h1, if_neg h2]
      exact ⟨⟨rfl, rfl, rfl, rfl, rfl⟩, by simp [IRIns.isMarked, IRIns.setMark, h1]⟩
  · by_cases h2 : q = ir.op2
    · rw [if_neg h1, if_pos h2]
      exact ⟨⟨rfl, rfl, rfl, rfl, rfl⟩, by simp [IRIns.isMarked, IRIns.setMark, h2]⟩
    · rw [if_neg h1, if_neg h2]
      exact ⟨.refl i, by simp [h1, h2]⟩

/-- A live instruction hands its marks on. -/
theorem Pending.live (hp : Pending tr (n + 1) buf) {b : IrBuf} (hb : ∀ q, q ≠ n → b.ir q = buf.ir q)
    (hl : tr.Live n) (hi : tr.ir.ir n = some ins) (hs : Same ins ins') : Pending tr n (b.markOperands ins') := by
  intro r i hlo hr hri
  obtain ⟨i', hi', hsame, hmark⟩ := hp r i hlo (Nat.lt_succ_of_lt hr) hri
  obtain ⟨f, hf, hir⟩ := ir_markOperands b ins' r hlo
  refine ⟨f i', by rw [hir, hb r (Nat.ne_of_lt hr), hi']; rfl, hsame.trans (hf i').1, ?_⟩
  have hop1 : ins'.op1 = ins.op1 := hs.op1
  have hop2 : ins'.op2 = ins.op2 := hs.op2
  rw [(hf i').2, hmark, Trace.wanted_live hl hi, hop1, hop2]

/-- An instruction that is removed does not. -/
theorem Pending.dead (hp : Pending tr (n + 1) buf) {b : IrBuf} (hl : ¬ tr.Live n)
    (hb : ∀ q, q ≠ n → ∃ f : IRIns → IRIns, (∀ i, Same i (f i) ∧ (f i).isMarked = i.isMarked) ∧
      b.ir q = (buf.ir q).map f) : Pending tr n b := by
  intro r i hlo hr hri
  obtain ⟨i', hi', hsame, hmark⟩ := hp r i hlo (Nat.lt_succ_of_lt hr) hri
  obtain ⟨f, hf, hir⟩ := hb r (Nat.ne_of_lt hr)
  refine ⟨f i', by rw [hir, hi']; rfl, hsame.trans (hf i').1, ?_⟩
  rw [(hf i').2, hmark, Trace.wanted_dead hl]

/-- The state of the pass when everything from `n` on is settled. -/
structure Passed (tr : Trace) (n : ℕ) (buf : IrBuf) (pchain : IROp → ℕ) : Prop where
  decided : Decided tr n buf
  pending : Pending tr n buf
  pchain : ∀ op, pchain op = 0 ∨ REF_FIRST ≤ pchain op

section Step
variable {pchain : IROp → ℕ}

/-- The mark and the side effects of the instruction that the pass has come to. -/
theorem Passed.current (h : Passed tr (n + 1) buf pchain) (hssa : tr.ir.SSA) (hlo : REF_FIRST ≤ n)
    (hlt : n < tr.ir.nins) :
    ∃ ins ins', tr.ir.ir n = some ins ∧ buf.ir n = some ins' ∧ Same ins ins' ∧
      (ins'.isMarked = true ↔ tr.Wanted (n + 1) n ins) ∧ (tr.Live n ↔ ins'.isMarked = true ∨ ins'.keeps = true) := by
  have hb : REF_BIAS ≤ n := (Nat.le_succ _).trans hlo
  obtain ⟨ins, hi⟩ : ∃ ins, tr.ir.ir n = some ins := by
    rw [IrBuf.ir, if_pos hb]
    have : n - REF_BIAS < tr.ir.ins.length := by
      rw [IrBuf.nins] at hlt
      omega
    exact ⟨_, List.getElem?_eq_getElem this⟩
  obtain ⟨ins', hi', hsame, hmark⟩ := h.pending n ins hlo (Nat.lt_succ_self _) hi
  refine ⟨ins, ins', hi, hi', hsame, hmark, ?_⟩
  rw [tr.live_iff hssa hlo hi, hmark, hsame.keeps]

variable (h : Passed tr (n + 1) buf pchain) (hlo : REF_FIRST ≤ n) (hi : tr.ir.ir n = some ins)
  (hi' : buf.ir n = some ins') (hs : Same ins ins')
include h hlo hi hi' hs

theorem Passed.marked (hl : tr.Live n) :
    Passed tr n ((buf.modify n .clearMark).markOperands ins') (Function.update pchain ins'.op n) := by
  have hb : REF_BIAS ≤ n := (Nat.le_succ _).trans hlo
  have hclear : ∀ q, q ≠ n → (buf.modify n .clearMark).ir q = buf.ir q := by
    intro q hq
    rw [IrBuf.ir_modify _ _ _ _ hb, if_neg hq]
  refine ⟨((h.decided.modify same_clearMark hlo).markOperands ins').settle hi ?_, h.pending.live hclear hl hi hs, ?_⟩
  · obtain ⟨f, hf, hir⟩ := ir_markOperands (buf.modify n .clearMark) ins' n hlo
    rw [IrBuf.ir_modify _ _ _ _ hb, if_pos rfl, hi'] at hir
    exact ⟨_, hir, fun _ => (hs.trans (same_clearMark ins')).trans (hf _).1, fun h => absurd hl h⟩
  · intro op
    by_cases hop : op = ins'.op
    · subst hop
      rw [Function.update_self]
      exact .inr hlo
    · rw [Function.update_of_ne hop]
      exact h.pchain op

theorem Passed.kept (hl : tr.Live n) : Passed tr n (buf.markOperands ins') pchain := by
  refine ⟨(h.decided.markOperands ins').settle hi ?_, h.pending.live (fun _ _ => rfl) hl hi hs, h.pchain⟩
  obtain ⟨f, hf, hir⟩ := ir_markOperands buf ins' n hlo
  rw [hi'] at hir
  exact ⟨_, hir, fun _ => hs.trans (hf _).1, fun h => absurd hl h⟩

omit hs in
theorem Passed.dead (hl : ¬ tr.Live n) (hk : ¬ ins'.keeps = true) :
    Passed tr n ((buf.unlink (pchain ins'.op) ins').modify n .setNop) pchain := by
  have hb : REF_BIAS ≤ n := (Nat.le_succ _).trans hlo
  have hloop : ins'.op ≠ .loop := by
    intro hop
    simp [IRIns.keeps, IRIns.sideeff, hop, IROp.kind] at hk
  have hun := (h.decided.unlink hloop (h.pchain ins'.op)).modify_lt hlo (Nat.lt_succ_self n) .setNop
  refine ⟨hun.settle hi ?_, h.pending.dead hl ?_, h.pchain⟩
  · obtain ⟨g, -, hgir⟩ := ir_unlink buf ins' (h.pchain ins'.op) n
    rw [IrBuf.ir_modify _ _ _ _ hb, if_pos rfl, hgir, hi']
    exact ⟨_, rfl, fun h => absurd h hl, fun _ => rfl⟩
  · intro q hq
    obtain ⟨g, hg, hgir⟩ := ir_unlink buf ins' (h.pchain ins'.op) q
    exact ⟨g, hg, by rw [IrBuf.ir_modify _ _ _ _ hb, if_neg hq, hgir]⟩

end Step

/-- The pass keeps the live instructions and removes the others. -/
theorem dcePropagate_spec (hssa : tr.ir.SSA) (k : ℕ) (buf : IrBuf) (pchain : IROp → ℕ)
    (hlen : REF_FIRST + k ≤ tr.ir.nins) (h : Passed tr (REF_FIRST + k) buf pchain) :
    Decided tr REF_FIRST (buf.dcePropagate k pchain) := by
  induction k generalizing buf pchain with
  | zero => exact h.decided
  | succ k ih =>
    have hlo : REF_FIRST ≤ REF_FIRST + k := Nat.le_add_right _ _
    have hlt : REF_FIRST + k < tr.ir.nins := hlen
    change Passed tr (REF_FIRST + k + 1) buf pchain at h
    obtain ⟨ins, ins', hi, hi', hs, -, hlive⟩ := h.current hssa hlo hlt
    rw [IrBuf.dcePropagate]
    simp only [hi']
    split
    next hm => exact ih _ _ hlt.le (h.marked hlo hi hi' hs (hlive.mpr (.inl hm)))
    next hm =>
      split
      next hk => exact ih _ _ hlt.le (h.kept hlo hi hi' hs (hlive.mpr (.inr hk)))
      next hk => exact ih _ _ hlt.le (h.dead hlo hi hi' (fun hl => not_or.mpr ⟨hm, hk⟩ (hlive.mp hl)) hk)

theorem foldl_markRef (es : List SnapEntry) (buf : IrBuf) (q : ℕ) (hq : REF_FIRST ≤ q) :
    (es.foldl (fun b e => b.markRef e.ref) buf).ir q =
      (buf.ir q).map fun i => if ∃ e ∈ es, e.ref = q then i.setMark else i := by
  induction es generalizing buf with
  | nil => simp
  | cons e es ih =>
    rw [List.foldl_cons, ih, ir_markRef, Option.map_map]
    congr 1
    funext i
    simp only [Function.comp, hq, true_and, List.mem_cons, exists_eq_or_imp]
    by_cases he : q = e.ref
    · by_cases hes : ∃ e ∈ es, e.ref = q
      · rw [if_pos he, if_pos hes, if_pos (.inl he.symm)]
        rfl
      · rw [if_pos he, if_neg hes, if_pos (.inl he.symm)]
    · rw [if_neg he]
      simp only [Ne.symm he, false_or]

/-- Behind the last instruction nothing is settled yet. -/
theorem Decided.start : Decided tr tr.ir.nins tr.ir := by
  refine ⟨rfl, rfl, rfl, rfl, rfl, fun r ins _ hi _ => ⟨ins, hi, .refl ins⟩, fun r ins' hr _ hi => ?_⟩
  have hb : REF_BIAS ≤ r := by
    rw [IrBuf.nins] at hr
    omega
  exact absurd (lt_nins hb hi) (Nat.not_lt.mpr hr)

theorem Decided.mono (h : Decided tr n buf) {n' : ℕ} (hn : n ≤ n') : Decided tr n' buf :=
  ⟨h.k, h.k64, h.len, h.loop, h.base, fun r ins hr => h.live r ins (hn.trans hr),
    fun r ins' hr => h.dead r ins' (hn.trans hr)⟩

theorem pending_start : Pending tr tr.ir.nins tr.dceMarksnap := by
  intro r ins hlo hr hi
  refine ⟨_, by rw [Trace.dceMarksnap, foldl_markRef _ _ _ hlo, hi]; rfl, ?_, ?_⟩
  · split
    · exact same_setMark ins
    · exact .refl ins
  · have hnone : ¬∃ q i, tr.ir.nins ≤ q ∧ tr.Live q ∧ tr.ir.ir q = some i ∧ (i.op1 = r ∨ i.op2 = r) := by
      intro h
      obtain ⟨q, i, hq, -, hi, -⟩ := h
      have hb : REF_BIAS ≤ q := by
        rw [IrBuf.nins] at hq
        omega
      exact absurd (lt_nins hb hi) (Nat.not_lt.mpr hq)
    simp only [Trace.Wanted, hnone, or_false]
    split
    next h => simp [IRIns.isMarked, IRIns.setMark, h]
    next h => simp [h]

theorem Passed.start : Passed tr tr.ir.nins tr.dceMarksnap fun _ => 0 := by
  have hmarks : ∀ (es : List SnapEntry) (b : IrBuf), Decided tr tr.ir.nins b →
      Decided tr tr.ir.nins (es.foldl (fun b e => b.markRef e.ref) b) := by
    intro es
    induction es with
    | nil => exact fun b h => h
    | cons e es ih => exact fun b h => ih _ (h.markRef e.ref)
  exact ⟨hmarks tr.snapmap tr.ir .start, pending_start, fun _ => .inl rfl⟩

/-- What `opt_dce` leaves of a trace in SSA form. -/
theorem optDce_spec (hssa : tr.ir.SSA) : Decided tr REF_FIRST tr.dceIr := by
  rw [Trace.dceIr]
  by_cases hlen : REF_FIRST ≤ tr.ir.nins
  · have hk : REF_FIRST + (tr.ir.nins - REF_FIRST) = tr.ir.nins := by omega
    refine dcePropagate_spec hssa (tr.ir.nins - REF_FIRST) tr.dceMarksnap (fun _ => 0) hk.le ?_
    rw [hk]
    exact .start
  · have hk : tr.ir.nins - REF_FIRST = 0 := by omega
    simp only [hk, IrBuf.dcePropagate]
    exact Passed.start.decided.mono (Nat.le_of_not_le hlen)

end Pass
end LuajitRs.Ir
