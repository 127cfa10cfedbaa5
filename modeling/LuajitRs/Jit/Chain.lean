import LuajitRs.Jit.Record.Emit
import LuajitRs.Lib.Backlink

/-! The chains of the IR buffer. Instructions of one opcode are linked from the newest down, and so are the
constants of one kind. Emitting and interning push onto a chain, a rollback unwinds the chains by the opcodes of
the instructions that it takes back. -/
namespace LuajitRs.Ir
open Lib.Backlink

/-- The reference above all instructions. -/
abbrev REF_DROP : ℕ := 0xffff

/-- The opcodes whose chains list instructions that are there. -/
def IROp.Chains (op : IROp) : Prop := op ≠ .nop ∧ op.isConst = false

/-- A constant of one of the kinds that are interned. -/
inductive Interned
  | int (kv : BitVec 32)
  | num (x : F64)
  | int64 (u : UInt64)
  | gc (v : LuaValue) (t : IRTy)

namespace Interned

def op : Interned → IROp
  | int _ => .kint
  | num _ => .knum
  | int64 _ => .kint64
  | gc _ _ => .kgc

/-- The word by which a constant is found. -/
def word : Interned → BitVec 32 ⊕ LuaValue
  | int kv => .inl kv
  | num x => .inr (.num x)
  | int64 u => .inr (.num ⟨u⟩)
  | gc v _ => .inr v

def payload : Interned → LuaValue
  | int _ => .num .zero
  | num x => .num x
  | int64 u => .num ⟨u⟩
  | gc v _ => v

/-- The instruction that is pushed for the constant. -/
def toIns : Interned → IRIns
  | int kv => (IRIns.new .kint (plain .int) 0 0).setI kv
  | num _ => .new .knum (plain .num) 0 0
  | int64 _ => .new .kint64 (plain .i64) 0 0
  | gc _ t => .new .kgc (plain t) 0 0

theorem op_toIns (c : Interned) : c.toIns.op = c.op := by cases c <;> rfl

end Interned

theorem getElem?_append_of_ne {α : Type*} {xs : List α} {x : α} {n : ℕ} (h : n ≠ xs.length) :
    (xs ++ [x])[n]? = xs[n]? := by
  rcases Nat.lt_or_gt_of_ne h with hlt | hgt
  · exact List.getElem?_append_left hlt
  · have hlen : (xs ++ [x]).length ≤ n := by
      rw [List.length_append]
      exact hgt
    rw [List.getElem?_eq_none hlen, List.getElem?_eq_none hgt.le]

namespace IrBuf
variable (b : IrBuf)

/-- Intern a constant. -/
def constant : Interned → IrBuf × ℕ
  | .int kv => b.kint kv
  | .num x => b.knum x
  | .int64 u => b.kint64 u
  | .gc v t => b.kgc v t

/-- The kind and the word of the constant at a reference. -/
def constAt (r : ℕ) : Option (IROp × (BitVec 32 ⊕ LuaValue)) := do
  let ins ← if REF_BIAS ≤ r then none else b.ir r
  match ins.op with
  | .kint => some (.kint, .inl ins.i)
  | .knum | .kint64 | .kgc => (b.k64Val r).map fun v => (ins.op, .inr v)
  | _ => none

/-- Take the last instruction back and unlink it. -/
def pop : Option IrBuf :=
  b.ins.getLast?.map fun ins =>
    { b with ins := b.ins.dropLast, chain := Function.update b.chain ins.op ins.prev }

def popN : ℕ → IrBuf → Option IrBuf
  | 0, b => some b
  | n+1, b => b.pop.bind (popN n)

/-- Undo all instructions emitted at or above `r`. -/
def rollback (r : ℕ) : Option IrBuf := popN (b.nins - r) b

/-- An instruction of the opcode is at `r`. -/
def LiveOf (op : IROp) (r : ℕ) : Prop := REF_FIRST ≤ r ∧ ∃ ins, b.ir r = some ins ∧ ins.op = op

/-- Following the links from `r` gives the list. -/
def Lists (r : ℕ) (l : List ℕ) : Prop := Walk (fun r => (b.ir r).map (·.prev)) 0 r l

/-! ### The chains as threads through the instructions and the constants -/

def insRef : Option ℕ → ℕ
  | none => 0
  | some i => REF_BIAS + i

def kRef : Option ℕ → ℕ
  | none => 0
  | some i => REF_BIAS - 1 - i

/-- The base instruction is in no chain. -/
def isOp (op : IROp) (i : ℕ) : Bool := i != 0 && (b.ins[i]?).any (·.op = op)
def isKop (op : IROp) (i : ℕ) : Bool := (b.k[i]?).any (·.op = op)
def insPrev (i : ℕ) : ℕ := (b.ins[i]?).elim 0 (·.prev)
def kPrev (i : ℕ) : ℕ := (b.k[i]?).elim 0 (·.prev)

/-- What the operations on the buffer keep. -/
structure Chained : Prop where
  base : b.ins ≠ []
  ops : ∀ ins ∈ b.ins, ins.op.isConst = false
  payload : b.k64.length = b.k.length
  room : b.k.length < REF_BIAS
  distinct : ∀ (c : Interned) r r', b.constAt r = some (c.op, c.word) → b.constAt r' = some (c.op, c.word) → r = r'
  threads : ∀ op, op.Chains → Threaded insRef (b.isOp op) b.insPrev b.ins.length (b.chain op)
  constants : ∀ c : Interned, Threaded kRef (b.isKop c.op) b.kPrev b.k.length (b.chain c.op)

section Read
variable {b} {op : IROp} {r i : ℕ} {ins : IRIns} {l : List ℕ}

theorem ir_insRef (i : ℕ) : b.ir (insRef (some i)) = b.ins[i]? := by
  rw [insRef, ir, if_pos (Nat.le_add_right _ _), Nat.add_sub_cancel_left]

theorem ir_kRef (hi : i < REF_BIAS) : b.ir (kRef (some i)) = b.k[i]? := by
  have hlt : ¬ REF_BIAS ≤ REF_BIAS - 1 - i := by omega
  rw [kRef, ir, if_neg hlt, Nat.sub_sub_self (by omega)]

theorem isOp_iff : b.isOp op i = true ↔ b.LiveOf op (insRef (some i)) := by
  rw [LiveOf, ir_insRef, isOp, Bool.and_eq_true, bne_iff_ne, Option.any_eq_true, insRef]
  refine and_congr ?_ (exists_congr fun ins => and_congr_right fun _ => ?_)
  · simp only [REF_FIRST, REF_BIAS]
    omega
  · rw [decide_eq_true_eq]

theorem lt_length_of_isOp (h : b.isOp op i = true) : i < b.ins.length := by
  rw [isOp, Bool.and_eq_true, Option.any_eq_true] at h
  obtain ⟨-, ins, hi, -⟩ := h
  exact (List.getElem?_eq_some_iff.mp hi).1

/-- The instructions of an opcode, from the newest down. -/
def refsOf (b : IrBuf) (op : IROp) : List ℕ := (places (b.isOp op) b.ins.length).map fun i => insRef (some i)

theorem mem_refsOf : r ∈ b.refsOf op ↔ b.LiveOf op r := by
  rw [refsOf, List.mem_map]
  constructor
  · intro h
    obtain ⟨i, hi, rfl⟩ := h
    exact isOp_iff.mp (mem_places.mp hi).2
  · intro h
    have hr : insRef (some (r - REF_BIAS)) = r :=
      Nat.add_sub_cancel' ((Nat.le_succ _).trans h.1)
    have hop : b.isOp op (r - REF_BIAS) = true := isOp_iff.mpr (hr.symm ▸ h)
    exact ⟨r - REF_BIAS, mem_places.mpr ⟨lt_length_of_isOp hop, hop⟩, hr⟩

theorem pairwise_refsOf (b : IrBuf) (op : IROp) : (b.refsOf op).Pairwise (· > ·) := by
  rw [refsOf, List.pairwise_map]
  refine (pairwise_places _ _).imp fun h => ?_
  simp only [insRef]
  omega

/-- The chain of an opcode lists its instructions. -/
theorem Chained.lists (h : b.Chained) (hop : op.Chains) : b.Lists (b.chain op) (b.refsOf op) := by
  refine (h.threads op hop).walk rfl (fun i _ => ?_) fun i hi _ => ?_
  · simp only [insRef, REF_BIAS]
    omega
  · rw [ir_insRef, insPrev, List.getElem?_eq_getElem hi]
    rfl

end Read

/-! ### Constants -/

/-- The test by which the search for a constant stops. -/
def holds (c : Interned) (r : ℕ) : Bool :=
  match c with
  | .int kv => (b.ir r).any fun ins => ins.i = kv
  | _ => b.k64Val r = some c.payload

theorem constant_eq (c : Interned) :
    b.constant c = match b.findK (b.holds c) b.k.length (b.chain c.op) with
      | some r => (b, r)
      | none => b.pushK c.toIns c.payload := by
  cases c <;> rfl

section Constants
variable {b} {b' : IrBuf} {c : Interned} {r i fuel : ℕ} {l : List ℕ} {w : IROp × (BitVec 32 ⊕ LuaValue)}

theorem findK_lists {p : ℕ → Bool} (h : b.Lists r l) (hf : l.length ≤ fuel) : b.findK p fuel r = l.find? p := by
  unfold Lists at h
  induction h generalizing fuel with
  | nil => cases fuel <;> rfl
  | @cons r r' l hr hn _ ih =>
    obtain ⟨ins, hi, rfl⟩ := Option.map_eq_some_iff.mp hn
    cases fuel with
    | zero => cases hf
    | succ fuel =>
      rw [findK, if_neg hr, hi, List.find?_cons]
      cases p r with
      | true => rfl
      | false => exact ih (Nat.le_of_succ_le_succ hf)

/-- The kind of a constant is the opcode of its instruction. -/
theorem constAt_fst (hw : b.constAt r = some w) : r < REF_BIAS ∧ ∃ ins, b.ir r = some ins ∧ ins.op = w.1 := by
  unfold constAt at hw
  by_cases hr : REF_BIAS ≤ r
  · rw [if_pos hr] at hw
    cases hw
  · rw [if_neg hr] at hw
    cases hi : b.ir r with
    | none =>
      rw [hi] at hw
      cases hw
    | some ins =>
      rw [hi] at hw
      refine ⟨Nat.lt_of_not_le hr, ins, rfl, ?_⟩
      obtain ⟨op, t, op1, op2, prev⟩ := ins
      cases op
      case kint => exact congrArg Prod.fst (Option.some.inj hw)
      case knum | kint64 | kgc =>
        obtain ⟨v, -, rfl⟩ := Option.map_eq_some_iff.mp hw
        rfl
      all_goals cases hw

theorem constAt_of_op {ins : IRIns} (hr : r < REF_BIAS) (hi : b.ir r = some ins) (hop : ins.op = c.op) :
    b.constAt r = some (c.op, c.word) ↔ b.holds c r = true := by
  have hmap : ∀ (op : IROp) (v : LuaValue), (b.k64Val r).map (fun u => (op, (.inr u : BitVec 32 ⊕ LuaValue))) =
      some (op, .inr v) ↔ decide (b.k64Val r = some v) = true := by
    intro op v
    simp
  unfold constAt
  rw [if_neg (Nat.not_le.mpr hr), hi]
  obtain ⟨op, t, op1, op2, prev⟩ := ins
  obtain rfl : op = c.op := hop
  cases c with
  | int kv =>
    have hholds : b.holds (.int kv) r = true ↔ IRIns.i ⟨.kint, t, op1, op2, prev⟩ = kv := by
      rw [holds, hi]
      exact decide_eq_true_iff
    rw [hholds]
    constructor
    · intro hw
      exact Sum.inl.inj (congrArg Prod.snd (Option.some.inj hw))
    · rintro rfl
      rfl
  | num x => exact hmap .knum (.num x)
  | int64 u => exact hmap .kint64 _
  | gc v t => exact hmap .kgc v

theorem constAt_iff :
    b.constAt r = some (c.op, c.word) ↔
      r < REF_BIAS ∧ ∃ ins, b.ir r = some ins ∧ ins.op = c.op ∧ b.holds c r = true := by
  constructor
  · intro hw
    obtain ⟨hr, ins, hi, hop⟩ := constAt_fst hw
    exact ⟨hr, ins, hi, hop, (constAt_of_op hr hi hop).mp hw⟩
  · rintro ⟨hr, ins, hi, hop, hholds⟩
    exact (constAt_of_op hr hi hop).mpr hholds

theorem isKop_kRef {op : IROp} (hi : i < REF_BIAS) :
    b.isKop op i = true ↔ ∃ ins, b.ir (kRef (some i)) = some ins ∧ ins.op = op := by
  rw [ir_kRef hi, isKop, Option.any_eq_true]
  exact exists_congr fun ins => and_congr_right fun _ => decide_eq_true_iff

theorem lt_length_of_isKop {op : IROp} (h : b.isKop op i = true) : i < b.k.length := by
  rw [isKop, Option.any_eq_true] at h
  obtain ⟨ins, hi, -⟩ := h
  exact (List.getElem?_eq_some_iff.mp hi).1

/-- The constants of a kind, from the newest on. -/
def constsOf (b : IrBuf) (op : IROp) : List ℕ := (places (b.isKop op) b.k.length).map fun i => kRef (some i)

theorem Chained.constLists (h : b.Chained) (c : Interned) : b.Lists (b.chain c.op) (b.constsOf c.op) := by
  have hroom := h.room
  refine (h.constants c).walk rfl (fun i hi => ?_) fun i hi _ => ?_
  · simp only [kRef, REF_BIAS] at hroom ⊢
    omega
  · rw [ir_kRef (hi.trans hroom), kPrev, List.getElem?_eq_getElem hi]
    rfl

theorem mem_constsOf (hroom : b.k.length < REF_BIAS) {op : IROp} :
    r ∈ b.constsOf op ↔ r < REF_BIAS ∧ ∃ ins, b.ir r = some ins ∧ ins.op = op := by
  rw [constsOf, List.mem_map]
  constructor
  · intro h
    obtain ⟨i, hi, rfl⟩ := h
    obtain ⟨hlt, hop⟩ := mem_places.mp hi
    refine ⟨?_, (isKop_kRef (hlt.trans hroom)).mp hop⟩
    simp only [kRef, REF_BIAS]
    omega
  · intro h
    obtain ⟨hr, hi⟩ := h
    have hk : kRef (some (REF_BIAS - 1 - r)) = r := Nat.sub_sub_self (Nat.le_sub_one_of_lt hr)
    have hlt : REF_BIAS - 1 - r < REF_BIAS := by
      simp only [REF_BIAS]
      omega
    have hop : b.isKop op (REF_BIAS - 1 - r) = true := (isKop_kRef hlt).mpr (by rwa [hk])
    exact ⟨_, mem_places.mpr ⟨lt_length_of_isKop hop, hop⟩, hk⟩

/-- The search finds a constant when it is there. -/
theorem Chained.findK_constant (h : b.Chained) (c : Interned) :
    match b.findK (b.holds c) b.k.length (b.chain c.op) with
    | some r => b.constAt r = some (c.op, c.word)
    | none => ∀ r, b.constAt r ≠ some (c.op, c.word) := by
  have hlen : (b.constsOf c.op).length ≤ b.k.length := by
    rw [constsOf, List.length_map]
    exact length_places_le _ _
  rw [findK_lists (h.constLists c) hlen]
  cases hf : (b.constsOf c.op).find? (b.holds c) with
  | some r =>
    obtain ⟨hr, ins, hi, hop⟩ := (mem_constsOf h.room).mp (List.mem_of_find?_eq_some hf)
    exact constAt_iff.mpr ⟨hr, ins, hi, hop, List.find?_some hf⟩
  | none =>
    intro r hr
    obtain ⟨hlt, ins, hi, hop, hh⟩ := constAt_iff.mp hr
    exact List.find?_eq_none.mp hf r ((mem_constsOf h.room).mpr ⟨hlt, ins, hi, hop⟩) hh

/-! ### Interning -/

theorem constAt_congr (hk : b'.k = b.k) (h64 : b'.k64 = b.k64) (r : ℕ) : b'.constAt r = b.constAt r := by
  by_cases h : REF_BIAS ≤ r
  · simp only [constAt, if_pos h]
    rfl
  · simp only [constAt, if_neg h, ir, k64Val, hk, h64]

theorem constAt_pushK (hlen : b.k64.length = b.k.length) (hroom : b.k.length + 1 < REF_BIAS) (r : ℕ) :
    (b.pushK c.toIns c.payload).1.constAt r =
      if r = (b.pushK c.toIns c.payload).2 then some (c.op, c.word) else b.constAt r := by
  have hlt : b.k.length < REF_BIAS := (Nat.lt_succ_self _).trans hroom
  split
  · next hr =>
    subst hr
    refine constAt_iff.mpr ⟨?_, _, ir_pushK_self hlt, c.op_toIns, ?_⟩
    · simp only [pushK, REF_BIAS]
      omega
    · have hv : (b.pushK c.toIns c.payload).1.k64Val (b.pushK c.toIns c.payload).2 = some c.payload :=
        k64Val_pushK_self hlen hlt
      cases c with
      | int kv =>
        simp only [holds, ir_pushK_self hlt, Option.any_some, decide_eq_true_eq]
        exact IRIns.i_setI (.new .kint (plain .int) 0 0) kv
      | num x => simpa [holds] using hv
      | int64 u => simpa [holds] using hv
      | gc v t => simpa [holds] using hv
  · next hr =>
    simp only [pushK] at hr
    by_cases hb : REF_BIAS ≤ r
    · simp only [constAt, if_pos hb]
      rfl
    · have hne : REF_BIAS - 1 - r ≠ b.k.length := by
        simp only [REF_BIAS] at hr hb hroom ⊢
        omega
      have hir : (b.pushK c.toIns c.payload).1.ir r = b.ir r := by
        simp only [ir, if_neg hb, pushK]
        exact getElem?_append_of_ne hne
      have hv : (b.pushK c.toIns c.payload).1.k64Val r = b.k64Val r := by
        rw [← hlen] at hne
        exact getElem?_append_of_ne hne
      simp only [constAt, if_neg hb, hir, hv]

/-- A constant that is not there yet is pushed. -/
theorem Chained.pushK (h : b.Chained) (hroom : b.k.length + 1 < REF_BIAS)
    (hnew : ∀ r, b.constAt r ≠ some (c.op, c.word)) : (b.pushK c.toIns c.payload).1.Chained := by
  have hop := c.op_toIns
  have hget : ∀ i, i < b.k.length → (b.pushK c.toIns c.payload).1.k[i]? = b.k[i]? := by
    intro i hi
    exact List.getElem?_append_left hi
  have hlast : (b.pushK c.toIns c.payload).1.k[b.k.length]? =
      some { c.toIns with prev := b.chain c.toIns.op } := List.getElem?_concat_length
  have hlen : (b.pushK c.toIns c.payload).1.k.length = b.k.length + 1 := List.length_append
  refine ⟨h.base, h.ops, ?_, hlen.trans_lt hroom, ?_, fun op hc => ?_, fun d => ?_⟩
  · simp only [IrBuf.pushK, List.length_append, h.payload, List.length_singleton]
  · intro d r r' hr hr'
    rw [constAt_pushK h.payload hroom] at hr hr'
    split at hr
    · next heq =>
      split at hr'
      · next heq' => rw [heq, heq']
      · rw [Option.some.inj hr] at hnew
        exact absurd hr' (hnew r')
    · split at hr'
      · rw [Option.some.inj hr'] at hnew
        exact absurd hr (hnew r)
      · exact h.distinct d r r' hr hr'
  · have hne : op ≠ c.toIns.op := by
      intro heq
      have hconst := hc.2
      rw [heq, hop] at hconst
      cases c <;> cases hconst
    have hchain : (b.pushK c.toIns c.payload).1.chain op = b.chain op := Function.update_of_ne hne _ _
    rw [hchain]
    exact h.threads op hc
  · have hold : Threaded kRef ((b.pushK c.toIns c.payload).1.isKop d.op) (b.pushK c.toIns c.payload).1.kPrev
        b.k.length (b.chain d.op) := by
      refine (h.constants d).congr (fun i hi => ?_) fun i hi _ => ?_
      · rw [isKop, isKop, hget i hi]
      · rw [kPrev, kPrev, hget i hi]
    rw [hlen]
    by_cases hd : d.op = c.op
    · have hhead : (b.pushK c.toIns c.payload).1.chain d.op = kRef (some b.k.length) := by
        simp only [IrBuf.pushK, hop, hd, Function.update_self, kRef]
        omega
      rw [hhead]
      refine hold.push ?_ ?_
      · rw [isKop, hlast, Option.any_some, hop, hd]
        exact decide_eq_true rfl
      · rw [kPrev, hlast, hop, hd]
        rfl
    · have hhead : (b.pushK c.toIns c.payload).1.chain d.op = b.chain d.op :=
        Function.update_of_ne (by rwa [hop]) _ _
      rw [hhead]
      refine hold.pushOther ?_
      rw [isKop, hlast, Option.any_some, hop]
      exact decide_eq_false (Ne.symm hd)

/-- Interning keeps the buffer in order and gives a reference that denotes the constant. -/
theorem Chained.constant (h : b.Chained) (hroom : b.k.length + 1 < REF_BIAS) (c : Interned) :
    (b.constant c).1.Chained ∧ (b.constant c).1.constAt (b.constant c).2 = some (c.op, c.word) ∧
      (b.constant c).1.ins = b.ins ∧ ∀ r w, b.constAt r = some w → (b.constant c).1.constAt r = some w := by
  have hfind := h.findK_constant c
  rw [constant_eq]
  split at hfind
  · next r hr => exact ⟨h, hfind, rfl, fun _ _ hw => hw⟩
  · refine ⟨h.pushK hroom hfind, ?_, rfl, fun r w hw => ?_⟩
    · rw [constAt_pushK h.payload hroom, if_pos rfl]
    · rw [constAt_pushK h.payload hroom]
      split
      · next hr =>
        subst hr
        have hnone : b.constAt (b.pushK c.toIns c.payload).2 = none := by
          have hidx : REF_BIAS - 1 - (REF_BIAS - (b.k.length + 1)) = b.k.length := by omega
          have hlt : ¬ REF_BIAS ≤ REF_BIAS - (b.k.length + 1) := by omega
          simp only [IrBuf.pushK, constAt, if_neg hlt, ir, hidx, List.getElem?_eq_none (Nat.le_refl _)]
          rfl
        rw [hnone] at hw
        cases hw
      · exact hw

/-- A constant that is there is found again. -/
theorem Chained.constant_of_constAt (h : b.Chained) (hr : b.constAt r = some (c.op, c.word)) :
    b.constant c = (b, r) := by
  have hfind := h.findK_constant c
  rw [constant_eq]
  split at hfind
  · next r' hr' => rw [h.distinct c r' r hfind hr]
  · exact absurd hr (hfind r)

end Constants

/-! ### Instructions -/

section Instructions
variable {b} {b' : IrBuf} {op : IROp} {ins : IRIns} {r n : ℕ}

theorem op_ne_of_isConst {c : Interned} (h : op.isConst = false) : c.op ≠ op := by
  rintro rfl
  cases c <;> cases h

theorem isOp_congr {i : ℕ} (h : (b'.ins[i]?).map IRIns.op = (b.ins[i]?).map IRIns.op) :
    b'.isOp op i = b.isOp op i := by
  have hany : ∀ o : Option IRIns, o.any (·.op = op) = (o.map IRIns.op).any (· = op) := by
    intro o
    cases o <;> rfl
  rw [isOp, isOp, hany, hany, h]

/-- Where the constants and their chains stay, the instructions decide. -/
theorem Chained.of_ins (h : b.Chained) (hk : b'.k = b.k) (h64 : b'.k64 = b.k64)
    (hchain : ∀ c : Interned, b'.chain c.op = b.chain c.op) (hbase : b'.ins ≠ [])
    (hops : ∀ ins ∈ b'.ins, ins.op.isConst = false)
    (hthreads : ∀ op, op.Chains → Threaded insRef (b'.isOp op) b'.insPrev b'.ins.length (b'.chain op)) :
    b'.Chained := by
  refine ⟨hbase, hops, by rw [hk, h64, h.payload], by rw [hk]; exact h.room, fun d r r' hr hr' => ?_, hthreads,
    fun c => ?_⟩
  · rw [constAt_congr hk h64] at hr hr'
    exact h.distinct d r r' hr hr'
  · rw [hchain, hk]
    refine (h.constants c).congr (fun i _ => ?_) fun i _ _ => ?_
    · rw [isKop, isKop, hk]
    · rw [kPrev, kPrev, hk]

theorem Chained.emitIns (h : b.Chained) (hop : ins.op.isConst = false) : (b.emitIns ins).1.Chained := by
  have hget : ∀ i, i < b.ins.length → (b.emitIns ins).1.ins[i]? = b.ins[i]? := by
    intro i hi
    exact List.getElem?_append_left hi
  have hlast : (b.emitIns ins).1.ins[b.ins.length]? = some { ins with prev := b.chain ins.op } :=
    List.getElem?_concat_length
  have hlen : (b.emitIns ins).1.ins.length = b.ins.length + 1 := List.length_append
  have hpos : b.ins.length ≠ 0 := fun h0 => h.base (List.length_eq_zero_iff.mp h0)
  refine h.of_ins rfl rfl (fun c => Function.update_of_ne (op_ne_of_isConst hop) _ _) ?_ ?_ fun op hc => ?_
  · exact List.append_ne_nil_of_right_ne_nil _ (List.cons_ne_nil _ _)
  · intro i hi
    cases List.mem_append.mp hi with
    | inl hi => exact h.ops i hi
    | inr hi =>
      rw [List.mem_singleton.mp hi]
      exact hop
  · have hold : Threaded insRef ((b.emitIns ins).1.isOp op) (b.emitIns ins).1.insPrev b.ins.length (b.chain op) := by
      refine (h.threads op hc).congr (fun i hi => ?_) fun i hi _ => ?_
      · rw [isOp, isOp, hget i hi]
      · rw [insPrev, insPrev, hget i hi]
    rw [hlen]
    by_cases heq : op = ins.op
    · have hhead : (b.emitIns ins).1.chain op = insRef (some b.ins.length) := by
        simp only [IrBuf.emitIns, heq, Function.update_self, insRef, nins]
      rw [hhead]
      refine hold.push ?_ ?_
      · rw [isOp, hlast, Option.any_some, heq, Bool.and_eq_true, bne_iff_ne]
        exact ⟨hpos, decide_eq_true rfl⟩
      · rw [insPrev, hlast, heq]
        rfl
    · have hhead : (b.emitIns ins).1.chain op = b.chain op := Function.update_of_ne heq _ _
      rw [hhead]
      refine hold.pushOther ?_
      rw [isOp, hlast, Option.any_some, decide_eq_false (Ne.symm heq), Bool.and_false]

/-- Taking the last instruction back moves the head of its chain to its link. -/
theorem Chained.pop (h : b.Chained) (hlen : 1 < b.ins.length) :
    ∃ c, b.pop = some c ∧ c.Chained ∧ c.ins = b.ins.take (b.ins.length - 1) ∧ c.k = b.k ∧ c.k64 = b.k64 := by
  obtain ⟨ins, hins⟩ : ∃ ins, b.ins.getLast? = some ins := ⟨_, List.getLast?_eq_some_getLast h.base⟩
  obtain ⟨c, hpop, hcins, hk, h64, hchain⟩ : ∃ c, b.pop = some c ∧ c.ins = b.ins.dropLast ∧ c.k = b.k ∧
      c.k64 = b.k64 ∧ c.chain = Function.update b.chain ins.op ins.prev := by
    rw [IrBuf.pop, hins]
    exact ⟨_, rfl, rfl, rfl, rfl, rfl⟩
  obtain ⟨m, hm⟩ : ∃ m, b.ins.length = m + 1 := ⟨b.ins.length - 1, by omega⟩
  have hlast : b.ins[m]? = some ins := by
    rw [← hins, List.getLast?_eq_getElem?, hm, Nat.add_sub_cancel]
  have hclen : c.ins.length = m := by rw [hcins, List.length_dropLast, hm, Nat.add_sub_cancel]
  have hget : ∀ i, i < m → c.ins[i]? = b.ins[i]? := by
    intro i hi
    rw [hcins, List.getElem?_dropLast, if_pos (by omega)]
  have hconst : ins.op.isConst = false := h.ops ins (List.mem_of_getElem? hlast)
  refine ⟨c, hpop, h.of_ins hk h64 (fun d => ?_) ?_ ?_ fun op hc => ?_, by rw [hcins, List.dropLast_eq_take], hk, h64⟩
  · rw [hchain, Function.update_of_ne (op_ne_of_isConst hconst)]
  · exact List.ne_nil_of_length_pos (by omega)
  · rw [hcins]
    exact fun i hi => h.ops i (List.mem_of_mem_dropLast hi)
  · have ht := h.threads op hc
    rw [hm] at ht
    have hcongr : ∀ head, Threaded insRef (b.isOp op) b.insPrev m head →
        Threaded insRef (c.isOp op) c.insPrev m head := by
      intro head hh
      refine hh.congr (fun i hi => ?_) fun i hi _ => ?_
      · rw [isOp, isOp, hget i hi]
      · rw [insPrev, insPrev, hget i hi]
    rw [hclen, hchain]
    by_cases heq : op = ins.op
    · subst heq
      have hp : b.isOp ins.op m = true := by
        rw [isOp, hlast, Option.any_some, Bool.and_eq_true, bne_iff_ne]
        exact ⟨by omega, decide_eq_true rfl⟩
      have hprev : b.insPrev m = ins.prev := by
        rw [insPrev, hlast]
        rfl
      rw [Function.update_self, ← hprev]
      exact hcongr _ (ht.pop hp)
    · rw [Function.update_of_ne heq]
      refine hcongr _ (ht.popOther ?_)
      rw [isOp, hlast, Option.any_some, decide_eq_false (Ne.symm heq), Bool.and_false]

/-- A rollback leaves the instructions below the mark, with their chains. -/
theorem Chained.popN (h : b.Chained) (hn : n < b.ins.length) :
    ∃ c, popN n b = some c ∧ c.Chained ∧ c.ins = b.ins.take (b.ins.length - n) ∧ c.k = b.k ∧ c.k64 = b.k64 := by
  induction n generalizing b with
  | zero => exact ⟨b, rfl, h, List.take_length.symm, rfl, rfl⟩
  | succ n ih =>
    obtain ⟨c, hc, hchained, hins, hk, h64⟩ := h.pop (by omega)
    have hlen : c.ins.length = b.ins.length - 1 := by
      rw [hins, List.length_take]
      omega
    obtain ⟨d, hd, hd', hdins, hdk, hd64⟩ := ih hchained (by omega)
    refine ⟨d, ?_, hd', ?_, hdk.trans hk, hd64.trans h64⟩
    · rw [IrBuf.popN, hc]
      exact hd
    · rw [hdins, hins, List.take_take, List.length_take]
      congr 1
      omega

theorem Chained.rollback (h : b.Chained) (hr : REF_FIRST ≤ r) :
    ∃ c, b.rollback r = some c ∧ c.Chained ∧ c.ins = b.ins.take (r - REF_BIAS) ∧ c.k = b.k ∧ c.k64 = b.k64 := by
  have hpos := List.length_pos_iff.mpr h.base
  have hn : b.nins - r < b.ins.length := by
    simp only [nins, REF_FIRST, REF_BIAS] at hr ⊢
    omega
  obtain ⟨c, hc, hchained, hins, hk, h64⟩ := h.popN hn
  refine ⟨c, hc, hchained, ?_, hk, h64⟩
  by_cases hle : r ≤ b.nins
  · have hlen : b.ins.length - (b.nins - r) = r - REF_BIAS := by
      simp only [nins, REF_FIRST, REF_BIAS] at hr hle ⊢
      omega
    rw [hins, hlen]
  · have hlen : b.ins.length ≤ b.ins.length - (b.nins - r) ∧ b.ins.length ≤ r - REF_BIAS := by
      simp only [nins, REF_FIRST, REF_BIAS] at hr hle ⊢
      omega
    rw [hins, List.take_of_length_le hlen.1, List.take_of_length_le hlen.2]

/-- A change to an instruction that keeps its opcode, and its link unless it is a removed one. -/
theorem Chained.modifyAt (h : b.Chained) {f : IRIns → IRIns} {j : ℕ} (hins : b'.ins = b.ins.modify j f)
    (hk : b'.k = b.k) (h64 : b'.k64 = b.k64) (hchain : b'.chain = b.chain)
    (hf : ∀ i, b.ins[j]? = some i → (f i).op = i.op ∧ (i.op ≠ .nop → (f i).prev = i.prev)) : b'.Chained := by
  have hlen : b'.ins.length = b.ins.length := by rw [hins, List.length_modify]
  have hget : ∀ i ins, b.ins[i]? = some ins → b'.ins[i]? = some (if j = i then f ins else ins) := by
    intro i ins hi
    rw [hins, List.getElem?_modify, hi]
    rfl
  have hop : ∀ i : ℕ, (b'.ins[i]?).map IRIns.op = (b.ins[i]?).map IRIns.op := by
    intro i
    cases hi : b.ins[i]? with
    | none => rw [List.getElem?_eq_none (hlen.trans_le (List.getElem?_eq_none_iff.mp hi))]
    | some ins =>
      rw [hget i ins hi, Option.map_some, Option.map_some]
      split
      · next hr => rw [(hf ins (hr ▸ hi)).1]
      · rfl
  refine h.of_ins hk h64 (fun c => by rw [hchain]) ?_ ?_ fun op hc => ?_
  · exact List.ne_nil_of_length_pos (hlen ▸ List.length_pos_iff.mpr h.base)
  · intro ins hi
    obtain ⟨i, hi⟩ := List.mem_iff_getElem?.mp hi
    have hopi := hop i
    rw [hi, Option.map_some, eq_comm, Option.map_eq_some_iff] at hopi
    obtain ⟨old, hold, hopi⟩ := hopi
    rw [← hopi]
    exact h.ops old (List.mem_of_getElem? hold)
  · rw [hchain, hlen]
    refine (h.threads op hc).congr (fun i _ => isOp_congr (hop i)) fun i hi hp => ?_
    obtain ⟨ins, hi⟩ : ∃ ins, b.ins[i]? = some ins := ⟨_, List.getElem?_eq_getElem hi⟩
    rw [isOp, hi, Bool.and_eq_true, Option.any_some, decide_eq_true_eq] at hp
    rw [insPrev, insPrev, hget i ins hi, hi, Option.elim_some, Option.elim_some]
    split
    · next hr => exact (hf ins (hr ▸ hi)).2 (by rw [hp.2]; exact hc.1)
    · rfl

theorem Chained.modify (h : b.Chained) {f : IRIns → IRIns}
    (hf : ∀ i, b.ins[r - REF_BIAS]? = some i → (f i).op = i.op ∧ (i.op ≠ .nop → (f i).prev = i.prev)) :
    (b.modify r f).Chained :=
  h.modifyAt (ins_modify ..) (k_modify ..) (k64_modify ..) (chain_modify ..) hf

/-! ### The search for a common subexpression -/

theorem findCse_lists (op1 op2 : ℕ) {fuel : ℕ} {l : List ℕ} (h : b.Lists r l) (hs : l.Pairwise (· > ·))
    (hf : l.length ≤ fuel) :
    match b.findCse op1 op2 fuel r with
    | some q => q ∈ l ∧ ∃ ins, b.ir q = some ins ∧ ins.op1 = op1 ∧ ins.op2 = op2
    | none => ∀ q ins, q ∈ l → max op1 op2 < q → b.ir q = some ins → ¬ (ins.op1 = op1 ∧ ins.op2 = op2) := by
  unfold Lists at h
  induction h generalizing fuel with
  | nil =>
    have hnone : b.findCse op1 op2 fuel 0 = none := by cases fuel <;> rfl
    rw [hnone]
    exact fun q ins hq => absurd hq List.not_mem_nil
  | @cons r r' l hr hn _ ih =>
    obtain ⟨ins, hi, rfl⟩ := Option.map_eq_some_iff.mp hn
    obtain ⟨hlt, hs⟩ := List.pairwise_cons.mp hs
    cases fuel with
    | zero => cases hf
    | succ fuel =>
      rw [findCse]
      by_cases hmax : max op1 op2 < r
      · rw [if_pos hmax, hi]
        by_cases hsame : ins.op1 = op1 ∧ ins.op2 = op2
        · simp only [if_pos hsame]
          exact ⟨List.mem_cons_self, ins, hi, hsame⟩
        · simp only [if_neg hsame]
          have ih := ih hs (Nat.le_of_succ_le_succ hf)
          cases hfind : b.findCse op1 op2 fuel ins.prev with
          | some q =>
            rw [hfind] at ih
            exact ⟨List.mem_cons_of_mem _ ih.1, ih.2⟩
          | none =>
            rw [hfind] at ih
            intro q i hq hq' hqi
            cases List.mem_cons.mp hq with
            | inl heq =>
              rw [heq, hi, Option.some.injEq] at hqi
              rwa [← hqi]
            | inr hq => exact ih q i hq hq' hqi
      · rw [if_neg hmax]
        -- The chain goes down, so nothing further on lies above the operands either.
        intro q i hq hq'
        cases List.mem_cons.mp hq with
        | inl heq => exact absurd (heq ▸ hq') hmax
        | inr hq => exact absurd (hq'.trans (hlt q hq)) hmax

end Instructions
end IrBuf
end LuajitRs.Ir
