import LuajitRs.Jit.Chain.Runs
import LuajitRs.Jit.Opt.Fold

/-! The buffers that the fold engine sees. A negation refers to an earlier instruction, and the chains of the
constants stay below the bias, whatever is emitted, folded, patched and taken back. -/
namespace LuajitRs.Ir

/-- What the rules rely on. -/
structure IrBuf.Foldable (b : IrBuf) : Prop where
  neg : ∀ i ins, b.ins[i]? = some ins → ins.op = .neg → ins.op1 < REF_BIAS + i
  ops : ∀ ins ∈ b.ins, ins.op.isConst = false
  consts : ∀ ins ∈ b.k, ins.op.isConst = true ∧ ins.prev < REF_BIAS
  chain : ∀ op : IROp, op.isConst = true → b.chain op < REF_BIAS

/-- An instruction whose operands are in the buffer, or literals. Constants are interned and never emitted. -/
structure IrBuf.Refers (b : IrBuf) (fins : IRIns) : Prop where
  below : IrBuf.Below b.nins fins
  op : fins.op.isConst = false

/-- Marks, links and types change, a PHI gets its operands, and an instruction is removed. -/
def Patched (ins ins' : IRIns) : Prop := ins'.op = .nop ∨ ins'.op = ins.op ∧ (ins.op = .neg → ins'.op1 = ins.op1)

def BufOp.Refers (b : IrBuf) : BufOp → Prop
  | emitIns fins | optCse fins => b.Refers fins
  | _ => True

theorem Patched.refl (ins : IRIns) : Patched ins ins := .inr ⟨rfl, fun _ => rfl⟩

section Foldable
variable {b c : IrBuf} {r : ℕ} {ins fins : IRIns}

namespace IrBuf

theorem foldable_new (parent exitno : ℕ) : (IrBuf.new parent exitno).Foldable := by
  refine ⟨fun i ins hi hn => ?_, fun ins hi => ?_, fun ins hi => ?_, fun op _ => ?_⟩
  · have hmem := List.mem_of_getElem? hi
    simp only [IrBuf.new, List.mem_singleton] at hmem
    subst hmem
    cases hn
  · simp only [IrBuf.new, List.mem_singleton] at hi
    subst hi
    rfl
  · simp only [IrBuf.new, List.mem_cons, List.not_mem_nil, or_false] at hi
    obtain rfl | rfl | rfl := hi <;> exact ⟨rfl, by decide⟩
  · exact Nat.zero_lt_succ _

namespace Foldable

/-- A buffer with the same constants, whose instructions are patched. -/
theorem patch (h : b.Foldable) (hk : c.k = b.k) (hchain : ∀ op : IROp, op.isConst = true → c.chain op = b.chain op)
    (hins : ∀ (i : ℕ) ins', c.ins[i]? = some ins' → ∃ ins, b.ins[i]? = some ins ∧ Patched ins ins') : c.Foldable := by
  refine ⟨fun i ins' hi hn => ?_, fun ins' hi => ?_, fun ins hi => h.consts ins (hk ▸ hi), fun op hop => ?_⟩
  · obtain ⟨ins, hi, hnop | ⟨hop, hop1⟩⟩ := hins i ins' hi
    · cases hn.symm.trans hnop
    · have hneg : ins.op = .neg := hop.symm.trans hn
      rw [hop1 hneg]
      exact h.neg i ins hi hneg
  · obtain ⟨i, hi⟩ := List.mem_iff_getElem?.mp hi
    obtain ⟨ins, hi, hnop | ⟨hop, -⟩⟩ := hins i ins' hi
    · rw [hnop]
      rfl
    · rw [hop]
      exact h.ops ins (List.mem_of_getElem? hi)
  · rw [hchain op hop]
    exact h.chain op hop

theorem modify (h : b.Foldable) {f : IRIns → IRIns} (hf : ∀ ins, Patched ins (f ins)) : (b.modify r f).Foldable := by
  refine h.patch (k_modify ..) (fun op _ => by rw [chain_modify]) fun i ins' hi => ?_
  rw [ins_modify, List.getElem?_modify] at hi
  obtain ⟨ins, hj, rfl⟩ := Option.map_eq_some_iff.mp hi
  refine ⟨ins, hj, ?_⟩
  split
  · exact hf ins
  · exact .refl ins

theorem setNop (h : b.Foldable) : (b.modify r .setNop).Foldable := h.modify fun _ => .inl rfl

theorem emitIns (h : b.Foldable) (hr : b.Refers fins) : (b.emitIns fins).1.Foldable := by
  refine ⟨fun i ins hi hn => ?_, fun ins hi => ?_, h.consts, fun op hop => ?_⟩
  · simp only [IrBuf.emitIns, List.getElem?_append] at hi
    split at hi
    · exact h.neg i ins hi hn
    · next hge =>
      obtain rfl := List.mem_singleton.mp (List.mem_of_getElem? hi)
      have hlt : fins.op1 < REF_BIAS + b.ins.length := hr.below.1
      exact hlt.trans_le (Nat.add_le_add_left (Nat.le_of_not_lt hge) _)
  · simp only [IrBuf.emitIns, List.mem_append, List.mem_singleton] at hi
    obtain hi | rfl := hi
    · exact h.ops ins hi
    · exact hr.op
  · have hne : op ≠ fins.op := by
      rintro rfl
      exact Bool.false_ne_true (hr.op.symm.trans hop)
    simp only [IrBuf.emitIns, Function.update_of_ne hne]
    exact h.chain op hop

theorem optCse (h : b.Foldable) (hr : b.Refers fins) : (b.optCse fins).1.Foldable := by
  obtain heq | heq := optCse_cases b fins
  · rwa [heq]
  · rw [heq]
    exact h.emitIns hr

theorem pushK (h : b.Foldable) (hop : ins.op.isConst = true) (payload : LuaValue) :
    (b.pushK ins payload).1.Foldable := by
  refine ⟨h.neg, h.ops, fun i hi => ?_, fun op hop' => ?_⟩
  · simp only [IrBuf.pushK, List.mem_append, List.mem_singleton] at hi
    obtain hi | rfl := hi
    · exact h.consts i hi
    · exact ⟨hop, h.chain ins.op hop⟩
  · simp only [IrBuf.pushK]
    by_cases hne : op = ins.op
    · subst hne
      rw [Function.update_self]
      exact Nat.sub_lt (Nat.zero_lt_succ _) (Nat.zero_lt_succ _)
    · rw [Function.update_of_ne hne]
      exact h.chain op hop'

/-- A constant refers to constants. -/
theorem prev_lt (h : b.Foldable) (hr : r < REF_BIAS) (hi : b.ir r = some ins) : ins.prev < REF_BIAS := by
  rw [ir, if_neg (Nat.not_le.mpr hr)] at hi
  exact (h.consts ins (List.mem_of_getElem? hi)).2

theorem findK_lt (h : b.Foldable) {p : ℕ → Bool} {fuel q : ℕ} (hr : r < REF_BIAS) (hq : b.findK p fuel r = some q) :
    q < REF_BIAS := by
  induction fuel generalizing r with
  | zero => cases hq
  | succ fuel ih =>
    rw [findK] at hq
    split at hq
    · cases hq
    split at hq
    · obtain rfl := Option.some.inj hq
      exact hr
    split at hq
    · next ins hi => exact ih (h.prev_lt hr hi) hq
    · cases hq

theorem constant (h : b.Foldable) (k : Interned) :
    (b.constant k).1.Foldable ∧ (b.constant k).1.ins = b.ins ∧ (b.constant k).2 < REF_BIAS := by
  have hop : k.op.isConst = true := by cases k <;> rfl
  rw [constant_eq]
  split
  · next r hr => exact ⟨h, rfl, h.findK_lt (h.chain _ hop) hr⟩
  · refine ⟨h.pushK (by rw [Interned.op_toIns]; exact hop) _, rfl, ?_⟩
    exact Nat.sub_lt (Nat.zero_lt_succ _) (Nat.zero_lt_succ _)

theorem pop (h : b.Foldable) (hc : b.pop = some c) : c.Foldable := by
  obtain ⟨ins, hlast, rfl⟩ := Option.map_eq_some_iff.mp hc
  have hop : ins.op.isConst = false := h.ops ins (List.mem_of_getLast? hlast)
  refine h.patch rfl (fun op hc => ?_) fun i ins' hi => ?_
  · refine Function.update_of_ne ?_ _ _
    rintro rfl
    exact Bool.false_ne_true (hop.symm.trans hc)
  · rw [List.getElem?_dropLast] at hi
    split at hi
    · exact ⟨ins', hi, .refl ins'⟩
    · cases hi

theorem popN {n : ℕ} (h : b.Foldable) (hc : b.popN n = some c) : c.Foldable := by
  induction n generalizing b with
  | zero =>
    obtain rfl := Option.some.inj hc
    exact h
  | succ n ih =>
    obtain ⟨b₁, hpop, hc⟩ := Option.bind_eq_some_iff.mp hc
    exact ih (h.pop hpop) hc

theorem tryDse (h : b.Foldable) (hc : b.tryDse fins = some c) : c.Foldable := by
  rw [IrBuf.tryDse] at hc
  split at hc
  · simp only [Option.bind_eq_bind, Option.bind_eq_some_iff] at hc
    obtain ⟨carg, -, found, -, hc⟩ := hc
    cases found with
    | none =>
      obtain rfl := Option.some.inj hc
      exact h
    | some fwd =>
      simp only [Option.bind_eq_some_iff] at hc
      obtain ⟨between, -, hc⟩ := hc
      cases between with
      | true =>
        obtain rfl := Option.some.inj hc
        exact h
      | false =>
        obtain rfl := Option.some.inj hc
        exact h.setNop
  · obtain rfl := Option.some.inj hc
    exact h

theorem markRef (h : b.Foldable) (o : ℕ) : (b.markRef o).Foldable := by
  rw [IrBuf.markRef]
  split
  · exact h.modify fun ins => .inr ⟨rfl, fun _ => rfl⟩
  · exact h

theorem markOperands (h : b.Foldable) (ins : IRIns) : (b.markOperands ins).Foldable := (h.markRef _).markRef _

theorem unlink (h : b.Foldable) (pchain : ℕ) (hop : ins.op.isConst = false) : (b.unlink pchain ins).Foldable := by
  rw [IrBuf.unlink]
  split
  · refine h.patch rfl (fun op hc => Function.update_of_ne ?_ _ _) fun i ins' hi => ⟨ins', hi, .refl ins'⟩
    rintro rfl
    exact Bool.false_ne_true (hop.symm.trans hc)
  · exact h.modify fun ins => .inr ⟨rfl, fun _ => rfl⟩

/-- An instruction above the bias. -/
theorem op_ir (h : b.Foldable) (hr : REF_BIAS ≤ r) (hi : b.ir r = some ins) : ins.op.isConst = false := by
  rw [ir, if_pos hr] at hi
  exact h.ops ins (List.mem_of_getElem? hi)

theorem dcePropagate (h : b.Foldable) (k : ℕ) (pchain : IROp → ℕ) : (b.dcePropagate k pchain).Foldable := by
  induction k generalizing b pchain with
  | zero => exact h
  | succ k ih =>
    simp only [IrBuf.dcePropagate]
    split
    · exact h
    · next ins hi =>
      have hop : ins.op.isConst = false := h.op_ir ((Nat.le_succ _).trans (Nat.le_add_right _ _)) hi
      split
      · refine ih (Foldable.markOperands ?_ _) _
        exact h.modify fun ins => .inr ⟨rfl, fun _ => rfl⟩
      split
      · exact ih (h.markOperands ins) _
      · exact ih (h.unlink _ hop).setNop _

theorem dceIr (h : b.Foldable) (snapmap : List SnapEntry) : (b.asTrace snapmap).dceIr.Foldable := by
  have hmark : ∀ (es : List SnapEntry) {b : IrBuf}, b.Foldable → (es.foldl (fun b e => b.markRef e.ref) b).Foldable := by
    intro es
    induction es with
    | nil => exact fun h => h
    | cons e es ih => exact fun h => ih (h.markRef e.ref)
  exact dcePropagate (hmark snapmap h) _ _

/-- No operation breaks what the rules rely on. -/
theorem step {o : BufOp} (h : b.Foldable) (hr : o.Refers b) (happly : o.apply b = some c) : c.Foldable := by
  cases o with
  | constant k =>
    obtain rfl := Option.some.inj happly
    exact (h.constant k).1
  | emitIns fins =>
    obtain rfl := Option.some.inj happly
    exact h.emitIns hr
  | optCse fins =>
    obtain rfl := Option.some.inj happly
    exact h.optCse hr
  | rollback r => exact h.popN happly
  | dse fins => exact h.tryDse happly
  | setNop r =>
    obtain ⟨ins, -, rfl⟩ := Option.map_eq_some_iff.mp happly
    exact h.setNop
  | dce snapmap =>
    obtain rfl := Option.some.inj happly
    exact h.dceIr snapmap

end Foldable
end IrBuf
end Foldable
end LuajitRs.Ir
