import LuajitRs.Jit.Run
import LuajitRs.Util.F64.Exact

/-! Integer narrowing: the pass retypes number arithmetic and comparisons whose operands it takes for
integers. The integer operations of the executor wrap at `2^32` and have one zero, so a narrowed run is the
original one as long as every narrowed operation stays in the 32-bit range. -/
namespace LuajitRs.Ir

namespace IrBuf
variable (buf : IrBuf)

/-- A constant operand has to be an integer, an instruction has to be narrowable itself. -/
def narrowableOperand (narrowable : List Bool) (opr : ℕ) : Bool :=
  if REF_BIAS ≤ opr then narrowable.getD (opr - REF_BIAS) false
  else (buf.ir opr).any fun ins => ins.op = .kint || ins.op = .kint64

def narrowableIns (narrowable : List Bool) (ins : IRIns) : Bool :=
  let opr := buf.narrowableOperand narrowable
  match ins.op with
  | .kint | .kint64 => true
  | .sload => ins.t.ty = .int
  | .add | .sub | .mul => ins.t.ty = .num && opr ins.op1 && opr ins.op2
  | .neg => ins.t.ty = .num && opr ins.op1
  | .phi => (ins.t.ty = .num || ins.t.ty = .int) && opr ins.op1 && opr ins.op2
  | .lt | .ge | .le | .gt | .ult | .uge | .ule | .ugt | .eq | .ne => opr ins.op1 && opr ins.op2
  | _ => false

/-- Phase 1, from the results of the instructions before. -/
def narrowableFrom : List IRIns → List Bool → List Bool
  | [], acc => acc
  | ins :: rest, acc => narrowableFrom rest (acc ++ [buf.narrowableIns acc ins])

/-- The narrowable instructions; the base instruction never is. -/
def narrowable : List Bool := buf.narrowableFrom (buf.ins.drop 1) [false]

end IrBuf

/-- Phase 2 on one instruction. -/
def narrowIns (narrow : Bool) (ins : IRIns) : IRIns :=
  if narrow && (ins.t.ty = .num || ins.t.ty = .int) then { ins with t := { ins.t with ty := .int } } else ins

def optNarrow (buf : IrBuf) : IrBuf :=
  { buf with ins := buf.ins.mapIdx fun i ins => narrowIns (buf.narrowable.getD i false) ins }

def Trace.narrow (tr : Trace) : Trace := { tr with ir := optNarrow tr.ir }

/-! ### What a narrowable instruction is -/

section Narrowable
variable (buf : IrBuf)

theorem narrowableFrom_append (l : List IRIns) (acc : List Bool) :
    ∃ t, buf.narrowableFrom l acc = acc ++ t ∧ t.length = l.length := by
  induction l generalizing acc with
  | nil => exact ⟨[], by simp [IrBuf.narrowableFrom], rfl⟩
  | cons ins rest ih =>
    obtain ⟨t, ht, hl⟩ := ih (acc ++ [buf.narrowableIns acc ins])
    refine ⟨buf.narrowableIns acc ins :: t, ?_, by simp [hl]⟩
    rw [IrBuf.narrowableFrom, ht, List.append_assoc, List.singleton_append]

/-- A narrowable instruction is so by the results of those before it. -/
theorem narrowableFrom_getD {l : List IRIns} {acc : List Bool} {i : ℕ} {ins : IRIns} (hi : l[i]? = some ins) :
    ∃ pre, (buf.narrowableFrom l acc).getD (acc.length + i) false = buf.narrowableIns pre ins := by
  induction l generalizing acc i with
  | nil => simp at hi
  | cons x rest ih =>
    cases i with
    | zero =>
      obtain rfl : x = ins := by simpa using hi
      obtain ⟨t, ht, -⟩ := narrowableFrom_append buf rest (acc ++ [buf.narrowableIns acc x])
      refine ⟨acc, ?_⟩
      rw [IrBuf.narrowableFrom, ht]
      simp [List.getD_eq_getElem?_getD]
    | succ i =>
      obtain ⟨pre, hp⟩ := @ih (acc ++ [buf.narrowableIns acc x]) i (by simpa using hi)
      refine ⟨pre, ?_⟩
      rw [IrBuf.narrowableFrom, ← hp, List.length_append, List.length_singleton]
      congr 1
      omega

theorem narrowable_cases {i : ℕ} {ins : IRIns} (hi : buf.ins[i]? = some ins)
    (h : buf.narrowable.getD i false = true) : ∃ pre, buf.narrowableIns pre ins = true := by
  cases i with
  | zero =>
    obtain ⟨t, ht, -⟩ := narrowableFrom_append buf (buf.ins.drop 1) [false]
    rw [IrBuf.narrowable, ht] at h
    simp at h
  | succ i =>
    obtain ⟨pre, hp⟩ := @narrowableFrom_getD buf (buf.ins.drop 1) [false] i ins
      (by rw [List.getElem?_drop, Nat.add_comm]; exact hi)
    rw [IrBuf.narrowable, show i + 1 = [false].length + i by simp [Nat.add_comm], hp] at h
    exact ⟨pre, h⟩

end Narrowable

/-! ### The narrowed buffer -/

section Buffer
variable (buf : IrBuf)

@[simp] theorem narrowIns_op (b : Bool) (ins : IRIns) : (narrowIns b ins).op = ins.op := by
  rw [narrowIns]; split <;> rfl
@[simp] theorem narrowIns_op1 (b : Bool) (ins : IRIns) : (narrowIns b ins).op1 = ins.op1 := by
  rw [narrowIns]; split <;> rfl
@[simp] theorem narrowIns_op2 (b : Bool) (ins : IRIns) : (narrowIns b ins).op2 = ins.op2 := by
  rw [narrowIns]; split <;> rfl

/-- The flag of a reference; a constant has none. -/
def narrowFlag (r : ℕ) : Bool := REF_BIAS ≤ r && buf.narrowable.getD (r - REF_BIAS) false

theorem ir_optNarrow (r : ℕ) :
    (optNarrow buf).ir r = (buf.ir r).map (narrowIns (narrowFlag buf r)) := by
  by_cases h : REF_BIAS ≤ r
  · simp only [IrBuf.ir, if_pos h, optNarrow, List.getElem?_mapIdx, narrowFlag, decide_eq_true h, Bool.true_and]
  · have hid : narrowIns false = id := by funext ins; simp [narrowIns]
    simp only [IrBuf.ir, if_neg h, narrowFlag, decide_eq_false h, Bool.false_and, hid, Option.map_id_apply]
    rfl

@[simp] theorem nins_optNarrow : (optNarrow buf).nins = buf.nins := by
  simp [IrBuf.nins, optNarrow]

theorem constBits_optNarrow (r : ℕ) : (optNarrow buf).constBits r = buf.constBits r :=
  IrBuf.constBits_congr buf (optNarrow buf) rfl rfl r

theorem carg_optNarrow (r : ℕ) : carg (optNarrow buf) r = carg buf r := by
  rw [carg, carg, ir_optNarrow]
  cases buf.ir r with
  | none => rfl
  | some ins => simp

end Buffer

/-! ### Narrowed operations -/

/-- The value is an integer in the 32-bit range, and not negative zero. -/
def IsInt32 (v : LuaValue) (a : ℤ) : Prop := v = .num (.ofInt a) ∧ -2^31 ≤ a ∧ a < 2^31

/-- The exact result of a narrowed operation. -/
def exactOp (op : IROp) (a b : ℤ) : ℤ :=
  match op with
  | .add => a + b
  | .sub => a - b
  | _ => a * b

def isNarrowArith (op : IROp) : Bool := op = .add || op = .sub || op = .mul

/-- The result is a 32-bit integer that a zero with a sign does not stand for. -/
def InRange (op : IROp) (a b : ℤ) : Prop :=
  (-2^31 ≤ exactOp op a b ∧ exactOp op a b < 2^31) ∧ (op = .mul → a * b = 0 → 0 ≤ a ∧ 0 ≤ b)

theorem asInt32_ofInt {a : ℤ} (h : -2^31 ≤ a ∧ a < 2^31) : (F64.ofInt a).asInt32 = .ofInt 32 a := by
  rw [F64.asInt32, F64.asI32_ofInt h.1 h.2]

theorem toInt_ofInt32 {a : ℤ} (h : -2^31 ≤ a ∧ a < 2^31) : (BitVec.ofInt 32 a).toInt = a := by
  rw [BitVec.toInt_ofInt]
  exact Int.bmod_eq_of_le (by omega) (by omega)

/-- The wrapping operation on registers is the exact one modulo `2^32`. -/
theorem kfoldIntop_ofInt {op : IROp} (hop : isNarrowArith op = true) (a b : ℤ) :
    kfoldIntop (.ofInt 32 a) (.ofInt 32 b) op = some (.ofInt 32 (exactOp op a b)) := by
  cases op <;> simp [isNarrowArith] at hop
  · simp [kfoldIntop, exactOp, BitVec.ofInt_add]
  · simp only [kfoldIntop, exactOp, Int.sub_eq_add_neg, BitVec.ofInt_add, BitVec.ofInt_neg,
      BitVec.sub_eq_add_neg]
  · simp [kfoldIntop, exactOp, BitVec.ofInt_mul]

section Arith
variable (pow : F64 → F64 → F64) {op : IROp} {a b : ℤ}

/-- The doubles agree with the exact result in the range. -/
theorem foldNumarith_ofInt (hop : isNarrowArith op = true) (ha : -2^31 ≤ a ∧ a < 2^31)
    (hb : -2^31 ≤ b ∧ b < 2^31) (h : InRange op a b) :
    foldNumarith pow (.ofInt a) (.ofInt b) op = .ofInt (exactOp op a b) := by
  obtain ⟨hr, hz⟩ := h
  cases op <;> simp [isNarrowArith] at hop
  · exact F64.add_ofInt (by omega) (by omega)
  · exact F64.sub_ofInt (by omega) (by omega)
  · exact F64.mul_ofInt (by omega) (by omega) (hz rfl) (by simp only [exactOp] at hr; omega)

/-- Outside the range no 32-bit integer is the double that the operation gives. -/
theorem inRange_of_foldNumarith (hop : isNarrowArith op = true) (ha : -2^31 ≤ a ∧ a < 2^31)
    (hb : -2^31 ≤ b ∧ b < 2^31) {c : ℤ} (hc : -2^31 ≤ c ∧ c < 2^31)
    (h : foldNumarith pow (.ofInt a) (.ofInt b) op = .ofInt c) : InRange op a b := by
  cases op <;> simp [isNarrowArith] at hop
  · have heq := F64.ofInt_inj (by omega) (by omega) ((F64.add_ofInt (by omega) (by omega)).symm.trans h)
    exact ⟨by simp only [exactOp]; omega, by simp⟩
  · have heq := F64.ofInt_inj (by omega) (by omega) ((F64.sub_ofInt (by omega) (by omega)).symm.trans h)
    exact ⟨by simp only [exactOp]; omega, by simp⟩
  · change (F64.ofInt a).mul (F64.ofInt b) = F64.ofInt c at h
    have hz : a * b = 0 → 0 ≤ a ∧ 0 ≤ b := by
      intro h0
      by_contra hn
      rw [F64.mul_ofInt_negZero (by omega) (by omega) h0 (by omega)] at h
      have hbe := congrArg F64.signBit h
      have hze := congrArg F64.isZero h
      rw [F64.isZero_ofInt (by omega), show F64.negZero.isZero = true from rfl] at hze
      rw [F64.signBit_ofInt (by omega), show F64.negZero.signBit = true from rfl] at hbe
      have := of_decide_eq_true hze.symm
      have := of_decide_eq_true hbe.symm
      omega
    rcases Nat.lt_or_ge (a * b).natAbs (2^53) with hlt | hge
    · have heq := F64.ofInt_inj (by omega) (by omega)
        ((F64.mul_ofInt (by omega) (by omega) hz hlt).symm.trans h)
      exact ⟨by simp only [exactOp]; omega, fun _ => hz⟩
    · exfalso
      have he := F64.expo_mul_ofInt (a := a) (b := b) (by omega) (by omega) hge
      rw [h] at he
      by_cases h0 : c = 0
      · subst h0; simp [F64.ofInt, F64.zero, F64.expo] at he
      · rw [F64.expo_ofInt h0 (by omega)] at he
        have := (Nat.le_log2 (n := c.natAbs) (k := 52) (by omega)).mp (by omega)
        omega

end Arith

section Eval
variable {H : Type} (R : Runtime H) {x y : LuaValue} {a b : ℤ}

/-- Retyping an instruction to integers. -/
def retype (ins : IRIns) : IRIns := { ins with t := { ins.t with ty := .int } }

/-- On integer operands the narrowed operation gives the double of the original one exactly in the range. -/
theorem evalArith_retype (hx : IsInt32 x a) (hy : IsInt32 y b) {ins : IRIns}
    (hop : isNarrowArith ins.op = true) (ht : ins.t.ty = .num) :
    evalArith R x y (retype ins) = evalArith R x y ins ↔ InRange ins.op a b := by
  obtain ⟨rfl, ha⟩ := hx
  obtain ⟨rfl, hb⟩ := hy
  have hint : evalArith R (.num (.ofInt a)) (.num (.ofInt b)) (retype ins) =
      some (.num (.ofInt (BitVec.ofInt 32 (exactOp ins.op a b)).toInt)) := by
    simp only [evalArith, retype, LuaValue.f64, asInt32_ofInt ha, asInt32_ofInt hb, kfoldIntop_ofInt hop]
    rfl
  have hnum : evalArith R (.num (.ofInt a)) (.num (.ofInt b)) ins =
      some (.num (foldNumarith R.pow (.ofInt a) (.ofInt b) ins.op)) := by
    rw [evalArith, if_neg (by rw [ht]; decide)]
    rfl
  rw [hint, hnum, Option.some.injEq, LuaValue.num.injEq]
  constructor
  · intro h
    exact inRange_of_foldNumarith R.pow hop ha hb ⟨BitVec.le_toInt _, BitVec.toInt_lt⟩ h.symm
  · intro h
    rw [toInt_ofInt32 h.1, foldNumarith_ofInt R.pow hop ha hb h]

/-- The unsigned comparisons that take the place of the unordered ones need operands of one sign. -/
def SameSign (op : IROp) (a b : ℤ) : Prop :=
  op = .ult ∨ op = .uge ∨ op = .ule ∨ op = .ugt → (0 ≤ a ↔ 0 ≤ b)

theorem evalComp_retype (hx : IsInt32 x a) (hy : IsInt32 y b) {ins : IRIns}
    (hop : ins.op.isComp = true) (hne : ins.op ≠ .eq ∧ ins.op ≠ .ne) (ht : ins.t.ty = .num)
    (hs : SameSign ins.op a b) : evalComp x y (retype ins) = evalComp x y ins := by
  obtain ⟨rfl, ha⟩ := hx
  obtain ⟨rfl, hb⟩ := hy
  have hai := toInt_ofInt32 ha
  have hbi := toInt_ofInt32 hb
  have hsign : (BitVec.ofInt 32 a).toNat = (a % 2^32).toNat := by
    rw [BitVec.toNat_ofInt]; rfl
  have hsign' : (BitVec.ofInt 32 b).toNat = (b % 2^32).toNat := by
    rw [BitVec.toNat_ofInt]; rfl
  rcases ins with ⟨op, t, op1, op2, prev⟩
  simp only at ht hop hne hs
  simp only [evalComp, retype, ht, LuaValue.f64, asInt32_ofInt ha, asInt32_ofInt hb]
  cases op <;> simp [IROp.isComp] at hop hne
  all_goals
    simp only [intCmp, foldNumcmp, F64.lt_ofInt (show a.natAbs < 2^53 by omega) (show b.natAbs < 2^53 by omega),
      F64.lt_ofInt (show b.natAbs < 2^53 by omega) (show a.natAbs < 2^53 by omega),
      F64.le_ofInt (show a.natAbs < 2^53 by omega) (show b.natAbs < 2^53 by omega),
      F64.le_ofInt (show b.natAbs < 2^53 by omega) (show a.natAbs < 2^53 by omega),
      BitVec.slt, BitVec.sle, BitVec.ult, BitVec.ule, hai, hbi, hsign, hsign', Option.some.injEq]
  all_goals
    rw [Bool.eq_iff_iff]
    simp only [decide_eq_true_eq, Bool.not_eq_true', decide_eq_false_iff_not]
    simp [SameSign] at hs
    omega

theorem evalEq_retype (hx : IsInt32 x a) (hy : IsInt32 y b) : evalEq x y .int = evalEq x y .num := by
  obtain ⟨rfl, ha⟩ := hx
  obtain ⟨rfl, hb⟩ := hy
  rw [evalEq, evalEq, if_neg (by decide), if_pos rfl]
  change decide (LuaValue.num (.ofInt a) = LuaValue.num (.ofInt b)) = (F64.ofInt a).feq (F64.ofInt b)
  rw [F64.feq_ofInt_ofInt (by omega) (by omega), decide_eq_decide, LuaValue.num.injEq]
  exact ⟨F64.ofInt_inj (by omega) (by omega), fun h => by rw [h]⟩

end Eval

/-! ### Narrowed runs -/

section Runs
variable {H : Type} (R : Runtime H) (tr : Trace)

/-- The state before a retyped operation: its operands are 32-bit integers, an arithmetic result stays in
the range, and an unordered comparison is between numbers of one sign. -/
def NarrowOk (m : Machine H) : Prop :=
  ∀ ins, tr.ir.ir m.r = some ins → narrowFlag tr.ir m.r = true → ins.t.ty = .num →
    isNarrowArith ins.op = true ∨ ins.op.isComp = true →
    ∃ x y a b, readRef tr.ir m.env ins.op1 = some x ∧ readRef tr.ir m.env ins.op2 = some y ∧
      IsInt32 x a ∧ IsInt32 y b ∧ (isNarrowArith ins.op = true → InRange ins.op a b) ∧ SameSign ins.op a b

/-- The pass keeps the result of the arithmetic instruction at hand, whatever its operands are. -/
def KeepsValue (m : Machine H) : Prop :=
  ∀ ins ins', tr.ir.ir m.r = some ins → tr.narrow.ir.ir m.r = some ins' → isNarrowArith ins.op = true →
    evalIns R tr.narrow.ir m ins' = evalIns R tr.ir m ins

theorem narrowIns_eq {f : Bool} {ins : IRIns} (h : ¬ (f = true ∧ ins.t.ty = .num)) : narrowIns f ins = ins := by
  rcases ins with ⟨op, ⟨ty, mark, isphi, guard⟩, op1, op2, prev⟩
  rw [narrowIns]
  split
  · rename_i hc
    simp only [Bool.and_eq_true, Bool.or_eq_true, decide_eq_true_eq] at hc
    obtain rfl : ty = .int := hc.2.resolve_left fun h' => h ⟨hc.1, h'⟩
    rfl
  · rfl

theorem narrowIns_retype {ins : IRIns} (ht : ins.t.ty = .num) : narrowIns true ins = retype ins := by
  rw [narrowIns, if_pos (by simp [ht])]
  rfl

theorem narrow_ir : tr.narrow.ir = optNarrow tr.ir := rfl

theorem evalIns_arith {buf : IrBuf} {m : Machine H} (ins : IRIns) (hop : isNarrowArith ins.op = true) :
    evalIns R buf m ins = (readRef buf m.env ins.op1).bind fun x => (readRef buf m.env ins.op2).bind fun y =>
      (evalArith R x y ins).map (Effect.write m.world) := by
  rcases ins with ⟨op, t, op1, op2, prev⟩
  simp only [isNarrowArith] at hop
  cases op <;> simp at hop
  all_goals
    simp only [evalIns]
    cases readRef buf m.env op1 <;> cases readRef buf m.env op2 <;> simp
    cases evalArith R _ _ _ <;> rfl

/-- One narrowed instruction does what the original one does. -/
theorem evalIns_narrow {m : Machine H} {ins : IRIns} (hi : tr.ir.ir m.r = some ins) (h : NarrowOk tr m) :
    evalIns R tr.narrow.ir m (narrowIns (narrowFlag tr.ir m.r) ins) = evalIns R tr.ir m ins := by
  rw [narrow_ir, evalIns_congr R (constBits_optNarrow tr.ir) (carg_optNarrow tr.ir)]
  by_cases hf : narrowFlag tr.ir m.r = true ∧ ins.t.ty = .num
  · obtain ⟨hf, ht⟩ := hf
    rw [hf, narrowIns_retype ht]
    have hb : REF_BIAS ≤ m.r := by
      by_contra hc
      simp [narrowFlag, hc] at hf
    have hg : tr.ir.narrowable.getD (m.r - REF_BIAS) false = true := by
      simpa [narrowFlag, hb] using hf
    have hi' : tr.ir.ins[m.r - REF_BIAS]? = some ins := by rwa [IrBuf.ir, if_pos hb] at hi
    obtain ⟨pre, hn⟩ := narrowable_cases tr.ir hi' hg
    by_cases ha : isNarrowArith ins.op = true
    · obtain ⟨x, y, a, b, hx, hy, hxa, hyb, hr, -⟩ := h ins hi hf ht (.inl ha)
      rw [evalIns_arith R (retype ins) ha, evalIns_arith R ins ha]
      simp only [retype, hx, hy, Option.bind_some]
      rw [show evalArith R x y { ins with t := { ins.t with ty := .int } } = evalArith R x y ins from
        (evalArith_retype R hxa hyb ha ht).mpr (hr ha)]
    by_cases hc : ins.op.isComp = true
    · obtain ⟨x, y, a, b, hx, hy, hxa, hyb, -, hs⟩ := h ins hi hf ht (.inr hc)
      have heq := evalEq_retype hxa hyb
      have hcomp := fun hne => evalComp_retype hxa hyb hc hne ht hs
      rcases ins with ⟨op, t, op1, op2, prev⟩
      simp only at ht hc hx hy
      cases op <;> simp [IROp.isComp] at hc
      all_goals
        simp only [evalIns, retype, hx, hy, ht, heq, Option.bind_eq_bind, Option.bind_some]
        try rw [← hcomp (by simp)]; rfl
    · rcases ins with ⟨op, t, op1, op2, prev⟩
      simp only at ht ha hc hn
      cases op <;> simp [isNarrowArith, IROp.isComp, IrBuf.narrowableIns, ht] at ha hc hn
      all_goals rfl
  · rw [narrowIns_eq hf]

theorem phis_narrow (l : ℕ) : tr.narrow.phis l = tr.phis l := by
  have hfrom : ∀ k, tr.narrow.phisFrom l k = tr.phisFrom l k := by
    intro k
    induction k with
    | zero => rfl
    | succ k ih =>
      simp only [Trace.phisFrom, narrow_ir, ir_optNarrow]
      cases tr.ir.ir (REF_BIAS + k) with
      | none => rfl
      | some ins => simp only [Option.map_some, narrowIns_op, narrowIns_op1, narrowIns_op2, ih]
  rw [Trace.phis, Trace.phis, hfrom]
  simp [narrow_ir, optNarrow]

/-- One step of the narrowed trace is one of the original trace. -/
theorem step_narrow {m : Machine H} (h : NarrowOk tr m) : tr.narrow.step R m = tr.step R m := by
  have hk := constBits_optNarrow tr.ir
  simp only [Trace.step, narrow_ir, nins_optNarrow, ir_optNarrow]
  by_cases hr : m.r < tr.ir.nins
  · simp only [if_pos hr]
    cases hi : tr.ir.ir m.r with
    | none => rfl
    | some ins =>
      have he := evalIns_narrow R tr hi h
      rw [narrow_ir] at he
      simp only [Option.map_some, Option.bind_eq_bind, Option.bind_some, he]
      have hx : ∀ c idx gc, { tr with ir := optNarrow tr.ir }.exitSnapshot R c idx gc = tr.exitSnapshot R c idx gc :=
        Trace.exitSnapshot_congr hk
      simp only [Trace.narrow, hx]
      rfl
  · simp only [if_neg hr]
    exact Trace.tail_congr hk rfl (phis_narrow tr) m

/-- A run of the narrowed trace in which every retyped operation meets its condition. -/
def NarrowRuns : Machine H → Machine H → Prop :=
  Relation.ReflTransGen fun c c' => NarrowOk tr c ∧ tr.narrow.step R c = some (.run c')

theorem narrowRuns_runs {m c : Machine H} (h : NarrowRuns R tr m c) : tr.Runs R m c := by
  induction h with
  | refl => exact .refl
  | tail _ hs ih => exact ih.tail (by rw [← step_narrow R tr hs.1]; exact hs.2)

theorem keepsValue_of_ok {m : Machine H} (h : NarrowOk tr m) : KeepsValue R tr m := by
  intro ins ins' hi hi' _
  rw [narrow_ir, ir_optNarrow, hi, Option.map_some, Option.some.injEq] at hi'
  rw [← hi']
  exact evalIns_narrow R tr hi h

/-- On integer operands a retyped operation keeps its value exactly in the range. -/
theorem keepsValue_iff {m : Machine H} {ins : IRIns} {x y : LuaValue} {a b : ℤ} (hi : tr.ir.ir m.r = some ins)
    (hf : narrowFlag tr.ir m.r = true) (ht : ins.t.ty = .num) (hop : isNarrowArith ins.op = true)
    (hx : readRef tr.ir m.env ins.op1 = some x) (hy : readRef tr.ir m.env ins.op2 = some y)
    (hxa : IsInt32 x a) (hyb : IsInt32 y b) : KeepsValue R tr m ↔ InRange ins.op a b := by
  have hn : tr.narrow.ir.ir m.r = some (retype ins) := by
    rw [narrow_ir, ir_optNarrow, hi, Option.map_some, hf, narrowIns_retype ht]
  have heval : ∀ i : IRIns, i.op = ins.op → i.op1 = ins.op1 → i.op2 = ins.op2 →
      evalIns R tr.ir m i = (evalArith R x y i).map (Effect.write m.world) := by
    intro i h h1 h2
    rw [evalIns_arith R i (by rw [h]; exact hop), h1, h2, hx, hy]
    rfl
  constructor
  · intro h
    have h' := h ins (retype ins) hi hn hop
    rw [narrow_ir, evalIns_congr R (constBits_optNarrow tr.ir) (carg_optNarrow tr.ir),
      heval (retype ins) rfl rfl rfl, heval ins rfl rfl rfl] at h'
    rw [← evalArith_retype R hxa hyb hop ht]
    cases ha : evalArith R x y (retype ins) <;> cases hb : evalArith R x y ins <;>
      simp [ha, hb, Effect.write] at h' ⊢
    exact h'
  · intro h ins₂ ins' hi₂ hi' _
    rw [hi, Option.some.injEq] at hi₂
    rw [hn, Option.some.injEq] at hi'
    subst hi₂ hi'
    rw [narrow_ir, evalIns_congr R (constBits_optNarrow tr.ir) (carg_optNarrow tr.ir),
      heval (retype ins) rfl rfl rfl, heval ins rfl rfl rfl, (evalArith_retype R hxa hyb hop ht).mpr h]

end Runs

section Example

/-- `i + 1` on an integer slot. -/
def addOne : Trace where
  traceno := 1
  ir :=
    let (buf, k) := (IrBuf.new 0 0).kint 1
    let (buf, i) := buf.emitIns (.new .sload (guarded .int) 2 0)
    (buf.emitIns (.new .add (plain .num) i k)).1
  snap := [⟨0, REF_FIRST, 0, 2, 2, 0⟩]
  snapmap := []
  linktype := .none
  link := 0

/-- The entry of a trace whose stack slots all hold `i`. -/
def entryWith (i : ℤ) : Machine Unit where
  r := REF_FIRST
  env _ := .num .zero
  world := ⟨fun _ => .num (.ofInt i), fun _ => none, ()⟩
  cbase := 2
  clock := 0

/-- The state before the addition. -/
def atAdd (i : ℤ) : Machine Unit := commit (entryWith i) (.write (entryWith i).world (.num (.ofInt i)))

theorem addOne_step (i : ℤ) : addOne.narrow.step .bare (entryWith i) = some (.run (atAdd i)) := by
  have hi : addOne.narrow.ir.ir (entryWith i).r = some ⟨.sload, guarded .int, 2, 0, 0⟩ := by
    change addOne.narrow.ir.ir REF_FIRST = _
    decide
  have hn : (entryWith i).r < addOne.narrow.ir.nins := by
    change REF_FIRST < addOne.narrow.ir.nins
    decide
  rw [Trace.step, if_pos hn, hi]
  rfl

end Example

end LuajitRs.Ir
