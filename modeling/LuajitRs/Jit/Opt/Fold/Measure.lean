import LuajitRs.Jit.Opt.Fold.Buffer

/-! The retry loop of the fold engine ends. An opcode has a rank, and rules replace it by one of a smaller rank, or
they take a negation away, turn a subtraction into an addition, or swap the operands into their order. -/
namespace LuajitRs.Ir

/-- How many negations lie on top of each other at a reference. -/
def negDepth (ins : List IRIns) (r : ℕ) : ℕ :=
  match ins[r - REF_BIAS]? with
  | some i => if REF_BIAS ≤ r ∧ i.op = .neg ∧ i.op1 < r then negDepth ins i.op1 + 1 else 0
  | none => 0
termination_by r

/-- The expensive opcodes, which rules replace by cheaper ones. -/
def IROp.foldRank : IROp → ℕ
  | div | pow => 3
  | mul => 2
  | mod | add | sub | mulov => 1
  | _ => 0

/-- What rules change without a change of rank. -/
def foldRest (ins : List IRIns) (fins : IRIns) : ℕ :=
  4 * (negDepth ins fins.op1 + negDepth ins fins.op2) + (if fins.op = .sub then 2 else 0) +
    if fins.op1 < fins.op2 then 1 else 0

/-- The measure of a pass. -/
def foldMeasure (ins : List IRIns) (fins : IRIns) : ℕ :=
  fins.op.foldRank * (8 * ins.length + 4) + foldRest ins fins

section Measure
variable {ins : List IRIns} {fins fins' : IRIns} {r : ℕ}

theorem negDepth_le_sub (ins : List IRIns) (r : ℕ) : negDepth ins r ≤ r + 1 - REF_BIAS := by
  induction r using Nat.strong_induction_on with
  | h r ih =>
    rw [negDepth]
    split
    · split
      · next i _ h =>
        have := ih i.op1 h.2.2
        omega
      · exact Nat.zero_le _
    · exact Nat.zero_le _

/-- No more negations lie on top of each other than there are instructions. -/
theorem negDepth_le (ins : List IRIns) (r : ℕ) : negDepth ins r ≤ ins.length := by
  by_cases hr : r - REF_BIAS < ins.length
  · have := negDepth_le_sub ins r
    omega
  · rw [negDepth, List.getElem?_eq_none (Nat.le_of_not_lt hr)]
    exact Nat.zero_le _

theorem negDepth_const (hr : r < REF_BIAS) : negDepth ins r = 0 := by
  rw [negDepth]
  split
  · rw [if_neg fun h => absurd h.1 (Nat.not_le.mpr hr)]
  · rfl

theorem foldRest_lt (ins : List IRIns) (fins : IRIns) : foldRest ins fins < 8 * ins.length + 4 := by
  have h1 := negDepth_le ins fins.op1
  have h2 := negDepth_le ins fins.op2
  rw [foldRest]
  split <;> split <;> omega

theorem foldMeasure_lt_of_rank (h : fins'.op.foldRank < fins.op.foldRank) :
    foldMeasure ins fins' < foldMeasure ins fins := by
  have hrank : (fins'.op.foldRank + 1) * (8 * ins.length + 4) ≤ fins.op.foldRank * (8 * ins.length + 4) :=
    Nat.mul_le_mul_right _ h
  have hrest := foldRest_lt ins fins'
  rw [foldMeasure, foldMeasure]
  rw [Nat.succ_mul] at hrank
  omega

theorem foldMeasure_lt_of_rest (h : fins'.op.foldRank = fins.op.foldRank) (hrest : foldRest ins fins' < foldRest ins fins) :
    foldMeasure ins fins' < foldMeasure ins fins := by
  rw [foldMeasure, foldMeasure, h]
  exact Nat.add_lt_add_left hrest _

end Measure

namespace IrBuf

/-- A run of operations and patches. -/
def Evolves : IrBuf → IrBuf → Prop := Relation.ReflTransGen fun b c =>
  (∃ o : BufOp, o.Refers b ∧ o.apply b = some c) ∨ ∃ r f, (∀ ins, Patched ins (f ins)) ∧ c = b.modify r f

section Evolves
variable {b c : IrBuf} {r : ℕ} {ins fins : IRIns}

theorem Evolves.op (o : BufOp) (hr : o.Refers b) (happly : o.apply b = some c) : b.Evolves c :=
  .single (.inl ⟨o, hr, happly⟩)

theorem Foldable.evolves (h : b.Foldable) (hrun : b.Evolves c) : c.Foldable := by
  induction hrun with
  | refl => exact h
  | tail _ hstep ih =>
    obtain ⟨o, hr, happly⟩ | ⟨r, f, hf, rfl⟩ := hstep
    · exact ih.step hr happly
    · exact ih.modify hf

theorem Foldable.negDepth (h : b.Foldable) (hi : b.ir r = some ins) (hop : ins.op = .neg) :
    negDepth b.ins r = negDepth b.ins ins.op1 + 1 ∧ ins.op1 < r := by
  have hr : REF_BIAS ≤ r := by
    by_contra hr
    rw [ir, if_neg hr] at hi
    have hconst := (h.consts ins (List.mem_of_getElem? hi)).1
    rw [hop] at hconst
    cases hconst
  rw [ir, if_pos hr] at hi
  have hlt := h.neg _ ins hi hop
  rw [Nat.add_sub_cancel' hr] at hlt
  refine ⟨?_, hlt⟩
  rw [Ir.negDepth, hi]
  exact if_pos ⟨hr, hop, hlt⟩

end Evolves
end IrBuf

/-! ### What comes out of a rule -/

namespace Pass

/-- A pass over an instruction of the buffer's. -/
structure Ok (p : Pass) : Prop where
  foldable : p.buf.Foldable
  refers : p.buf.Refers p.fins
  left : ∀ l, p.left = some l → p.buf.ir p.fins.op1 = some l
  right : ∀ r, p.right = some r → p.buf.ir p.fins.op2 = some r

/-- A smaller instruction over the same instructions. -/
structure Lowers (p : Pass) (c : IrBuf) (fins : IRIns) : Prop where
  ins : c.ins = p.buf.ins
  lt : foldMeasure p.buf.ins fins < foldMeasure p.buf.ins p.fins
  refers : p.buf.Refers fins

/-- A result that a rule may have; `S` is that a nested emission has no pass that is left. -/
structure Fine (p : Pass) (S : Prop) (res : FoldResult) : Prop where
  spent : res = .error .spent → S
  evolves : ∀ step c, res = .ok (step, c) → p.buf.Evolves c
  lowers : ∀ fins c, res = .ok (.retry fins, c) → p.Lowers c fins
  same : ∀ c, res = .ok (.cse, c) → c = p.buf

/-- A rule that has such a result where it matches. -/
def Sound (p : Pass) (S : Prop) (o : Option FoldResult) : Prop := ∀ res, o = some res → p.Fine S res

section Fine
variable {p : Pass} {S : Prop}

theorem Fine.error {e : FoldErr} (he : e = .spent → S) : p.Fine S (.error e) := by
  refine ⟨?_, ?_, ?_, ?_⟩
  · rintro ⟨⟩
    exact he rfl
  · rintro _ _ ⟨⟩
  · rintro _ _ ⟨⟩
  · rintro _ ⟨⟩

theorem Fine.panic : p.Fine S (.error .panic) := .error (by rintro ⟨⟩)

theorem Fine.gfail : p.Fine S (.error .gfail) := .error (by rintro ⟨⟩)

/-- The pass is over. -/
theorem Fine.done {step : Step} {c : IrBuf} (hc : p.buf.Evolves c) (hstep : ∀ fins, step ≠ .retry fins)
    (hcse : step = .cse → c = p.buf) : p.Fine S (.ok (step, c)) := by
  refine ⟨?_, ?_, ?_, ?_⟩
  · rintro ⟨⟩
  · rintro _ _ ⟨⟩
    exact hc
  · rintro fins _ ⟨⟩
    exact absurd rfl (hstep fins)
  · rintro _ ⟨⟩
    exact hcse rfl

theorem Fine.ref (r : ℕ) : p.Fine S (p.ref r) := .done .refl (by rintro _ ⟨⟩) (by rintro ⟨⟩)

theorem Fine.cse : p.Fine S p.cse := .done .refl (by rintro _ ⟨⟩) fun _ => rfl

theorem Fine.int (k : BitVec 32) : p.Fine S (p.int k) :=
  .done (.op (.constant (.int k)) trivial rfl) (by rintro _ ⟨⟩) (by rintro ⟨⟩)

theorem Fine.num (x : F64) : p.Fine S (p.num x) :=
  .done (.op (.constant (.num x)) trivial rfl) (by rintro _ ⟨⟩) (by rintro ⟨⟩)

theorem Fine.condfold (cond : Bool) : p.Fine S (p.condfold cond) := by
  rw [Pass.condfold]
  split
  · exact .done .refl (by rintro _ ⟨⟩) (by rintro ⟨⟩)
  · exact .gfail

theorem Fine.ite {c : Prop} [Decidable c] {res res' : FoldResult} (h : p.Fine S res) (h' : p.Fine S res') :
    p.Fine S (if c then res else res') := by
  split
  · exact h
  · exact h'

theorem Fine.phibarrier {res : FoldResult} (ins : IRIns) (h : p.Fine S res) : p.Fine S (p.phibarrier ins res) := by
  rw [Pass.phibarrier]
  split
  · exact .cse
  · exact h

theorem knumVal_error {b : IrBuf} {r : ℕ} {e : FoldErr} (h : b.knumVal r = .error e) : e = .panic := by
  rw [IrBuf.knumVal] at h
  split at h
  · exact (Except.error.inj h).symm
  · split at h <;> cases h
    rfl

/-- Go on with the payload of a constant. -/
theorem Fine.knumVal {r : ℕ} {f : F64 → FoldResult} (h : ∀ x, p.Fine S (f x)) :
    p.Fine S ((p.buf.knumVal r).bind f) := by
  cases hx : p.buf.knumVal r with
  | error e =>
    rw [knumVal_error hx]
    exact .panic
  | ok x => exact h x

theorem Fine.retry {fins : IRIns} (h : p.Lowers p.buf fins) : p.Fine S (p.retry fins) := by
  refine ⟨?_, ?_, ?_, ?_⟩
  · rintro ⟨⟩
  · rintro _ _ ⟨⟩
    exact .refl
  · rintro _ _ ⟨⟩
    exact h
  · rintro _ ⟨⟩

/-- Go on with a new constant. -/
theorem Fine.retryConstant (hp : p.Ok) (k : Interned) (fins : ℕ → IRIns)
    (h : ∀ r, r < REF_BIAS → foldMeasure p.buf.ins (fins r) < foldMeasure p.buf.ins p.fins ∧ p.buf.Refers (fins r)) :
    p.Fine S (.ok (.retry (fins (p.buf.constant k).2), (p.buf.constant k).1)) := by
  obtain ⟨-, hins, hlt⟩ := hp.foldable.constant k
  refine ⟨?_, ?_, ?_, ?_⟩
  · rintro ⟨⟩
  · rintro _ _ ⟨⟩
    exact .op (.constant k) trivial rfl
  · rintro _ _ ⟨⟩
    exact ⟨hins, (h _ hlt).1, (h _ hlt).2⟩
  · rintro _ ⟨⟩

theorem Sound.none : p.Sound S none := by
  rintro _ ⟨⟩

theorem Sound.some {res : FoldResult} (h : p.Fine S res) : p.Sound S (some res) := by
  rintro _ ⟨⟩
  exact h

theorem Sound.bind {α : Type} {o : Option α} {f : α → Option FoldResult} (h : ∀ a, o = .some a → p.Sound S (f a)) :
    p.Sound S (o.bind f) := by
  intro res hres
  obtain ⟨a, ha, hres⟩ := Option.bind_eq_some_iff.mp hres
  exact h a ha res hres

theorem Sound.ite {c : Prop} [Decidable c] {o o' : Option FoldResult} (h : c → p.Sound S o) (h' : ¬ c → p.Sound S o') :
    p.Sound S (if c then o else o') := by
  split
  · next hc => exact h hc
  · next hc => exact h' hc

theorem Sound.withRightNum {rule : F64 → Option FoldResult} (h : ∀ x, p.Sound S (rule x)) :
    p.Sound S (p.withRightNum rule) := by
  rw [Pass.withRightNum]
  split
  · split
    · exact h _
    · next e he =>
      rw [knumVal_error he]
      exact .some .panic
  · exact .none

theorem Sound.knumPair {k : F64 → F64 → FoldResult} (h : ∀ x y, p.Fine S (k x y)) : p.Sound S (knumPair p k) :=
  .ite (fun _ => .some (.knumVal fun x => .knumVal fun y => h x y)) fun _ => .none

end Fine

/-! ### Rules that end a pass -/

section Rules
variable {p : Pass} {S : Prop} {pow : F64 → F64 → F64}

theorem kfoldInt_fine (x y : BitVec 32) : p.Fine S (kfoldInt p x y) := by
  rw [kfoldInt]
  split
  · exact .int _
  · exact .panic

theorem kfoldNumarith_sound : p.Sound S (kfoldNumarith pow p) := .knumPair fun _ _ => .num _

theorem kfoldIntarith_sound : p.Sound S (kfoldIntarith p) := .bind fun x _ => .bind fun y _ => .some (kfoldInt_fine x y)

theorem kfoldIntmod_sound : p.Sound S (kfoldIntmod p) :=
  .bind fun x _ => .bind fun y _ => .ite (fun _ => .some (kfoldInt_fine x y)) fun _ => .none

theorem kfoldNeg_sound : p.Sound S (kfoldNeg p) := by
  refine .ite (fun _ => .some (.knumVal fun _ => .num _)) fun _ => ?_
  rw [Option.map_eq_bind]
  exact .bind fun x _ => .some (kfoldInt_fine x 0)

theorem kfoldNumabs_sound : p.Sound S (kfoldNumabs p) := .ite (fun _ => .some (.knumVal fun _ => .num _)) fun _ => .none

theorem kfoldIntovarith_sound : p.Sound S (kfoldIntovarith p) :=
  .bind fun _ _ => .bind fun _ _ => .some (.ite .gfail (.int _))

theorem kfoldBnot_sound : p.Sound S (kfoldBnot p) := by
  rw [kfoldBnot, Option.map_eq_bind]
  exact .bind fun x _ => .some (.int _)

theorem kfoldBswap_sound : p.Sound S (kfoldBswap p) := by
  rw [kfoldBswap, Option.map_eq_bind]
  exact .bind fun x _ => .some (.int _)

theorem simplifyIntaddK_sound : p.Sound S (simplifyIntaddK p) :=
  .bind fun _ _ => .ite (fun _ => .some (.ref _)) fun _ => .none

theorem simplifyNumsubK_sound : p.Sound S (simplifyNumsubK p) :=
  .withRightNum fun _ => .ite (fun _ => .some (.ref _)) fun _ => .none

theorem shortcutLeftleft_sound : p.Sound S (shortcutLeftleft p) := .bind fun l _ => .some (.phibarrier l (.ref _))

theorem simplifyIntaddovK_sound : p.Sound S (simplifyIntaddovK p) :=
  .bind fun _ _ => .ite (fun _ => .some (.ref _)) fun _ => .none

theorem commDup_sound : p.Sound S (commDup p) := .ite (fun _ => .some (.ref _)) fun _ => .none

theorem commBxor_sound : p.Sound S (commBxor p) := .ite (fun _ => .some (.int _)) fun _ => .none

theorem kfoldNumcomp_sound : p.Sound S (kfoldNumcomp p) := by
  refine .knumPair fun x y => ?_
  split
  · exact .condfold _
  · exact .panic

theorem kfoldKref_sound : p.Sound S (kfoldKref p) := .ite (fun _ => .some (.condfold _)) fun _ => .none

theorem kfoldIntcomp_sound : p.Sound S (kfoldIntcomp p) := .bind fun _ _ => .bind fun _ _ => .some (.condfold _)

theorem kfoldIntcomp0_sound : p.Sound S (kfoldIntcomp0 p) :=
  .bind fun _ _ => .ite (fun _ => .some (.condfold _)) fun _ => .none

theorem foldBitRange_sound : p.Sound S (foldBitRange p) :=
  .ite (fun _ => .withRightNum fun _ => .ite (fun _ => .some (.condfold _)) fun _ => .none) fun _ => .none

theorem commEqual_sound : p.Sound S (commEqual p) := .ite (fun _ => .some (.condfold _)) fun _ => .none

theorem commComp_sound : p.Sound S (commComp p) := .ite (fun _ => .some (.condfold _)) fun _ => .none

/-! ### Rules that ask for another pass -/

/-- The operand of a negation on the left, one negation less deep. -/
theorem Ok.leftNeg (hp : p.Ok) {l : IRIns} (hl : p.left.filter (·.op = .neg) = some l) :
    negDepth p.buf.ins p.fins.op1 = negDepth p.buf.ins l.op1 + 1 ∧ l.op1 < p.buf.nins := by
  obtain ⟨hleft, hop⟩ := Option.filter_eq_some_iff.mp hl
  obtain ⟨hdepth, hlt⟩ := hp.foldable.negDepth (hp.left l hleft) (of_decide_eq_true hop)
  exact ⟨hdepth, hlt.trans hp.refers.below.1⟩

theorem Ok.rightNeg (hp : p.Ok) {r : IRIns} (hr : p.right.filter (·.op = .neg) = some r) :
    negDepth p.buf.ins p.fins.op2 = negDepth p.buf.ins r.op1 + 1 ∧ r.op1 < p.buf.nins := by
  obtain ⟨hright, hop⟩ := Option.filter_eq_some_iff.mp hr
  obtain ⟨hdepth, hlt⟩ := hp.foldable.negDepth (hp.right r hright) (of_decide_eq_true hop)
  exact ⟨hdepth, hlt.trans hp.refers.below.2⟩

theorem const_lt_nins {r : ℕ} (hr : r < REF_BIAS) : r < p.buf.nins := hr.trans_le (Nat.le_add_right _ _)

theorem simplifyNumaddNegx_sound (hp : p.Ok) (hop : p.fins.op = .add) : p.Sound S (simplifyNumaddNegx p) := by
  refine .bind fun l hl => .some (.phibarrier l (.retry ⟨rfl, ?_, ⟨⟨hp.refers.below.2, (hp.leftNeg hl).2⟩, rfl⟩⟩))
  refine foldMeasure_lt_of_rest (by rw [hop]; rfl) ?_
  have hdepth := (hp.leftNeg hl).1
  simp only [foldRest, hop, reduceCtorEq, if_true, if_false]
  split <;> split <;> omega

theorem simplifyNumaddXneg_sound (hp : p.Ok) (hop : p.fins.op = .add) : p.Sound S (simplifyNumaddXneg p) := by
  refine .bind fun r hr => .some (.phibarrier r (.retry ⟨rfl, ?_, ⟨⟨hp.refers.below.1, (hp.rightNeg hr).2⟩, rfl⟩⟩))
  refine foldMeasure_lt_of_rest (by rw [hop]; rfl) ?_
  have hdepth := (hp.rightNeg hr).1
  simp only [foldRest, hop, reduceCtorEq, if_true, if_false]
  split <;> split <;> omega

theorem simplifyNumsubNegk_sound (hp : p.Ok) (hop : p.fins.op = .sub) : p.Sound S (simplifyNumsubNegk p) := by
  refine .bind fun l hl => .ite (fun _ => .some (.phibarrier l (.knumVal fun k => ?_))) fun _ => .none
  obtain ⟨hdepth, hlt⟩ := hp.leftNeg hl
  refine .retryConstant hp (.num k.neg) (fun r => { p.fins with op1 := r, op2 := l.op1 }) fun r hr =>
    ⟨foldMeasure_lt_of_rest rfl ?_, ⟨const_lt_nins hr, hlt⟩, hp.refers.op⟩
  simp only [foldRest, negDepth_const hr]
  split <;> split <;> split <;> omega

theorem simplifyNumsubXneg_sound (hp : p.Ok) (hop : p.fins.op = .sub) : p.Sound S (simplifyNumsubXneg p) := by
  refine .bind fun r hr => .some (.phibarrier r (.retry ⟨rfl, ?_, ⟨⟨hp.refers.below.1, (hp.rightNeg hr).2⟩, rfl⟩⟩))
  refine foldMeasure_lt_of_rest (by rw [hop]; rfl) ?_
  have hdepth := (hp.rightNeg hr).1
  simp only [foldRest, hop, reduceCtorEq, if_true, if_false]
  split <;> split <;> omega

theorem simplifyIntsubK_sound (hp : p.Ok) (hop : p.fins.op = .sub) : p.Sound S (simplifyIntsubK p) := by
  refine .bind fun k _ => .some ?_
  split
  · exact .ref _
  refine .retryConstant hp (.int (-k)) (fun r => { p.fins with op := .add, op2 := r }) fun r hr =>
    ⟨foldMeasure_lt_of_rest (by rw [hop]; rfl) ?_, ⟨hp.refers.below.1, const_lt_nins hr⟩, rfl⟩
  simp only [foldRest, hop, negDepth_const hr, reduceCtorEq, if_true, if_false]
  split <;> split <;> omega

theorem simplifyIntsubKleft_sound (hp : p.Ok) (hop : p.fins.op = .sub) : p.Sound S (simplifyIntsubKleft p) := by
  refine .bind fun k _ => .ite (fun _ => .some (.retry ⟨rfl, foldMeasure_lt_of_rank ?_, ⟨?_, rfl⟩⟩)) fun _ => .none
  · rw [hop]
    exact Nat.lt_succ_self _
  · exact ⟨hp.refers.below.2, hp.refers.below.2⟩

theorem simplifyNummulK_sound (hp : p.Ok) (hop : p.fins.op = .mul) : p.Sound S (simplifyNummulK p) := by
  refine .withRightNum fun n => .ite (fun _ => .some (.ref _)) fun _ => .ite (fun _ => .some (.retry ?_)) fun _ => .none
  refine ⟨rfl, foldMeasure_lt_of_rank ?_, ⟨hp.refers.below.1, hp.refers.below.1⟩, rfl⟩
  rw [hop]
  exact Nat.lt_succ_self _

theorem simplifyIntmulK32_sound (hp : p.Ok) (hop : p.fins.op = .mul) : p.Sound S (simplifyIntmulK32 p) := by
  refine .bind fun k _ => .ite (fun _ => .some (.ref _)) fun _ => .ite (fun _ => .some (.ref _)) fun _ =>
    .ite (fun _ => .some ?_) fun _ => .none
  refine .retryConstant hp (.int (.ofNat 32 k.toNat.log2)) (fun r => { p.fins with op := .bshl, op2 := r })
    fun r hr => ⟨foldMeasure_lt_of_rank ?_, ⟨hp.refers.below.1, const_lt_nins hr⟩, rfl⟩
  rw [hop]
  exact Nat.zero_lt_succ _

theorem simplifyNumdivK_sound (hp : p.Ok) (hop : p.fins.op = .div) : p.Sound S (simplifyNumdivK p) := by
  refine .withRightNum fun n => .ite (fun _ => .some (.ref _)) fun _ => .ite (fun _ => .some ?_) fun _ => .none
  refine .retryConstant hp (.num (.ofFields n.signBit (0x7fe - n.expo) 0))
    (fun r => { p.fins with op := .mul, op2 := r })
    fun r hr => ⟨foldMeasure_lt_of_rank ?_, ⟨hp.refers.below.1, const_lt_nins hr⟩, rfl⟩
  rw [hop]
  exact Nat.lt_succ_self _

theorem simplifyIntmodK_sound (hp : p.Ok) (hop : p.fins.op = .mod) : p.Sound S (simplifyIntmodK p) := by
  refine .bind fun k _ => .ite (fun _ => .some ?_) fun _ => .none
  refine .retryConstant hp (.int (k - 1)) (fun r => { p.fins with op := .band, op2 := r })
    fun r hr => ⟨foldMeasure_lt_of_rank ?_, ⟨hp.refers.below.1, const_lt_nins hr⟩, rfl⟩
  rw [hop]
  exact Nat.lt_succ_self _

theorem simplifyIntmulK_sound (hp : p.Ok) (hop : p.fins.op = .mulov) : p.Sound S (simplifyIntmulK p) := by
  refine .bind fun k _ => .ite (fun _ => .some (.ref _)) fun _ => .ite (fun _ => .some (.ref _)) fun _ =>
    .ite (fun _ => .some (.retry ?_)) fun _ => .none
  refine ⟨rfl, foldMeasure_lt_of_rank ?_, ⟨hp.refers.below.1, hp.refers.below.1⟩, rfl⟩
  rw [hop]
  exact Nat.lt_succ_self _

/-- Swapped operands are in order. -/
theorem foldRest_swap {op : IROp} (hop : op = .sub ↔ p.fins.op = .sub) (hlt : p.fins.op1 < p.fins.op2) :
    foldRest p.buf.ins { p.fins with op := op, op1 := p.fins.op2, op2 := p.fins.op1 } < foldRest p.buf.ins p.fins := by
  simp only [foldRest, hop, if_pos hlt, if_neg hlt.asymm]
  omega

theorem commSwap_sound (hp : p.Ok) : p.Sound S (commSwap p) := by
  refine .ite (fun hlt => .some (.retry ⟨rfl, ?_, ⟨hp.refers.below.2, hp.refers.below.1⟩, hp.refers.op⟩)) fun _ => .none
  exact foldMeasure_lt_of_rest rfl (foldRest_swap Iff.rfl hlt)

theorem commSwapComp_sound (hp : p.Ok) : p.Sound S (commSwapComp p) := by
  have hswap : ∀ o : IROp, o.swapped.foldRank = o.foldRank ∧ (o.swapped = .sub ↔ o = .sub) ∧
      o.swapped.isConst = o.isConst := by
    intro o
    cases o <;> exact ⟨rfl, by decide, rfl⟩
  obtain ⟨hrank, hsub, hconst⟩ := hswap p.fins.op
  refine .ite (fun hlt => .some (.retry ⟨rfl, ?_, ⟨hp.refers.below.2, hp.refers.below.1⟩, hconst.trans hp.refers.op⟩))
    fun _ => .none
  exact foldMeasure_lt_of_rest hrank (foldRest_swap hsub hlt)

/-- A product that `x ^ 2` emits is in the buffer already, or it comes behind it. -/
theorem simplifyNumpowK_sound (hp : p.Ok) {emitir : IrBuf → IRIns → Except FoldErr (IrBuf × ℕ)}
    (hemit : ∀ fins c r, p.buf.Refers fins → emitir p.buf fins = .ok (c, r) → p.buf.Evolves c)
    (hspent : emitir p.buf (.new .mul (plain .num) p.fins.op1 p.fins.op1) = .error .spent → S) :
    p.Sound S (simplifyNumpowK emitir p) := by
  refine .withRightNum fun k => .ite (fun _ => .some (.num _)) fun _ => .ite (fun _ => .some (.ref _)) fun _ =>
    .ite (fun _ => .some ?_) fun _ => .none
  cases hres : emitir p.buf (.new .mul (plain .num) p.fins.op1 p.fins.op1) with
  | error e => exact .error fun he => hspent (hres.trans (congrArg _ he))
  | ok res =>
    have hrefers : p.buf.Refers (.new .mul (plain .num) p.fins.op1 p.fins.op1) :=
      ⟨⟨hp.refers.below.1, hp.refers.below.1⟩, rfl⟩
    exact .done (hemit _ _ _ hrefers hres) (by rintro _ ⟨⟩) (by rintro ⟨⟩)

end Rules
end Pass

/-! ### The engine -/

section Engine
variable {pow : F64 → F64 → F64} {emitir : IrBuf → IRIns → Except FoldErr (IrBuf × ℕ)} {b c : IrBuf} {fins : IRIns}
  {S : Prop}

namespace Pass

def Sounds (p : Pass) (S : Prop) (rules : List Rule) : Prop := ∀ rule ∈ rules, p.Sound S (rule p)

theorem Sounds.nil {p : Pass} : p.Sounds S [] := List.forall_mem_nil _

theorem Sounds.cons {p : Pass} {rule : Rule} {rules : List Rule} (h : p.Sound S (rule p)) (hs : p.Sounds S rules) :
    p.Sounds S (rule :: rules) := List.forall_mem_cons.mpr ⟨h, hs⟩

theorem foldRules_sound {p : Pass} (hp : p.Ok)
    (hemit : ∀ fins c r, p.buf.Refers fins → emitir p.buf fins = .ok (c, r) → p.buf.Evolves c)
    (hspent : p.fins.op = .pow → emitir p.buf (.new .mul (plain .num) p.fins.op1 p.fins.op1) = .error .spent → S) :
    p.Sounds S (foldRules pow emitir p.fins.op) := by
  have harith : p.Sound S (kfoldNumarith pow p) := kfoldNumarith_sound
  have hint : p.Sound S (kfoldIntarith p) := kfoldIntarith_sound
  have hswap : p.Sound S (commSwap p) := commSwap_sound hp
  have heq : p.Sounds S [kfoldNumcomp, kfoldKref, commEqual, commSwapComp] :=
    .cons kfoldNumcomp_sound (.cons kfoldKref_sound (.cons commEqual_sound (.cons (commSwapComp_sound hp) .nil)))
  have hcomp : p.Sounds S [kfoldNumcomp, kfoldIntcomp, kfoldIntcomp0, foldBitRange, commComp, commSwapComp] :=
    .cons kfoldNumcomp_sound (.cons kfoldIntcomp_sound (.cons kfoldIntcomp0_sound (.cons foldBitRange_sound
      (.cons commComp_sound (.cons (commSwapComp_sound hp) .nil)))))
  cases hop : p.fins.op with
  | add =>
    exact .cons harith (.cons hint (.cons (simplifyNumaddNegx_sound hp hop) (.cons (simplifyNumaddXneg_sound hp hop)
      (.cons simplifyIntaddK_sound (.cons hswap .nil)))))
  | sub =>
    exact .cons harith (.cons hint (.cons (simplifyNumsubNegk_sound hp hop) (.cons simplifyNumsubK_sound
      (.cons (simplifyNumsubXneg_sound hp hop) (.cons (simplifyIntsubK_sound hp hop)
        (.cons (simplifyIntsubKleft_sound hp hop) .nil))))))
  | mul =>
    exact .cons harith (.cons hint (.cons (simplifyNummulK_sound hp hop) (.cons (simplifyIntmulK32_sound hp hop)
      (.cons hswap .nil))))
  | div => exact .cons harith (.cons (simplifyNumdivK_sound hp hop) .nil)
  | mod => exact .cons harith (.cons kfoldIntmod_sound (.cons (simplifyIntmodK_sound hp hop) .nil))
  | pow => exact .cons harith (.cons (simplifyNumpowK_sound hp hemit (hspent hop)) .nil)
  | neg => exact .cons kfoldNeg_sound (.cons shortcutLeftleft_sound .nil)
  | abs => exact .cons kfoldNumabs_sound .nil
  | min => exact .cons harith (.cons hint (.cons commDup_sound .nil))
  | max => exact .cons harith (.cons hint (.cons commDup_sound .nil))
  | addov => exact .cons kfoldIntovarith_sound (.cons simplifyIntaddovK_sound (.cons hswap .nil))
  | subov => exact .cons kfoldIntovarith_sound (.cons simplifyIntaddovK_sound .nil)
  | mulov => exact .cons kfoldIntovarith_sound (.cons (simplifyIntmulK_sound hp hop) (.cons hswap .nil))
  | bnot => exact .cons kfoldBnot_sound (.cons shortcutLeftleft_sound .nil)
  | bswap => exact .cons kfoldBswap_sound (.cons shortcutLeftleft_sound .nil)
  | band => exact .cons hint (.cons commDup_sound (.cons hswap .nil))
  | bor => exact .cons hint (.cons commDup_sound (.cons hswap .nil))
  | bxor => exact .cons hint (.cons commBxor_sound (.cons hswap .nil))
  | bshl | bshr | bsar | brol | bror => exact .cons hint .nil
  | eq | ne => exact heq
  | lt | ge | le | gt | ult | uge | ule | ugt => exact hcomp
  | _ => exact .nil

end Pass

theorem foldRules_const {op : IROp} (hop : op.isConst = true) : foldRules pow emitir op = [] := by
  cases op <;> first | rfl | cases hop

theorem ir_lt_nins {r : ℕ} {ins : IRIns} (hi : b.ir r = some ins) : r < b.nins := by
  rw [IrBuf.ir] at hi
  split at hi
  · have := (List.getElem?_eq_some_iff.mp hi).1
    rw [IrBuf.nins]
    omega
  · next hr => exact (Nat.lt_of_not_le hr).trans_le (Nat.le_add_right _ _)

/-- An operand is in the buffer, or a literal. -/
theorem operand_ok {r : ℕ} {o : Option IRIns} (h : b.operand r = .ok o) :
    r < b.nins ∧ ∀ ins, o = some ins → b.ir r = some ins := by
  rw [IrBuf.operand] at h
  split at h
  · split at h
    · next ins hi =>
      obtain rfl := Except.ok.inj h
      exact ⟨ir_lt_nins hi, fun _ h => hi.trans h⟩
    · cases h
  · next hr =>
    obtain rfl := Except.ok.inj h
    refine ⟨(Nat.lt_of_not_le hr).trans_le ?_, by rintro _ ⟨⟩⟩
    rw [IrBuf.nk, IrBuf.nins]
    omega

theorem operand_error {r : ℕ} {e : FoldErr} (h : b.operand r = .error e) : e = .panic := by
  rw [IrBuf.operand] at h
  split at h
  · split at h <;> cases h
    rfl
  · cases h

/-- A pass is over, or it goes on with a smaller instruction. -/
theorem foldStep_fine (pow : F64 → F64 → F64) (emitir : IrBuf → IRIns → Except FoldErr (IrBuf × ℕ)) (h : b.Foldable) (hop : fins.op.isConst = false)
    (hemit : ∀ fins c r, b.Refers fins → emitir b fins = .ok (c, r) → b.Evolves c)
    (hspent : fins.op = .pow → emitir b (.new .mul (plain .num) fins.op1 fins.op1) = .error .spent → S) :
    ∃ p : Pass, p.buf = b ∧ p.fins = fins ∧ p.Fine S (foldStep pow emitir b fins) := by
  rw [foldStep]
  split
  · exact ⟨⟨b, fins, none, none⟩, rfl, rfl, .cse⟩
  cases hleft : b.operand fins.op1 with
  | error e =>
    rw [operand_error hleft]
    exact ⟨⟨b, fins, none, none⟩, rfl, rfl, .panic⟩
  | ok left =>
    cases hright : b.operand fins.op2 with
    | error e =>
      rw [operand_error hright]
      exact ⟨⟨b, fins, none, none⟩, rfl, rfl, .panic⟩
    | ok right =>
      obtain ⟨hlt1, hl⟩ := operand_ok hleft
      obtain ⟨hlt2, hr⟩ := operand_ok hright
      have hp : Pass.Ok ⟨b, fins, left, right⟩ := ⟨h, ⟨⟨hlt1, hlt2⟩, hop⟩, hl, hr⟩
      refine ⟨⟨b, fins, left, right⟩, rfl, rfl, ?_⟩
      change Pass.Fine _ S (Option.getD _ _)
      cases hrule : (foldRules pow emitir fins.op).findSome? (· ⟨b, fins, left, right⟩) with
      | none => exact .cse
      | some res =>
        obtain ⟨rule, hmem, hres⟩ := List.exists_of_findSome?_eq_some hrule
        exact Pass.foldRules_sound hp hemit hspent rule hmem res hres

/-- Removing a store leaves no hole. -/
theorem nins_tryDse (hc : b.tryDse fins = some c) : c.nins = b.nins := by
  rw [IrBuf.tryDse] at hc
  split at hc
  · simp only [Option.bind_eq_bind, Option.bind_eq_some_iff] at hc
    obtain ⟨carg, -, _ | fwd, -, hc⟩ := hc
    · rw [← Option.some.inj hc]
    · simp only [Option.bind_eq_some_iff] at hc
      obtain ⟨_ | _, -, hc⟩ := hc
      · rw [← Option.some.inj hc, IrBuf.nins_modify]
      · rw [← Option.some.inj hc]
  · rw [← Option.some.inj hc]

theorem foldMem_evolves {r : ℕ} (h : b.Refers fins) (hc : b.foldMem fins = some (c, r)) : b.Evolves c := by
  rw [IrBuf.foldMem] at hc
  split at hc
  · simp only [Option.bind_eq_bind, Option.bind_eq_some_iff] at hc
    obtain ⟨_ | fwd, -, hc⟩ := hc
    · cases hc
      exact .op (.emitIns fins) h rfl
    · simp only [Option.bind_eq_some_iff] at hc
      obtain ⟨_, -, hc⟩ := hc
      cases hc
      exact .refl
  · simp only [Option.bind_eq_bind, Option.bind_eq_some_iff] at hc
    obtain ⟨d, hd, hc⟩ := hc
    cases hc
    have hrefers : d.Refers fins := ⟨by rw [nins_tryDse hd]; exact h.below, h.op⟩
    exact .tail (IrBuf.Evolves.op (.dse fins) trivial hd) (.inl ⟨.emitIns fins, hrefers, rfl⟩)
  · cases hc
    exact .op (.emitIns fins) h rfl

/-- Folding leaves a buffer that can be folded into. -/
theorem optFold_evolves (passes : ℕ) {r : ℕ} (h : b.Foldable) (hr : b.Refers fins)
    (hres : optFold pow passes b fins = .ok (c, r)) : b.Evolves c := by
  induction passes generalizing b c fins r with
  | zero => cases hres
  | succ passes ih =>
    rw [optFold] at hres
    split at hres
    · split at hres
      · next res hmem =>
        cases hres
        exact foldMem_evolves hr hmem
      · cases hres
    split at hres
    · cases hres
      exact .op (.emitIns fins) hr rfl
    obtain ⟨p, hbuf, hfins, hfine⟩ := foldStep_fine (S := True) pow (optFold pow passes) h hr.op (fun _ _ _ hr hres => ih h hr hres)
      fun _ _ => trivial
    subst hbuf hfins
    cases hstep : foldStep pow (optFold pow passes) p.buf p.fins with
    | error e =>
      rw [hstep] at hres
      cases hres
    | ok res =>
      obtain ⟨step, d⟩ := res
      have hd : p.buf.Evolves d := hfine.evolves step d hstep
      rw [hstep] at hres
      cases step with
      | retry fins =>
        have hlow := hfine.lowers fins d hstep
        have hrefers : d.Refers fins := by
          refine ⟨?_, hlow.refers.op⟩
          rw [IrBuf.nins, hlow.ins]
          exact hlow.refers.below
        exact hd.trans (ih (h.evolves hd) hrefers hres)
      | ref r =>
        simp only [bind, Except.bind] at hres
        split at hres <;> cases hres
        exact hd
      | tref r =>
        cases hres
        exact hd
      | drop =>
        cases hres
        exact hd
      | cse =>
        obtain rfl := hfine.same d hstep
        have hc : (p.buf.optCse p.fins).1 = c := congrArg Prod.fst (Except.ok.inj hres)
        exact .op (.optCse p.fins) hr (congrArg some hc)

/-- An instruction without rules. -/
theorem foldStep_const (hop : fins.op.isConst = true) (pow : F64 → F64 → F64)
    (emitir : IrBuf → IRIns → Except FoldErr (IrBuf × ℕ)) (b : IrBuf) :
    foldStep pow emitir b fins = .error .panic ∨ foldStep pow emitir b fins = .ok (.cse, b) := by
  rw [foldStep, foldRules_const hop]
  split
  · exact .inr rfl
  cases hleft : b.operand fins.op1 with
  | error e =>
    rw [operand_error hleft]
    exact .inl rfl
  | ok left =>
    cases hright : b.operand fins.op2 with
    | error e =>
      rw [operand_error hright]
      exact .inl rfl
    | ok right => exact .inr rfl

/-- Every rule that asks for another pass lowers the measure. -/
theorem foldStep_lowers (h : b.Foldable) (passes : ℕ) {fins' : IRIns}
    (hstep : foldStep pow (optFold pow passes) b fins = .ok (.retry fins', c)) :
    c.Foldable ∧ foldMeasure c.ins fins' < foldMeasure b.ins fins := by
  cases hop : fins.op.isConst with
  | true => obtain hcse | hcse := foldStep_const hop pow (optFold pow passes) b <;>
      cases hcse.symm.trans hstep
  | false =>
    obtain ⟨p, rfl, rfl, hfine⟩ := foldStep_fine (S := True) pow (optFold pow passes) h hop
      (fun _ _ _ hr hres => optFold_evolves passes h hr hres) fun _ _ => trivial
    have hlow := hfine.lowers fins' c hstep
    exact ⟨h.evolves (hfine.evolves _ _ hstep), hlow.ins ▸ hlow.lt⟩

/-- Only `x ^ 2` emits another instruction. -/
theorem foldStep_congr {emitir' : IrBuf → IRIns → Except FoldErr (IrBuf × ℕ)}
    (h : fins.op = .pow → emitir b (.new .mul (plain .num) fins.op1 fins.op1) =
      emitir' b (.new .mul (plain .num) fins.op1 fins.op1)) :
    foldStep pow emitir b fins = foldStep pow emitir' b fins := by
  have hrules : ∀ p : Pass, p.buf = b → p.fins = fins →
      (foldRules pow emitir fins.op).findSome? (· p) = (foldRules pow emitir' fins.op).findSome? (· p) := by
    rintro p rfl rfl
    by_cases hop : p.fins.op = .pow
    · rw [hop]
      simp only [foldRules, List.findSome?_cons, simplifyNumpowK, h hop]
    · have heq : foldRules pow emitir p.fins.op = foldRules pow emitir' p.fins.op := by
        cases hop' : p.fins.op <;> first | rfl | exact absurd hop' hop
      rw [heq]
  rw [foldStep, foldStep]
  split
  · rfl
  cases b.operand fins.op1 with
  | error e => rfl
  | ok left =>
    cases b.operand fins.op2 with
    | error e => rfl
    | ok right => exact congrArg (Option.getD · _) (hrules ⟨b, fins, left, right⟩ rfl rfl)

/-- More passes than the measure give the result, whatever their number. -/
theorem optFold_stable (n passes : ℕ) (h : b.Foldable) (hlt : foldMeasure b.ins fins < n) (hle : n ≤ passes) :
    optFold pow passes b fins = optFold pow n b fins ∧ optFold pow n b fins ≠ .error .spent := by
  induction n generalizing passes b fins with
  | zero => exact absurd hlt (Nat.not_lt_zero _)
  | succ n ih =>
    obtain ⟨passes, rfl⟩ := Nat.exists_eq_succ_of_ne_zero (Nat.ne_of_gt (Nat.zero_lt_of_lt hle))
    have hle : n ≤ passes := Nat.le_of_succ_le_succ hle
    have hmul : fins.op = .pow → foldMeasure b.ins (.new .mul (plain .num) fins.op1 fins.op1) < n := by
      intro hop
      refine (foldMeasure_lt_of_rank ?_).trans_le (Nat.le_of_lt_succ hlt)
      rw [hop]
      exact Nat.lt_succ_self _
    have hcongr : foldStep pow (optFold pow passes) b fins = foldStep pow (optFold pow n) b fins :=
      foldStep_congr fun hop => (ih passes h (hmul hop) hle).1
    rw [optFold, optFold, hcongr]
    split
    · refine ⟨rfl, ?_⟩
      split
      · rintro ⟨⟩
      · rintro ⟨⟩
    split
    · exact ⟨rfl, by rintro ⟨⟩⟩
    cases hstep : foldStep pow (optFold pow n) b fins with
    | error e =>
      refine ⟨rfl, ?_⟩
      rintro ⟨⟩
      cases hop : fins.op.isConst with
      | true => obtain hcse | hcse := foldStep_const hop pow (optFold pow n) b <;>
          cases hcse.symm.trans hstep
      | false =>
        obtain ⟨p, rfl, rfl, hfine⟩ := foldStep_fine (S := False) pow (optFold pow n) h hop
          (fun _ _ _ hr hres => optFold_evolves n h hr hres)
          fun hop => (ih n h (hmul hop) le_rfl).2
        exact hfine.spent hstep
    | ok res =>
      obtain ⟨step, d⟩ := res
      cases step with
      | retry fins' =>
        obtain ⟨hd, hlower⟩ := foldStep_lowers h n hstep
        exact ih passes hd (hlower.trans_le (Nat.le_of_lt_succ hlt)) hle
      | ref r =>
        refine ⟨rfl, ?_⟩
        simp only [bind, Except.bind]
        split <;> rintro ⟨⟩
      | tref r => exact ⟨rfl, by rintro ⟨⟩⟩
      | drop => exact ⟨rfl, by rintro ⟨⟩⟩
      | cse => exact ⟨rfl, by rintro ⟨⟩⟩

/-- In every buffer that grows from an empty one, a rule that asks for another pass lowers a measure of the opcode and
the operands, and the fold engine comes to a result. -/
theorem optFold_terminates (pow : F64 → F64 → F64) (parent exitno : ℕ) (b : IrBuf)
    (hb : (IrBuf.new parent exitno).Evolves b) (fins : IRIns) :
    (∀ passes fins' c, foldStep pow (optFold pow passes) b fins = .ok (.retry fins', c) →
      foldMeasure c.ins fins' < foldMeasure b.ins fins) ∧
    ∃ res, res ≠ .error .spent ∧ ∀ passes, foldMeasure b.ins fins < passes → optFold pow passes b fins = res := by
  have h : b.Foldable := (IrBuf.foldable_new parent exitno).evolves hb
  refine ⟨fun passes fins' c hstep => (foldStep_lowers h passes hstep).2,
    optFold pow (foldMeasure b.ins fins + 1) b fins, ?_, fun passes hlt => ?_⟩
  · exact (optFold_stable _ _ h (Nat.lt_succ_self _) le_rfl).2
  · exact (optFold_stable _ passes h (Nat.lt_succ_self _) hlt).1

/-- `(-x) - 5`, over a slot `x`. -/
theorem optFold_terminates_neg :
    let b := ((((IrBuf.new 0 0).constant (.num (.ofInt 5))).1.emitIns (.new .sload (guarded .num) 1 0)).1.emitIns
      (.new .neg (plain .num) 0x8001 0)).1
    ∃ res, res ≠ .error .spent ∧ ∀ passes, 55 < passes →
      optFold (fun _ _ => .zero) passes b (.new .sub (plain .num) 0x8002 0x7ffc) = res := by
  intro b
  have hload : IrBuf.Refers ((IrBuf.new 0 0).constant (.num (.ofInt 5))).1 (.new .sload (guarded .num) 1 0) :=
    ⟨by decide, rfl⟩
  have hneg : IrBuf.Refers (((IrBuf.new 0 0).constant (.num (.ofInt 5))).1.emitIns (.new .sload (guarded .num) 1 0)).1
      (.new .neg (plain .num) 0x8001 0) := ⟨by decide, rfl⟩
  have hb : (IrBuf.new 0 0).Evolves b := .tail (.tail (.tail .refl (.inl ⟨.constant (.num (.ofInt 5)), trivial, rfl⟩))
    (.inl ⟨.emitIns _, hload, rfl⟩)) (.inl ⟨.emitIns _, hneg, rfl⟩)
  obtain ⟨-, res, hres, hpasses⟩ := optFold_terminates (fun _ _ => .zero) 0 0 b hb (.new .sub (plain .num) 0x8002 0x7ffc)
  refine ⟨res, hres, fun passes hlt => hpasses passes (Nat.lt_of_le_of_lt ?_ hlt)⟩
  have hrest := foldRest_lt b.ins (.new .sub (plain .num) 0x8002 0x7ffc)
  exact Nat.add_le_add_left (Nat.le_of_lt_succ hrest) 28

end Engine
end LuajitRs.Ir
