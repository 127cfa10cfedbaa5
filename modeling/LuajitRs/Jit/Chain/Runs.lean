import LuajitRs.Jit.Chain.Dce
import LuajitRs.Jit.Opt.Mem

/-! Any order of interning, emitting, folding, rolling back and removing. As long as no store or allocation is
removed behind the back of its chain, and dead code elimination finds the right neighbours, the constants keep
their references, the chains list the instructions, and a rollback restores the chains of its mark. -/
namespace LuajitRs.Ir
open Lib.Backlink Relation

/-- An operation on the buffer. -/
inductive BufOp
  | constant (c : Interned)
  | emitIns (fins : IRIns)
  | optCse (fins : IRIns)
  | rollback (r : ℕ)
  /-- Dead store elimination in front of a store. -/
  | dse (fins : IRIns)
  /-- An instruction that allocation sinking removes. -/
  | setNop (r : ℕ)
  | dce (snapmap : List SnapEntry)

namespace IrBuf
variable (b : IrBuf)

def asTrace (snapmap : List SnapEntry) : Trace := ⟨0, b, [], snapmap, .loop, 0⟩

/-- The store in front of `fins` that no load needs. -/
def Overwrites (fins : IRIns) : Prop :=
  fins.op = .astore ∧ ∃ carg fwd, b.ir fins.op2 = some carg ∧
    b.findMatchingStore fins.op1 carg.op1 = some (some fwd) ∧
    b.loadBetween fins.op1 carg.op1 (b.nins - (fwd.storeIns + 1)) (fwd.storeIns + 1) = some false

end IrBuf

namespace BufOp

/-- The buffer after an operation; `none` is a panic. -/
def apply (b : IrBuf) : BufOp → Option IrBuf
  | constant c => some (b.constant c).1
  | emitIns fins => some (b.emitIns fins).1
  | optCse fins => some (b.optCse fins).1
  | rollback r => b.rollback r
  | dse fins => b.tryDse fins
  | setNop r => (b.ir r).map fun _ => b.modify r .setNop
  | dce snapmap => some (b.asTrace snapmap).dceIr

/-- Where an operation keeps the chains in order. References have 16 bits. -/
def Ok (b : IrBuf) : BufOp → Prop
  | constant _ => b.k.length + 1 < REF_BIAS
  | emitIns fins => fins.op.isConst = false ∧ b.nins < REF_DROP
  | optCse fins => fins.op.Chains ∧ b.nins < REF_DROP
  | rollback r => REF_FIRST ≤ r
  | dse fins => ¬ b.Overwrites fins
  | setNop r => REF_FIRST ≤ r ∧ ∀ ins, b.ir r = some ins → ins.op = .nop
  | dce snapmap => b.SSA ∧ (b.asTrace snapmap).Relinks

/-- Nothing below the mark goes. -/
def Above (m : ℕ) (b : IrBuf) : BufOp → Prop
  | rollback r => m ≤ r
  | dce snapmap => ∀ r ins, REF_FIRST ≤ r → r < m → b.ir r = some ins → ¬ (b.asTrace snapmap).Live r → ins.op = .nop
  | _ => True

end BufOp

namespace IrBuf

/-- A run of operations that keep the chains in order. -/
def Runs : IrBuf → IrBuf → Prop := ReflTransGen fun b c => ∃ o : BufOp, o.Ok b ∧ o.apply b = some c

/-- A run that leaves what lies below the mark. -/
def RunsAbove (m : ℕ) : IrBuf → IrBuf → Prop :=
  ReflTransGen fun b c => ∃ o : BufOp, o.Ok b ∧ o.Above m b ∧ o.apply b = some c

def applyAll (b : IrBuf) (ops : List BufOp) : Option IrBuf := ops.foldlM BufOp.apply b

variable (b : IrBuf)

/-- A constant gets one reference, which denotes it from now on. -/
def ConstantsExact : Prop :=
  ∀ c : Interned, b.k.length + 1 < REF_BIAS →
    (b.constant c).1.constAt (b.constant c).2 = some (c.op, c.word) ∧
      ∀ d, Runs (b.constant c).1 d → d.constAt (b.constant c).2 = some (c.op, c.word) ∧
        ∀ c' : Interned, c'.op = c.op → c'.word = c.word → d.constant c' = (d, (b.constant c).2)

/-- A chain lists exactly the instructions of its opcode, from the newest down. -/
def ChainsExact : Prop :=
  ∀ op : IROp, op.Chains → ∃ l, b.Lists (b.chain op) l ∧ l.Pairwise (· > ·) ∧ ∀ r, r ∈ l ↔ b.LiveOf op r

/-- An instruction of the opcode with the operands. -/
def SameOps (fins : IRIns) (r : ℕ) (ins : IRIns) : Prop :=
  b.LiveOf fins.op r ∧ b.ir r = some ins ∧ ins.op1 = fins.op1 ∧ ins.op2 = fins.op2

/-- The result of `opt_cse` is an earlier instruction of the same opcode and operands, and of the same type where
these agree on it, or a new one where none lies above the operands. -/
def CseExact : Prop :=
  ∀ fins : IRIns, fins.op.Chains →
    (∃ ins, (b.optCse fins).1.ir (b.optCse fins).2 = some ins ∧ ins.op = fins.op ∧ ins.op1 = fins.op1 ∧
      ins.op2 = fins.op2 ∧ ((∀ r i, b.SameOps fins r i → i.t = fins.t) → ins.t = fins.t)) ∧
    ((b.optCse fins).1 = b ∧ (b.optCse fins).2 < b.nins ∨
      b.optCse fins = b.emitIns fins ∧ ∀ r i, max fins.op1 fins.op2 < r → ¬ b.SameOps fins r i)

/-- A rollback to this state restores its chains. -/
def RollbackExact : Prop :=
  ∀ d, RunsAbove b.nins b d → ∃ c, d.rollback b.nins = some c ∧ ∀ op : IROp, op.Chains →
    c.chain op = b.chain op ∧ ∀ l, c.Lists (c.chain op) l ↔ b.Lists (b.chain op) l

end IrBuf

/-! ### One operation -/

section Step
variable {b c : IrBuf} {o : BufOp} {m : ℕ}

theorem tryDse_eq {fins : IRIns} (hd : ¬ b.Overwrites fins) (h : b.tryDse fins = some c) : c = b := by
  rw [IrBuf.tryDse] at h
  split at h
  · next hop =>
    simp only [Option.bind_eq_bind, Option.bind_eq_some_iff] at h
    obtain ⟨carg, hcarg, found, hfound, h⟩ := h
    cases found with
    | none => exact (Option.some.inj h).symm
    | some fwd =>
      simp only [Option.bind_eq_some_iff] at h
      obtain ⟨between, hbetween, h⟩ := h
      cases between with
      | true => exact (Option.some.inj h).symm
      | false => exact absurd ⟨hop, carg, fwd, hcarg, hfound, hbetween⟩ hd
  · exact (Option.some.inj h).symm

/-- The result of `opt_cse` is the buffer or one more instruction. -/
theorem optCse_cases (b : IrBuf) (fins : IRIns) :
    (b.optCse fins).1 = b ∨ (b.optCse fins).1 = (b.emitIns fins).1 := by
  rw [IrBuf.optCse]
  split
  · exact .inl rfl
  · exact .inr rfl

/-- An operation keeps the chains in order and the constants where they are. -/
theorem step_chained (hc : b.Chained) (hok : o.Ok b) (h : o.apply b = some c) :
    c.Chained ∧ ∀ r w, b.constAt r = some w → c.constAt r = some w := by
  have hsame : ∀ {c : IrBuf}, c.k = b.k → c.k64 = b.k64 → ∀ r w, b.constAt r = some w → c.constAt r = some w := by
    intro c hk h64 r w hw
    rw [IrBuf.constAt_congr hk h64, hw]
  cases o with
  | constant k =>
    obtain rfl := Option.some.inj h
    obtain ⟨hch, -, -, hkeep⟩ := hc.constant hok k
    exact ⟨hch, hkeep⟩
  | emitIns fins =>
    obtain rfl := Option.some.inj h
    exact ⟨hc.emitIns hok.1, hsame rfl rfl⟩
  | optCse fins =>
    obtain rfl := Option.some.inj h
    cases optCse_cases b fins with
    | inl heq =>
      rw [heq]
      exact ⟨hc, fun _ _ hw => hw⟩
    | inr heq =>
      rw [heq]
      exact ⟨hc.emitIns hok.1.2, hsame rfl rfl⟩
  | rollback r =>
    obtain ⟨c', hc', hch, -, hk, h64⟩ := hc.rollback hok
    obtain rfl : c' = c := Option.some.inj (hc'.symm.trans h)
    exact ⟨hch, hsame hk h64⟩
  | dse fins =>
    obtain rfl := tryDse_eq hok h
    exact ⟨hc, fun _ _ hw => hw⟩
  | setNop r =>
    obtain ⟨ins, hi, rfl⟩ := Option.map_eq_some_iff.mp h
    obtain ⟨hr, hnop⟩ := hok
    refine ⟨hc.modify fun i hi => ?_, hsame (IrBuf.k_modify ..) (IrBuf.k64_modify ..)⟩
    have hop : i.op = .nop := hnop i ((IrBuf.ir_eq_ins ((Nat.le_succ _).trans hr)).trans hi)
    exact ⟨hop.symm, fun hne => absurd hop hne⟩
  | dce snapmap =>
    obtain rfl := Option.some.inj h
    have hdec : Decided (b.asTrace snapmap) REF_FIRST (b.asTrace snapmap).dceIr := optDce_spec hok.1
    exact ⟨dceIr_chained hok.1 hok.2 hc, hsame hdec.k hdec.k64⟩

/-- The opcodes below a mark, by position. -/
def SameBelow (m : ℕ) (b c : IrBuf) : Prop :=
  m ≤ c.nins ∧ ∀ i : ℕ, i < m - REF_BIAS → (c.ins[i]?).map IRIns.op = (b.ins[i]?).map IRIns.op

theorem step_sameBelow (hc : b.Chained) (hmb : m ≤ b.nins) (hok : o.Ok b)
    (ha : o.Above m b) (h : o.apply b = some c) : SameBelow m b c := by
  have hemit : ∀ fins, SameBelow m b (b.emitIns fins).1 := by
    intro fins
    refine ⟨hmb.trans ?_, fun i hi => ?_⟩
    · rw [IrBuf.nins, IrBuf.nins, IrBuf.emitIns, List.length_append]
      omega
    · have hlt : i < b.ins.length := by
        rw [IrBuf.nins] at hmb
        omega
      exact congrArg (Option.map IRIns.op) (List.getElem?_append_left hlt)
  cases o with
  | constant k =>
    obtain rfl := Option.some.inj h
    obtain ⟨-, -, hins, -⟩ := hc.constant hok k
    rw [SameBelow, IrBuf.nins, hins]
    exact ⟨hmb, fun _ _ => rfl⟩
  | emitIns fins =>
    obtain rfl := Option.some.inj h
    exact hemit fins
  | optCse fins =>
    obtain rfl := Option.some.inj h
    cases optCse_cases b fins with
    | inl heq =>
      rw [heq]
      exact ⟨hmb, fun _ _ => rfl⟩
    | inr heq =>
      rw [heq]
      exact hemit fins
  | rollback r =>
    obtain ⟨c', hc', -, hins, -⟩ := hc.rollback hok
    obtain rfl : c' = c := Option.some.inj (hc'.symm.trans h)
    have hmr : m ≤ r := ha
    refine ⟨?_, fun i hi => ?_⟩
    · rw [IrBuf.nins] at hmb ⊢
      rw [hins, List.length_take]
      omega
    · rw [hins, List.getElem?_take_of_lt (hi.trans_le (Nat.sub_le_sub_right hmr _))]
  | dse fins =>
    obtain rfl := tryDse_eq hok h
    exact ⟨hmb, fun _ _ => rfl⟩
  | setNop r =>
    obtain ⟨ins, hi, rfl⟩ := Option.map_eq_some_iff.mp h
    obtain ⟨hr, hnop⟩ := hok
    have hget := IrBuf.getElem?_modify_of (f := .setNop)
      ((IrBuf.ir_eq_ins ((Nat.le_succ _).trans hr)).symm.trans hi)
    refine ⟨by rwa [IrBuf.nins_modify], fun i _ => ?_⟩
    rw [IrBuf.ins_modify, hget i]
    split
    · next hir =>
      rw [hir, ← IrBuf.ir_eq_ins ((Nat.le_succ _).trans hr), hi, Option.map_some, Option.map_some, hnop ins hi]
      rfl
    · rfl
  | dce snapmap =>
    obtain rfl := Option.some.inj h
    have hdec : Decided (b.asTrace snapmap) REF_FIRST (b.asTrace snapmap).dceIr := optDce_spec hok.1
    have hlen : (b.asTrace snapmap).dceIr.ins.length = b.ins.length := hdec.len
    refine ⟨by rwa [IrBuf.nins, hlen], fun i hi => ?_⟩
    have hlt : i < b.ins.length := by
      rw [IrBuf.nins] at hmb
      omega
    have hib : b.ir (REF_BIAS + i) = b.ins[i]? := IrBuf.ir_insRef i
    have hic : (b.asTrace snapmap).dceIr.ir (REF_BIAS + i) = (b.asTrace snapmap).dceIr.ins[i]? := IrBuf.ir_insRef i
    obtain ⟨x, hx⟩ : ∃ x, b.ins[i]? = some x := ⟨_, List.getElem?_eq_getElem hlt⟩
    obtain ⟨y, hy⟩ : ∃ y, (b.asTrace snapmap).dceIr.ins[i]? = some y :=
      ⟨_, List.getElem?_eq_getElem (hlt.trans_eq hlen.symm)⟩
    have hbx := hib.trans hx
    have hcy := hic.trans hy
    rw [hx, hy]
    refine congrArg some ?_
    rcases Nat.eq_zero_or_pos i with rfl | hpos
    · have hbase : (b.asTrace snapmap).dceIr.ir REF_BIAS = b.ir REF_BIAS := hdec.base
      rw [Nat.add_zero] at hbx hcy
      rw [hcy, hbx, Option.some.injEq] at hbase
      rw [hbase]
    · have hlo : REF_FIRST ≤ REF_BIAS + i := Nat.add_le_add_left hpos _
      by_cases hl : (b.asTrace snapmap).Live (REF_BIAS + i)
      · obtain ⟨y', hy', hsame⟩ := hdec.live (REF_BIAS + i) x hlo hbx hl
        rw [hcy, Option.some.injEq] at hy'
        rw [hy', hsame.op]
      · rw [hdec.dead (REF_BIAS + i) y hlo hl hcy, ha (REF_BIAS + i) x hlo (Nat.add_lt_of_lt_sub' hi) hbx hl]

end Step

/-! ### Runs -/

section Run
variable {b c : IrBuf} {m : ℕ}

theorem runs_chained (hrun : b.Runs c) (hb : b.Chained) :
    c.Chained ∧ ∀ r w, b.constAt r = some w → c.constAt r = some w := by
  induction hrun with
  | refl => exact ⟨hb, fun _ _ h => h⟩
  | tail _ hstep ih =>
    obtain ⟨o, hok, happly⟩ := hstep
    obtain ⟨hch, hkeep⟩ := step_chained ih.1 hok happly
    exact ⟨hch, fun r w hw => hkeep r w (ih.2 r w hw)⟩

theorem runsAbove_sameBelow (hrun : b.RunsAbove m c) (hb : b.Chained) (hmb : m ≤ b.nins) :
    c.Chained ∧ SameBelow m b c := by
  induction hrun with
  | refl => exact ⟨hb, hmb, fun _ _ => rfl⟩
  | tail _ hstep ih =>
    obtain ⟨o, hok, habove, happly⟩ := hstep
    obtain ⟨hch, hmc, hsame⟩ := ih
    obtain ⟨hmd, hstep⟩ := step_sameBelow hch hmc hok habove happly
    exact ⟨(step_chained hch hok happly).1, hmd, fun i hi => (hstep i hi).trans (hsame i hi)⟩

theorem chained_new (parent exitno : ℕ) : (IrBuf.new parent exitno).Chained := by
  have hk : ∀ r (c : Interned), (IrBuf.new parent exitno).constAt r ≠ some (c.op, c.word) := by
    intro r c hr
    obtain ⟨hlt, ins, hi, hop, -⟩ := IrBuf.constAt_iff.mp hr
    rw [IrBuf.ir, if_neg (Nat.not_le.mpr hlt)] at hi
    have hmem := List.mem_of_getElem? hi
    simp only [IrBuf.new, List.mem_cons, List.not_mem_nil, or_false] at hmem
    obtain rfl | rfl | rfl := hmem <;> cases c <;> cases hop
  refine ⟨List.cons_ne_nil _ _, fun ins hi => ?_, rfl, ?_, fun c r _ hr => absurd hr (hk r c),
    fun op _ => ?_, fun c => ?_⟩
  · rw [List.mem_singleton.mp hi]
    rfl
  · simp only [IrBuf.new, List.length_cons, List.length_nil, REF_BIAS]
    omega
  · refine ⟨rfl, fun i hi hp => ?_⟩
    obtain rfl : i = 0 := Nat.lt_one_iff.mp hi
    cases hp
  · have hnot : ∀ i, (IrBuf.new parent exitno).isKop c.op i = false := by
      rintro (_ | _ | _ | i)
      · cases c <;> rfl
      · cases c <;> rfl
      · cases c <;> rfl
      · rfl
    have hnone : latest ((IrBuf.new parent exitno).isKop c.op) 3 = none := by
      rw [latest_succ_of_not (hnot 2), latest_succ_of_not (hnot 1), latest_succ_of_not (hnot 0), latest]
    refine ⟨(congrArg IrBuf.kRef hnone).symm, fun i _ hp => ?_⟩
    rw [hnot i] at hp
    cases hp

/-! ### The invariant of the buffer -/

theorem Chained.constantsExact (hb : b.Chained) : b.ConstantsExact := by
  intro c hroom
  obtain ⟨hch, hat, -, -⟩ := hb.constant hroom c
  refine ⟨hat, fun d hd => ?_⟩
  obtain ⟨hdch, hkeep⟩ := runs_chained hd hch
  have hdat := hkeep _ _ hat
  refine ⟨hdat, fun c' hop hword => hdch.constant_of_constAt ?_⟩
  rw [hop, hword]
  exact hdat

theorem Chained.chainsExact (hb : b.Chained) : b.ChainsExact := fun op hop =>
  ⟨b.refsOf op, hb.lists hop, IrBuf.pairwise_refsOf b op, fun _ => IrBuf.mem_refsOf⟩

theorem Chained.cseExact (hb : b.Chained) : b.CseExact := by
  intro fins hop
  have hlen : (b.refsOf fins.op).length ≤ b.ins.length := by
    rw [IrBuf.refsOf, List.length_map]
    exact length_places_le _ _
  have hfind := IrBuf.findCse_lists fins.op1 fins.op2 (hb.lists hop) (IrBuf.pairwise_refsOf b fins.op) hlen
  split at hfind
  · next r hr =>
    obtain ⟨hmem, ins, hi, h1, h2⟩ := hfind
    have hlive := IrBuf.mem_refsOf.mp hmem
    have hop' : ins.op = fins.op := by
      obtain ⟨-, i, hi', hiop⟩ := hlive
      rw [hi, Option.some.injEq] at hi'
      rw [hi', hiop]
    have heq : b.optCse fins = (b, r) := by
      rw [IrBuf.optCse, hr]
    rw [heq]
    refine ⟨⟨ins, hi, hop', h1, h2, fun ht => ht r ins ⟨hlive, hi, h1, h2⟩⟩, .inl ⟨rfl, ?_⟩⟩
    exact lt_nins ((Nat.le_succ _).trans hlive.1) hi
  · next hr =>
    have heq : b.optCse fins = b.emitIns fins := by
      rw [IrBuf.optCse, hr]
    rw [heq]
    refine ⟨⟨{ fins with prev := b.chain fins.op }, ?_, rfl, rfl, rfl, fun _ => rfl⟩, .inr ⟨rfl, ?_⟩⟩
    · have hins : (b.emitIns fins).1.ir (IrBuf.insRef (some b.ins.length)) = _ := IrBuf.ir_insRef _
      exact hins.trans List.getElem?_concat_length
    · intro r i hlt hs
      obtain ⟨hlive, hi, h1, h2⟩ := hs
      exact hfind r i (IrBuf.mem_refsOf.mpr hlive) hlt hi ⟨h1, h2⟩

theorem Chained.rollbackExact (hb : b.Chained) : b.RollbackExact := by
  intro d hd
  have hpos : REF_FIRST ≤ b.nins := Nat.add_le_add_left (List.length_pos_iff.mpr hb.base) REF_BIAS
  obtain ⟨hdch, hmd, hsame⟩ := runsAbove_sameBelow hd hb (Nat.le_refl _)
  obtain ⟨c, hc, hcch, hins, -⟩ := hdch.rollback hpos
  have hlen : b.nins - REF_BIAS = b.ins.length := Nat.add_sub_cancel_left _ _
  rw [hlen] at hins hsame
  have hclen : c.ins.length = b.ins.length := by
    rw [hins, List.length_take, Nat.min_eq_left]
    exact Nat.le_of_add_le_add_left hmd
  refine ⟨c, hc, fun op hop => ?_⟩
  have hisOp : ∀ i, i < b.ins.length → c.isOp op i = b.isOp op i := by
    intro i hi
    refine IrBuf.isOp_congr ?_
    rw [hins, List.getElem?_take_of_lt hi, hsame i hi]
  have hchain : c.chain op = b.chain op := by
    rw [(hcch.threads op hop).head_eq, (hb.threads op hop).head_eq, hclen, latest_congr hisOp]
  have hrefs : c.refsOf op = b.refsOf op := by
    rw [IrBuf.refsOf, IrBuf.refsOf, hclen, places_congr hisOp]
  have hcl : c.Lists (c.chain op) (b.refsOf op) := hrefs ▸ hcch.lists hop
  have hbl : b.Lists (b.chain op) (b.refsOf op) := hb.lists hop
  refine ⟨hchain, fun l => ?_⟩
  constructor
  · intro hl
    rwa [hcl.unique hl]
  · intro hl
    rwa [hbl.unique hl]

/-- In every run in which no instruction is removed behind the back of its chain, constants keep their references,
the chains list the instructions, common subexpressions are found, and a rollback restores the chains. -/
theorem buffer_exact (parent exitno : ℕ) (b : IrBuf) (hrun : (IrBuf.new parent exitno).Runs b) :
    b.ConstantsExact ∧ b.ChainsExact ∧ b.CseExact ∧ b.RollbackExact := by
  have hb := (runs_chained hrun (chained_new parent exitno)).1
  exact ⟨Chained.constantsExact hb, Chained.chainsExact hb, Chained.cseExact hb, Chained.rollbackExact hb⟩

theorem buffer_exact_add :
    let b := (((IrBuf.new 0 0).constant (.int 1)).1.emitIns (.new .sload (guarded .num) 1 0)).1
    let c := (b.optCse (.new .add (plain .num) 0x8001 0x8001)).1
    c.ConstantsExact ∧ c.ChainsExact ∧ c.CseExact ∧ c.RollbackExact := by
  refine buffer_exact 0 0 _ (.tail (.tail (.tail .refl ⟨.constant (.int 1), ?_, rfl⟩)
    ⟨.emitIns (.new .sload (guarded .num) 1 0), ⟨rfl, ?_⟩, rfl⟩)
    ⟨.optCse (.new .add (plain .num) 0x8001 0x8001), ⟨⟨?_, rfl⟩, ?_⟩, rfl⟩)
  · show 3 + 1 < 0x8000
    omega
  · show 0x8000 + 1 < 0xffff
    omega
  · exact fun h => by cases h
  · show 0x8000 + 2 < 0xffff
    omega

/-! ### Removals that leave a chain behind -/

/-- Two stores to one slot: the second removes the first. -/
def overwriteOps : List BufOp :=
  let store (r carg : ℕ) : IRIns := .new .astore (plain .num) r carg
  let carg : IRIns := .new .carg (plain .nil) 0x7ffc 0x7ffc
  [.constant (.int 1), .emitIns (.new .sload (guarded .tab) 0 0), .emitIns carg, .dse (store 0x8001 0x8002),
    .emitIns (store 0x8001 0x8002), .emitIns carg, .dse (store 0x8001 0x8004), .emitIns (store 0x8001 0x8004)]

/-- A dead load below one that is kept for its guard. -/
def deadLoadOps : List BufOp :=
  [.emitIns (.new .sload (plain .num) 1 0), .emitIns (.new .sload (guarded .num) 2 0), .dce []]

/-- The removed store stays in the chain of stores, and behind a rollback the chain begins at a reference that is
gone; the pass drops the load that it keeps from the chain of loads. -/
theorem not_chainsExact :
    (∃ b c, (IrBuf.new 0 0).applyAll overwriteOps = some b ∧ ¬ b.ChainsExact ∧ b.rollback 0x8003 = some c ∧
      c.nins = 0x8003 ∧ c.chain .astore = 0x8003) ∧
    ∃ b, (IrBuf.new 0 0).applyAll deadLoadOps = some b ∧ ¬ b.ChainsExact := by
  refine ⟨⟨_, _, rfl, fun h => ?_, rfl, rfl, rfl⟩, _, rfl, fun h => ?_⟩
  · obtain ⟨l, hl, -, hmem⟩ := h .astore ⟨fun h => (by cases h), rfl⟩
    cases hl with
    | cons hr hn hl =>
      cases hn
      cases hl with
      | cons hr hn hl =>
        obtain ⟨-, ins, hi, hop⟩ := (hmem 0x8003).mp (.tail _ (.head _))
        cases hi
        cases hop
  · obtain ⟨l, hl, -, hmem⟩ := h .sload ⟨fun h => (by cases h), rfl⟩
    have hlive := (hmem 0x8002).mpr ⟨by decide, _, rfl, rfl⟩
    cases hl with
    | nil => cases hlive
    | cons hr => exact hr rfl

end Run
end LuajitRs.Ir
