import LuajitRs.Jit.Frame

/-! Induction variables. A product of a PHI and a constant in the loop body is replaced by a PHI of its
own, behind which its initial value and its increment are emitted. The executor takes as PHIs only the
instructions at the very end of a trace, so the new PHI has no value of its own: its slot keeps whatever it
held when the trace was entered. -/
namespace LuajitRs.Ir

/-- Count of new induction variables (cap to prevent bloat). -/
abbrev MAX_IVARS : ℕ := 16

/-- A discovered induction variable: its PHI and the constant added in each iteration. -/
structure IndVar where
  phi : ℕ
  step : ℕ
  deriving DecidableEq, Repr

/-- A replaced instruction, its step, and the PHI that stands for it. -/
structure NewIvar where
  old : ℕ
  step : ℕ
  new : ℕ
  deriving DecidableEq, Repr

namespace IrBuf
variable (buf : IrBuf)

/-- The first LOOP, or 0. -/
def findLoop : ℕ :=
  match (buf.ins.drop 1).findIdx? fun ins => ins.op = .loop with
  | some i => REF_FIRST + i
  | none => 0

/-- The references of the loop body. -/
def loopBody : List ℕ := List.range' (buf.findLoop + 1) (buf.nins - (buf.findLoop + 1))

/-- A PHI whose right operand adds a constant to the left one, or subtracts one. -/
def indVar (r : ℕ) : Option (Option IndVar) := do
  let ins ← buf.ir r
  if ins.op ≠ .phi ∨ ins.op2 < REF_BIAS then pure none
  else
    let add ← buf.ir ins.op2
    if add.op ≠ .add ∧ add.op ≠ .sub then pure none
    else
      let step := if add.op1 = ins.op1 then some add.op2 else if add.op2 = ins.op1 then some add.op1 else none
      pure (step.bind fun s => if s < REF_BIAS then some ⟨r, s⟩ else none)

def findIvars : List ℕ → List IndVar → Option (List IndVar)
  | [], acc => some acc
  | r :: rs, acc => do
    match ← buf.indVar r with
    | none => findIvars rs acc
    | some iv => if MAX_IVARS ≤ acc.length + 1 then some (acc ++ [iv]) else findIvars rs (acc ++ [iv])

/-- The payload of a constant as a 64-bit integer; a `KINT` has its value elsewhere, and 0 here. -/
def constantValue (r : ℕ) : Option (Option (BitVec 64)) :=
  if REF_BIAS ≤ r then some none
  else do
    let ins ← buf.ir r
    match ins.op with
    | .kint | .kint64 => do
      let v ← buf.k64Val r
      pure (some (.ofNat 64 v.toBits))
    | .knum => do
      let v ← buf.k64Val r
      pure (some v.f64.asInt64)
    | _ => pure none

end IrBuf

/-- The constant that a product or a shift of the PHI scales it by. -/
def scaleOf (phi : ℕ) (ins : IRIns) : Option ℕ :=
  match ins.op with
  | .mul =>
    if ins.op1 = phi ∧ ins.op2 < REF_BIAS then some ins.op2
    else if ins.op2 = phi ∧ ins.op1 < REF_BIAS then some ins.op1
    else none
  | .bshl => if ins.op1 = phi ∧ ins.op2 < REF_BIAS then some ins.op2 else none
  | _ => none

/-- The scaled step. -/
def scaleStep (op : IROp) (step scale : BitVec 64) : BitVec 32 :=
  (if op = .mul then step * scale else step <<< (scale.toNat % 2^32 % 64)).truncate 32

namespace IrBuf
variable (buf : IrBuf)

/-- The scaled step as a constant, then the initial value, the new PHI and its increment. The initial value
is never taken from a constant, since the instruction itself is none. -/
def emitIvar (ins : IRIns) (lref scale : ℕ) (k : BitVec 32) : IrBuf × ℕ × ℕ :=
  let (buf, step) := buf.kint k
  let (buf, init) := buf.emitIns (.new ins.op ins.t lref scale)
  let (buf, phi) := buf.emitIns (.new .phi (plain ins.t.ty) init 0)
  let (buf, add) := buf.emitIns (.new .add (plain .num) phi step)
  (buf.modify phi fun p => { p with op2 := add }, step, phi)

/-- One instruction of the loop body, for one induction variable. -/
def ivarStep (iv : IndVar) (s : IrBuf × List NewIvar) (r : ℕ) : Option (IrBuf × List NewIvar) := do
  let ins ← s.1.ir r
  match scaleOf iv.phi ins with
  | none => pure s
  | some scale =>
    match ← s.1.constantValue iv.step with
    | none => pure s
    | some step =>
      match ← s.1.constantValue scale with
      | none => pure s
      | some k =>
        let phi ← s.1.ir iv.phi
        let e := s.1.emitIvar ins phi.op1 scale (scaleStep ins.op step k)
        pure (e.1, s.2 ++ [⟨r, e.2.1, e.2.2⟩])

end IrBuf

/-- An operand after all replacements; the last one that matches counts. -/
def substOperand (news : List NewIvar) (opr : ℕ) : ℕ :=
  news.foldl (fun acc n => if opr = n.old then n.new else acc) opr

/-- Redirect the uses behind the LOOP. -/
def IrBuf.rewriteUses (buf : IrBuf) (loopRef : ℕ) (news : List NewIvar) : IrBuf :=
  { buf with ins := buf.ins.mapIdx fun i ins =>
      if loopRef < REF_BIAS + i then
        { ins with op1 := substOperand news ins.op1, op2 := substOperand news ins.op2 }
      else ins }

/-- The buffer and the new induction variables before the uses are redirected. -/
def IrBuf.newIvars (buf : IrBuf) : Option (IrBuf × List NewIvar) := do
  let ivars ← buf.findIvars buf.loopBody []
  ivars.foldlM (fun s iv => buf.loopBody.foldlM (IrBuf.ivarStep iv) s) (buf, [])

def optIvar (buf : IrBuf) : Option IrBuf :=
  if buf.findLoop = 0 then some buf
  else do
    let s ← buf.newIvars
    if s.2.isEmpty then pure s.1 else pure (s.1.rewriteUses buf.findLoop s.2)

/-- The trace after the pass. -/
def Trace.ivar (tr : Trace) : Option Trace := do
  let b ← optIvar tr.ir
  pure { tr with ir := b }

/-! ### What the pass emits -/

section Emit
variable {buf : IrBuf}

theorem kint_ins (k : BitVec 32) : (buf.kint k).1.ins = buf.ins := by
  rw [IrBuf.kint]
  split <;> rfl

theorem kint_k (k : BitVec 32) : ∃ t, (buf.kint k).1.k = buf.k ++ t := by
  rw [IrBuf.kint]
  split
  · exact ⟨[], (List.append_nil _).symm⟩
  · exact ⟨_, rfl⟩

theorem mem_loopBody {r : ℕ} (h : r ∈ buf.loopBody) : buf.findLoop < r ∧ r < buf.nins := by
  rw [IrBuf.loopBody, List.mem_range'_1] at h
  omega

/-- An induction variable is a PHI of the loop body. -/
def IsIvar (buf : IrBuf) (iv : IndVar) : Prop :=
  buf.findLoop < iv.phi ∧ ∃ ins, buf.ir iv.phi = some ins ∧ ins.op = .phi

theorem indVar_spec {r : ℕ} {iv : IndVar} (hr : r ∈ buf.loopBody) (h : buf.indVar r = some (some iv)) :
    IsIvar buf iv := by
  simp only [IrBuf.indVar, Option.bind_eq_bind, Option.bind_eq_some_iff] at h
  obtain ⟨ins, hi, h⟩ := h
  split at h
  · cases h
  · rename_i hop
    simp only [Option.bind_eq_some_iff] at h
    obtain ⟨add, -, h⟩ := h
    split at h
    · cases h
    · simp only [Option.pure_def, Option.some.injEq, Option.bind_eq_some_iff] at h
      obtain ⟨s, -, h⟩ := h
      split at h
      · cases h
        exact ⟨(mem_loopBody hr).1, ins, hi, by simpa using (not_or.mp hop).1⟩
      · cases h

theorem findIvars_spec {rs : List ℕ} {acc ivars : List IndVar} (hrs : ∀ r ∈ rs, r ∈ buf.loopBody)
    (hacc : ∀ iv ∈ acc, IsIvar buf iv) (h : buf.findIvars rs acc = some ivars) : ∀ iv ∈ ivars, IsIvar buf iv := by
  induction rs generalizing acc with
  | nil =>
    obtain rfl : acc = ivars := Option.some.inj h
    exact hacc
  | cons r rs ih =>
    simp only [IrBuf.findIvars, Option.bind_eq_bind, Option.bind_eq_some_iff] at h
    obtain ⟨o, ho, h⟩ := h
    have hrest : ∀ r ∈ rs, r ∈ buf.loopBody := fun q hq => hrs q (List.mem_cons_of_mem r hq)
    cases o with
    | none => exact ih hrest hacc h
    | some iv =>
      have hacc' : ∀ j ∈ acc ++ [iv], IsIvar buf j := by
        intro j hj
        rcases List.mem_append.mp hj with hj | hj
        · exact hacc j hj
        · rw [List.mem_singleton.mp hj]
          exact indVar_spec (hrs r List.mem_cons_self) ho
      simp only at h
      split at h
      · obtain rfl : acc ++ [iv] = ivars := Option.some.inj h
        exact hacc'
      · exact ih hrest hacc' h

theorem modify_last_but_one {α : Type} (l : List α) (i p a : α) (f : α → α) :
    (l ++ [i] ++ [p] ++ [a]).modify (l.length + 1) f = l ++ [i, f p, a] := by
  induction l with
  | nil => rfl
  | cons x l ih => simpa using ih

/-- What is appended for one replaced instruction. -/
theorem emitIvar_spec (ins : IRIns) (lref scale : ℕ) (k : BitVec 32) :
    (∃ t, (buf.emitIvar ins lref scale k).1.k = buf.k ++ t) ∧
    (buf.emitIvar ins lref scale k).2.2 = buf.nins + 1 ∧
    ∃ i p a, (buf.emitIvar ins lref scale k).1.ins = buf.ins ++ [i, p, a] ∧ p.op = .phi ∧ a.op = .add := by
  refine ⟨?_, ?_, ?_⟩
  · simpa only [IrBuf.emitIvar, IrBuf.k_modify, IrBuf.emitIns] using kint_k k
  · simp only [IrBuf.emitIvar, IrBuf.emitIns, IrBuf.nins, kint_ins, List.length_append, List.length_singleton]
    omega
  · have hphi : (buf.nins + 1) - REF_BIAS = buf.ins.length + 1 := by
      rw [IrBuf.nins]
      omega
    have hnins : (IrBuf.emitIns (buf.kint k).1 (.new ins.op ins.t lref scale)).1.nins = buf.nins + 1 := by
      simp [IrBuf.emitIns, IrBuf.nins, kint_ins, Nat.add_assoc]
    have hlast : (IrBuf.emitIns (IrBuf.emitIns (buf.kint k).1 (.new ins.op ins.t lref scale)).1
        (.new .phi (plain ins.t.ty) (IrBuf.emitIns (buf.kint k).1 (.new ins.op ins.t lref scale)).2 0)).2 =
        buf.nins + 1 := hnins
    simp only [IrBuf.emitIvar, IrBuf.ins_modify, hlast, hphi]
    simp only [IrBuf.emitIns, kint_ins, modify_last_but_one]
    exact ⟨_, _, _, rfl, rfl, rfl⟩

/-- A replacement: a scaled PHI of the loop body, and a PHI among the appended instructions. -/
structure Replaced (buf b : IrBuf) (n : NewIvar) : Prop where
  first : REF_FIRST ≤ n.old
  old : buf.findLoop < n.old ∧ n.old < buf.nins
  scaled : ∃ iv ins k, IsIvar buf iv ∧ buf.ir n.old = some ins ∧ scaleOf iv.phi ins = some k
  lo : buf.nins ≤ n.new
  phi : ∃ ins, b.ir n.new = some ins ∧ ins.op = .phi

/-- The invariant of the loops of the pass. -/
structure Emitted (buf : IrBuf) (s : IrBuf × List NewIvar) : Prop where
  k : ∃ t, s.1.k = buf.k ++ t
  ins : ∃ t, s.1.ins = buf.ins ++ t
  news : ∀ n ∈ s.2, Replaced buf s.1 n
  last : s.2 ≠ [] → ∃ l a, s.1.ins = l ++ [a] ∧ a.op = .add

/-- What a buffer has, a longer one has at the same place. -/
theorem ir_append {b : IrBuf} (hk : ∃ t, b.k = buf.k ++ t) (hi : ∃ t, b.ins = buf.ins ++ t) {r : ℕ} {ins : IRIns}
    (h : buf.ir r = some ins) : b.ir r = some ins := by
  obtain ⟨tk, hk⟩ := hk
  obtain ⟨ti, hi⟩ := hi
  rw [IrBuf.ir] at h ⊢
  split at h
  · rename_i hr
    rw [if_pos hr, hi, List.getElem?_append_left (List.getElem?_eq_some_iff.mp h).1, h]
  · rename_i hr
    rw [if_neg hr, hk, List.getElem?_append_left (List.getElem?_eq_some_iff.mp h).1, h]

theorem ir_of_append {b : IrBuf} (hi : ∃ t, b.ins = buf.ins ++ t) {r : ℕ} {ins : IRIns} (hlo : REF_BIAS ≤ r)
    (hr : r < buf.nins) (h : b.ir r = some ins) : buf.ir r = some ins := by
  obtain ⟨t, hi⟩ := hi
  rw [IrBuf.nins] at hr
  rw [IrBuf.ir, if_pos hlo] at h ⊢
  rwa [hi, List.getElem?_append_left (by omega)] at h

/-- One more replacement keeps the invariant. -/
theorem emitted_append {iv : IndVar} {s s' : IrBuf × List NewIvar} {r scale step : ℕ} {ins i p a : IRIns}
    (hs : Emitted buf s) (hl : buf.findLoop ≠ 0) (hiv : IsIvar buf iv) (hr : r ∈ buf.loopBody)
    (hi : s.1.ir r = some ins) (hscale : scaleOf iv.phi ins = some scale) (hk : ∃ t, s'.1.k = s.1.k ++ t)
    (hins : s'.1.ins = s.1.ins ++ [i, p, a]) (hp : p.op = .phi) (ha : a.op = .add)
    (hnews : s'.2 = s.2 ++ [⟨r, step, s.1.nins + 1⟩]) : Emitted buf s' := by
  have hfirst : REF_FIRST ≤ r := by
    have hloop : REF_FIRST ≤ buf.findLoop := by
      rw [IrBuf.findLoop] at hl ⊢
      split at hl
      · omega
      · exact absurd rfl hl
    exact hloop.trans (mem_loopBody hr).1.le
  have hbias : REF_BIAS ≤ r := (Nat.le_succ _).trans hfirst
  have hlen : buf.nins ≤ s.1.nins := by
    obtain ⟨t, ht⟩ := hs.ins
    rw [IrBuf.nins, IrBuf.nins, ht, List.length_append]
    omega
  refine ⟨?_, ?_, ?_, ?_⟩
  · obtain ⟨t, ht⟩ := hs.k
    obtain ⟨u, hu⟩ := hk
    exact ⟨t ++ u, by rw [hu, ht, List.append_assoc]⟩
  · obtain ⟨t, ht⟩ := hs.ins
    exact ⟨t ++ [i, p, a], by rw [hins, ht, List.append_assoc]⟩
  · intro n hn
    rw [hnews] at hn
    rcases List.mem_append.mp hn with hn | hn
    · obtain ⟨hf, hold, hsc, hlo, q, hq, hqo⟩ := hs.news n hn
      exact ⟨hf, hold, hsc, hlo, q, ir_append hk ⟨_, hins⟩ hq, hqo⟩
    · rw [List.mem_singleton.mp hn]
      refine ⟨hfirst, mem_loopBody hr, ⟨iv, ins, scale, hiv, ?_, hscale⟩, Nat.le_succ_of_le hlen, p, ?_, hp⟩
      · exact ir_of_append hs.ins hbias (mem_loopBody hr).2 hi
      · simp only [IrBuf.ir, IrBuf.nins, hins]
        rw [if_pos (by omega), List.getElem?_append_right (by omega)]
        rw [show REF_BIAS + s.1.ins.length + 1 - REF_BIAS - s.1.ins.length = 1 by omega]
        rfl
  · intro _
    exact ⟨s.1.ins ++ [i, p], a, by rw [hins]; simp, ha⟩

theorem ivarStep_spec {iv : IndVar} {s s' : IrBuf × List NewIvar} {r : ℕ} (hl : buf.findLoop ≠ 0) (hiv : IsIvar buf iv)
    (hr : r ∈ buf.loopBody) (hs : Emitted buf s) (h : IrBuf.ivarStep iv s r = some s') : Emitted buf s' := by
  simp only [IrBuf.ivarStep, Option.bind_eq_bind, Option.bind_eq_some_iff] at h
  obtain ⟨ins, hi, h⟩ := h
  split at h
  · cases h; exact hs
  · rename_i scale hscale
    simp only [Option.bind_eq_some_iff] at h
    obtain ⟨o, -, h⟩ := h
    split at h
    · cases h; exact hs
    · rename_i step
      simp only [Option.bind_eq_some_iff] at h
      obtain ⟨o', -, h⟩ := h
      split at h
      · cases h; exact hs
      · rename_i k
        simp only [Option.bind_eq_some_iff] at h
        obtain ⟨phi, -, h⟩ := h
        rw [Option.pure_def, Option.some.injEq] at h
        obtain ⟨hk, hnew, i, p, a, hins, hp, ha⟩ := @emitIvar_spec s.1 ins phi.op1 scale (scaleStep ins.op step k)
        obtain ⟨st, hnews⟩ : ∃ st, s'.2 = s.2 ++ [⟨r, st, s.1.nins + 1⟩] := ⟨_, by rw [← h, ← hnew]⟩
        have hfst := congrArg Prod.fst h
        simp only at hfst
        rw [hfst] at hk hins
        exact emitted_append hs hl hiv hr hi hscale hk hins hp ha hnews

/-- A loop in `Option` keeps what its body keeps. -/
theorem foldlM_keeps {α β : Type} (P : β → Prop) (f : β → α → Option β) {l : List α} {b b' : β}
    (hf : ∀ x ∈ l, ∀ c c', P c → f c x = some c' → P c') (hb : P b) (h : l.foldlM f b = some b') : P b' := by
  induction l generalizing b with
  | nil =>
    obtain rfl : b = b' := Option.some.inj h
    exact hb
  | cons x l ih =>
    rw [List.foldlM_cons, Option.bind_eq_bind, Option.bind_eq_some_iff] at h
    obtain ⟨c, hc, h⟩ := h
    exact ih (fun y hy => hf y (List.mem_cons_of_mem x hy)) (hf x List.mem_cons_self b c hb hc) h

theorem newIvars_spec {s : IrBuf × List NewIvar} (hl : buf.findLoop ≠ 0) (h : buf.newIvars = some s) :
    Emitted buf s := by
  rw [IrBuf.newIvars, Option.bind_eq_bind, Option.bind_eq_some_iff] at h
  obtain ⟨ivars, hiv, h⟩ := h
  have hivars := @findIvars_spec buf buf.loopBody [] ivars (fun _ hr => hr) (by simp) hiv
  refine foldlM_keeps (Emitted buf) _ ?_ ⟨⟨[], by simp⟩, ⟨[], by simp⟩, by simp, by simp⟩ h
  intro iv hmem c c' hc hcc'
  refine foldlM_keeps (Emitted buf) _ ?_ hc hcc'
  intro r hr d d' hd hdd'
  exact ivarStep_spec hl (hivars iv hmem) hr hd hdd'

/-- A replaced operand is the new PHI of a replacement. -/
theorem substOperand_cases (news : List NewIvar) (opr : ℕ) :
    substOperand news opr = opr ∨ ∃ n ∈ news, n.old = opr ∧ substOperand news opr = n.new := by
  have hfold : ∀ (l : List NewIvar) acc, l.foldl (fun acc n => if opr = n.old then n.new else acc) acc = acc ∨
      ∃ n ∈ l, n.old = opr ∧ l.foldl (fun acc n => if opr = n.old then n.new else acc) acc = n.new := by
    intro l
    induction l with
    | nil => exact fun acc => .inl rfl
    | cons n l ih =>
      intro acc
      rw [List.foldl_cons]
      rcases ih (if opr = n.old then n.new else acc) with h | ⟨j, hj, hj'⟩
      · split at h
        · rename_i ho
          exact .inr ⟨n, List.mem_cons_self, ho.symm, by rw [if_pos ho, h]⟩
        · rename_i ho
          exact .inl (by rw [if_neg ho, h])
      · exact .inr ⟨j, List.mem_cons_of_mem n hj, hj'⟩
  exact hfold news opr

/-- What the pass makes of an instruction: an operand stays or becomes the PHI of a replacement, and then
the buffer ends with an addition. -/
structure Rewritten (buf b : IrBuf) (opr opr' : ℕ) : Prop where
  exists_new : ∃ n, Replaced buf b n ∧ n.old = opr ∧ n.new = opr'
  last : ∃ l a, b.ins = l ++ [a] ∧ a.op = .add

theorem ir_rewriteUses (b : IrBuf) (l : ℕ) (news : List NewIvar) (r : ℕ) : (b.rewriteUses l news).ir r =
    (b.ir r).map fun ins => if l < r ∧ REF_BIAS ≤ r then
      { ins with op1 := substOperand news ins.op1, op2 := substOperand news ins.op2 } else ins := by
  by_cases hr : REF_BIAS ≤ r
  · have h : REF_BIAS + (r - REF_BIAS) = r := by omega
    simp only [IrBuf.ir, hr, if_true, IrBuf.rewriteUses, List.getElem?_mapIdx, h, and_true]
  · simp only [IrBuf.ir, hr, if_false, IrBuf.rewriteUses, and_false, Option.map_id']

theorem replaced_rewriteUses {b : IrBuf} {l : ℕ} {news : List NewIvar} {n : NewIvar} (h : Replaced buf b n) :
    Replaced buf (b.rewriteUses l news) n := by
  obtain ⟨hf, hold, hsc, hlo, p, hp, hop⟩ := h
  refine ⟨hf, hold, hsc, hlo, _, by rw [ir_rewriteUses, hp]; rfl, ?_⟩
  split
  · exact hop
  · exact hop

theorem optIvar_spec {b : IrBuf} (h : optIvar buf = some b) {r : ℕ} {ins ins' : IRIns} (hi : buf.ir r = some ins)
    (hi' : b.ir r = some ins') : (ins'.op1 = ins.op1 ∨ REF_BIAS ≤ r ∧ Rewritten buf b ins.op1 ins'.op1) ∧
      (ins'.op2 = ins.op2 ∨ REF_BIAS ≤ r ∧ Rewritten buf b ins.op2 ins'.op2) := by
  rw [optIvar] at h
  split at h
  · obtain rfl : buf = b := Option.some.inj h
    rw [hi, Option.some.injEq] at hi'
    subst hi'
    exact ⟨.inl rfl, .inl rfl⟩
  · rename_i hl
    rw [Option.bind_eq_bind, Option.bind_eq_some_iff] at h
    obtain ⟨s, hs, h⟩ := h
    have he := newIvars_spec hl hs
    have hsame := ir_append he.k he.ins hi
    split at h
    · obtain rfl : s.1 = b := Option.some.inj h
      rw [hsame, Option.some.injEq] at hi'
      subst hi'
      exact ⟨.inl rfl, .inl rfl⟩
    · rename_i hne
      obtain rfl : s.1.rewriteUses buf.findLoop s.2 = b := Option.some.inj h
      rw [ir_rewriteUses, hsame, Option.map_some, Option.some.injEq] at hi'
      have hlast : ∃ l a, (s.1.rewriteUses buf.findLoop s.2).ins = l ++ [a] ∧ a.op = .add := by
        obtain ⟨l, a, hins, ha⟩ := he.last (by simpa using hne)
        refine ⟨_, _, by rw [IrBuf.rewriteUses, hins, List.mapIdx_append]; rfl, ?_⟩
        dsimp only
        split
        · exact ha
        · exact ha
      have hop : ∀ opr, substOperand s.2 opr = opr ∨
          Rewritten buf (s.1.rewriteUses buf.findLoop s.2) opr (substOperand s.2 opr) := by
        intro opr
        rcases substOperand_cases s.2 opr with h | ⟨n, hn, ho, hnew⟩
        · exact .inl h
        · exact .inr ⟨⟨n, replaced_rewriteUses (he.news n hn), ho, hnew.symm⟩, hlast⟩
      split at hi'
      · rename_i hr
        subst hi'
        exact ⟨(hop ins.op1).imp_right fun h => ⟨hr.2, h⟩, (hop ins.op2).imp_right fun h => ⟨hr.2, h⟩⟩
      · subst hi'
        exact ⟨.inl rfl, .inl rfl⟩

end Emit

/-! ### Slots that a run never writes -/

section Slots
variable {H : Type} {R : Runtime H} {tr : Trace} {m c d : Machine H} {q : ℕ}

/-- The instruction at `q` writes no slot, and no PHI that the executor assigns has it as its left operand. -/
structure Unwritten (tr : Trace) (q : ℕ) : Prop where
  phi : ∀ ins, tr.ir.ir q = some ins → ins.op = .phi
  left : ∀ p ∈ tr.phis (tr.ir.chain .loop), p.1 ≠ q

/-- The loop edge and the tail write only the left operands of the PHIs. -/
theorem tail_env (hq : ∀ p ∈ tr.phis (tr.ir.chain .loop), p.1 ≠ q) (h : tr.tail R c = some (.run d)) :
    d.env q = c.env q := by
  simp only [Trace.tail] at h
  split at h
  · split at h
    · simp only [Option.bind_eq_bind, Option.bind_eq_some_iff, Option.pure_def, Option.some.injEq] at h
      obtain ⟨env', he, h⟩ := h
      cases h
      exact Trace.assignPhis_env hq he
    · simp only [Option.bind_eq_bind, Option.bind_eq_some_iff, Option.pure_def, Option.some.injEq] at h
      obtain ⟨w, -, h⟩ := h
      cases h
      rfl
  · split at h
    · simp only [Option.bind_eq_bind, Option.bind_eq_some_iff, Option.pure_def, Option.some.injEq] at h
      obtain ⟨s, -, w, -, h⟩ := h
      cases h
      rfl
    · simp only [Trace.exitSnapshot, Option.bind_eq_bind, Option.bind_eq_some_iff, Option.pure_def,
        Option.some.injEq] at h
      obtain ⟨w, -, h⟩ := h
      cases h

theorem Unwritten.step (hq : Unwritten tr q) (h : tr.step R c = some (.run d)) : d.env q = c.env q := by
  by_cases hr : c.r < tr.ir.nins
  · obtain ⟨ins, e, hi, he, -, rfl⟩ := step_run hr h
    by_cases hcq : q = c.r
    · subst hcq
      rcases ins with ⟨op, t, op1, op2, prev⟩
      obtain rfl : op = .phi := hq.phi _ hi
      obtain rfl : Effect.skip c.world = e := Option.some.inj he
      rfl
    · exact commit_env_ne e hcq
  · rw [Trace.step, if_neg hr] at h
    exact tail_env hq.left h

theorem Unwritten.runs (hq : Unwritten tr q) (h : tr.Runs R m c) : c.env q = m.env q := by
  induction h with
  | refl => rfl
  | tail _ hs ih => rw [hq.step hs, ih]

/-- A trace that ends with another instruction has no PHIs. -/
theorem phis_eq_nil {l : List IRIns} {a : IRIns} (h : tr.ir.ins = l ++ [a]) (ha : a.op = .add) (r : ℕ) :
    tr.phis r = [] := by
  have hlen : tr.ir.ins.length = l.length + 1 := by rw [h, List.length_append, List.length_singleton]
  have hi : tr.ir.ir (REF_BIAS + l.length) = some a := by
    rw [IrBuf.ir, if_pos (by omega), h, show REF_BIAS + l.length - REF_BIAS = l.length by omega]
    simp
  rw [Trace.phis, hlen, Trace.phisFrom, hi]
  split
  · simp [ha]
  · rfl

end Slots

/-! ### The replaced product -/

section Value
variable {H : Type} (R : Runtime H) (buf : IrBuf)

/-- The value of a product or a shift, from the slots of its operands. -/
def scaledValue (env : ℕ → LuaValue) (ins : IRIns) : Option LuaValue :=
  match ins.op with
  | .mul => do evalArith R (← readRef buf env ins.op1) (← readRef buf env ins.op2) ins
  | .bshl => do
    let x ← readRef buf env ins.op1
    let y ← readRef buf env ins.op2
    some (.num (bitop x.f64.asInt32 y.f64 .bshl))
  | _ => none

variable {R buf} {phi k : ℕ} {ins : IRIns}

theorem scaleOf_op (h : scaleOf phi ins = some k) : ins.op = .mul ∨ ins.op = .bshl := by
  rw [scaleOf] at h
  split at h
  · exact .inl ‹_›
  · exact .inr ‹_›
  · cases h

theorem evalIns_scaled {m : Machine H} (h : scaleOf phi ins = some k) :
    evalIns R buf m ins = (scaledValue R buf m.env ins).map (Effect.write m.world) := by
  have hop := scaleOf_op h
  rcases ins with ⟨op, t, op1, op2, prev⟩
  rcases hop with rfl | rfl <;> simp only [evalIns, scaledValue, Option.bind_eq_bind, Option.pure_def]
  · cases readRef buf m.env op1 <;> cases readRef buf m.env op2 <;> simp
    cases evalArith R _ _ _ <;> rfl
  · cases readRef buf m.env op1 <;> cases readRef buf m.env op2 <;> rfl

/-- Only the slot of the PHI matters to it. -/
theorem scaledValue_congr (h : scaleOf phi ins = some k) {env env' : ℕ → LuaValue} (he : env' phi = env phi) :
    scaledValue R buf env' ins = scaledValue R buf env ins := by
  have hphi : readRef buf env' phi = readRef buf env phi := by rw [readRef, readRef, he]
  have hconst : ∀ r < REF_BIAS, readRef buf env' r = readRef buf env r := by
    intro r hr
    rw [readRef, readRef, if_neg (by omega), if_neg (by omega)]
  have hops : readRef buf env' ins.op1 = readRef buf env ins.op1 ∧
      readRef buf env' ins.op2 = readRef buf env ins.op2 := by
    rw [scaleOf] at h
    split at h
    · split at h
      · rename_i h'
        exact ⟨by rw [h'.1, hphi], hconst _ h'.2⟩
      · split at h
        · rename_i h'
          exact ⟨hconst _ h'.2, by rw [h'.1, hphi]⟩
        · cases h
    · split at h
      · rename_i h'
        exact ⟨by rw [h'.1, hphi], hconst _ h'.2⟩
      · cases h
    · cases h
  rw [scaledValue, scaledValue, hops.1, hops.2]

end Value

/-! ### Runs -/

section Runs
variable {H : Type} {R : Runtime H} {tr tr' : Trace} {m c c' d : Machine H}

/-- The left operands of the PHIs lie before the LOOP. -/
def PhisBelow (buf : IrBuf) : Prop := ∀ r ins, buf.ir r = some ins → ins.op = .phi → ins.op1 < buf.findLoop

theorem left_ne (hp : PhisBelow tr.ir) {q : ℕ} (hq : tr.ir.findLoop < q) :
    ∀ p ∈ tr.phis (tr.ir.chain .loop), p.1 ≠ q := by
  intro p hmem
  obtain ⟨r, ins, -, -, hi, hop, rfl⟩ := Trace.mem_phisFrom hmem
  have := hp r ins hi hop
  exact (this.trans hq).ne

/-- Once passed, the product has the value that it has on the slots of the entry. -/
theorem scaled_runs (hp : PhisBelow tr.ir) {iv : IndVar} (hiv : IsIvar tr.ir iv) {old k : ℕ} {ins : IRIns}
    (hold : tr.ir.findLoop < old ∧ old < tr.ir.nins) (hi : tr.ir.ir old = some ins)
    (hsc : scaleOf iv.phi ins = some k) (h0 : m.r = REF_FIRST) (hlo : REF_FIRST ≤ old) (h : tr.Runs R m c) :
    old < c.r → some (c.env old) = scaledValue R tr.ir m.env ins := by
  have hphi : Unwritten tr iv.phi := by
    obtain ⟨hlt, p, hp', hop⟩ := hiv
    refine ⟨?_, left_ne hp hlt⟩
    intro q hq
    rw [hp', Option.some.injEq] at hq
    rw [← hq, hop]
  induction h with
  | refl =>
    intro hr
    omega
  | @tail b d hb hs ih =>
    intro hr
    by_cases hn : b.r < tr.ir.nins
    · obtain ⟨ins', e, hi', he, hl, rfl⟩ := step_run hn hs
      by_cases hbr : b.r = old
      · subst hbr
        rw [hi, Option.some.injEq] at hi'
        subst hi'
        rw [evalIns_scaled hsc, Option.map_eq_some_iff] at he
        obtain ⟨v, hv, rfl⟩ := he
        rw [← scaledValue_congr hsc (hphi.runs hb), hv]
        simp [commit, Effect.write]
      · rw [commit_env_ne e (Ne.symm hbr)]
        refine ih ?_
        have : (commit b e).r = b.r + 1 := rfl
        omega
    · rw [Trace.step, if_neg hn] at hs
      rw [tail_env (left_ne hp hold.1) hs]
      exact ih (by omega)

/-- The slot of the new PHI holds at the entry the product that the replaced instruction computes. -/
def SlotHolds (R : Runtime H) (buf : IrBuf) (env : ℕ → LuaValue) (old new : ℕ) : Prop :=
  (buf.ir old).bind (scaledValue R buf env) = some (env new)

theorem rewritten_iff (hp : PhisBelow tr.ir) (h0 : m.r = REF_FIRST) (hr : tr.Runs R m c) (hr' : tr'.Runs R m c')
    {opr opr' : ℕ} (hw : Rewritten tr.ir tr'.ir opr opr') (hlt : opr < c.r) :
    readRef tr'.ir c'.env opr' = readRef tr.ir c.env opr ↔ SlotHolds R tr.ir m.env opr opr' := by
  obtain ⟨⟨n, hn, rfl, rfl⟩, l, a, hlast, ha⟩ := hw
  obtain ⟨iv, ins, k, hiv, hi, hsc⟩ := hn.scaled
  have hnew : Unwritten tr' n.new := by
    obtain ⟨p, hp', hop⟩ := hn.phi
    refine ⟨?_, ?_⟩
    · intro q hq
      rw [hp', Option.some.injEq] at hq
      rw [← hq, hop]
    · rw [phis_eq_nil hlast ha]
      exact fun p hp => absurd hp List.not_mem_nil
  have hval := scaled_runs hp hiv hn.old hi hsc h0 hn.first hr hlt
  have hbias : REF_BIAS ≤ n.new := (Nat.le_add_right _ _).trans hn.lo
  have hbias' : REF_BIAS ≤ n.old := (Nat.le_succ _).trans hn.first
  rw [readRef, readRef, if_pos hbias, if_pos hbias', hnew.runs hr', hval, SlotHolds, hi, Option.bind_some]
  exact eq_comm

end Runs

section Example

/-- A loop over `i = i + 1` that uses the product of its PHI and 4. -/
def scaledLoop : Trace where
  traceno := 1
  ir :=
    let (buf, one) := (IrBuf.new 0 0).knum (.ofInt 1)
    let (buf, four) := buf.knum (.ofInt 4)
    let (buf, i) := buf.emitIns (.new .sload (guarded .num) 2 0)
    let (buf, add) := buf.emitIns (.new .add (plain .num) i one)
    let (buf, _) := buf.emitIns (.new .loop (guarded .nil) 0 0)
    let (buf, phi) := buf.emitIns (.new .phi (plain .num) i add)
    let (buf, mul) := buf.emitIns (.new .mul (plain .num) phi four)
    (buf.emitIns (.new .add (plain .num) mul one)).1
  snap := [⟨0, REF_FIRST, 0, 2, 2, 0⟩]
  snapmap := []
  linktype := .loop
  link := 1

/-- The entry with a number in stack slot 2 and `x` left in every value slot. -/
def entryLoop (x : F64) : Machine Unit where
  r := REF_FIRST
  env _ := .num x
  world := ⟨fun _ => .num .zero, fun _ => none, ()⟩
  cbase := 2
  clock := 0

/-- The left operand of the use, at its first execution. -/
def useValue (tr : Trace) (x : F64) : Option LuaValue :=
  (advance .bare tr.ir 5 (entryLoop x)).bind fun c => (tr.ir.ir c.r).bind fun ins => readRef tr.ir c.env ins.op1

theorem useValue_eq {tr : Trace} {x : F64} {v : LuaValue} (h : useValue tr x = some v) :
    ∃ c ins, tr.Runs .bare (entryLoop x) c ∧ c.r = REF_FIRST + 5 ∧ tr.ir.ir c.r = some ins ∧
      readRef tr.ir c.env ins.op1 = some v := by
  simp only [useValue, Option.bind_eq_some_iff] at h
  obtain ⟨c, hc, ins, hi, hv⟩ := h
  exact ⟨c, ins, (advance_straight hc).runs, advance_r hc, hi, hv⟩

theorem scaledLoop_phisBelow : PhisBelow scaledLoop.ir := by
  have hall : ∀ ins ∈ scaledLoop.ir.ins ++ scaledLoop.ir.k, ins.op = .phi → ins.op1 < scaledLoop.ir.findLoop := by
    decide
  intro r ins hi
  refine hall ins ?_
  rw [IrBuf.ir] at hi
  split at hi
  · exact List.mem_append_left _ (List.mem_of_getElem? hi)
  · exact List.mem_append_right _ (List.mem_of_getElem? hi)

end Example
end LuajitRs.Ir
