import LuajitRs.Jit.Opt.Sink

/-! The pass as one rewriting of the trace. Every sunk allocation leaves the trace with its collection check
and its loads, the uses of a load become a constant, and every other instruction stays where it was. -/
namespace LuajitRs.Ir

section Static
variable (hash : LuaValue → UInt32) (templates : ℕ → Option LuaTable) (tr : Trace)

/-- The template behind a table allocation, with its numbers, when there are any. -/
def Trace.sunkTable (al : ℕ) : Option (LuaTable × List (ℤ × F64)) := do
  let ins ← tr.ir.ir al
  if ins.op = .tdup then
    let t ← ← templateAt templates tr.ir ins.op1
    let nums ← templateNumbers hash t 64 1
    if nums.isEmpty then none else some (t, nums)
  else none

/-- Processing the allocation removes it. -/
def Trace.isSunk (al : ℕ) : Bool := (tr.ir.ir al).any (·.op = .cnew) || (tr.sunkTable hash templates al).isSome

/-- The table operand of a load. -/
def Trace.loadedFrom (r : ℕ) : Option ℕ := (tr.ir.ir r).bind fun ins => if isLoad ins.op then some ins.op1 else none

/-- The instructions that sinking the allocations `L` removes. -/
inductive Trace.Eliminated (L : List ℕ) (r : ℕ) : Prop
  | alloc (h : r ∈ L) (hs : tr.isSunk hash templates r = true)
  | gcstep {al : ℕ} (h : al ∈ L) (hs : tr.isSunk hash templates al = true) (hr : r = al + 1)
      (hop : (tr.ir.ir r).any (·.op = .gcstep) = true)
  | load {al : ℕ} (h : al ∈ L) (hs : (tr.sunkTable hash templates al).isSome) (hr : REF_FIRST ≤ r)
      (hl : tr.loadedFrom r = some al)

/-- A load under an integer key for which the template has the number. -/
def Trace.LoadsField (r : ℕ) (n : ℤ × F64) : Prop :=
  ∃ ins, tr.ir.ir r = some ins ∧ tr.ir.constBits ins.op2 = some (.num (.ofInt n.1))

/-- The uses that the pass can replace: a sunk table is only loaded from, under the keys of its numbers,
nothing refers to a sunk closure or a removed check, and no PHI writes to a removed load. -/
structure Trace.SinkUses (L : List ℕ) : Prop where
  tables : ∀ al ∈ L, ∀ p, tr.sunkTable hash templates al = some p → ∀ r ins, REF_FIRST ≤ r → tr.ir.ir r = some ins →
    ins.op1 = al ∨ ins.op2 = al →
    isLoad ins.op = true ∧ ins.op1 = al ∧ ∃ n ∈ p.2, tr.ir.findKnum (.ofInt n.1) = some ins.op2
  others : ∀ q, tr.Eliminated hash templates L q → tr.sunkTable hash templates q = none → tr.loadedFrom q = none →
    ∀ r ins, REF_FIRST ≤ r → tr.ir.ir r = some ins → ins.op1 ≠ q ∧ ins.op2 ≠ q
  phis : ∀ q, tr.Eliminated hash templates L q → ∀ r ins, tr.ir.ir r = some ins → ins.op = .phi → ins.op1 ≠ q

/-- The allocations that the pass goes through. -/
def Trace.sinkList : List ℕ := tr.sinkMark.ir.sinkAllocs

/-- The form of a trace that the recorder hands over. -/
structure Trace.SinkWf : Prop where
  ssa : tr.ir.SSA
  consts : tr.ir.ConstsOk
  /-- A table allocation names its template by a constant. -/
  template : ∀ r ins, REF_FIRST ≤ r → tr.ir.ir r = some ins → ins.op = .tdup →
    ins.op1 < REF_BIAS ∧ (tr.ir.k64Val ins.op1).isSome
  /-- Literal operands are no references. -/
  slots : ∀ r ins, REF_FIRST ≤ r → tr.ir.ir r = some ins → ins.op = .sload → ins.op1 < REF_BIAS
  literals : ∀ r ins, REF_FIRST ≤ r → tr.ir.ir r = some ins → ins.op = .calll ∨ ins.op = .fpmath ∨ ins.op = .conv →
    ins.op2 < REF_BIAS
  loop : tr.ir.chain .loop ≠ 0 → REF_BIAS ≤ tr.ir.chain .loop
  /-- There is room for the constants of the templates. -/
  room : tr.ir.k.length + 128 * tr.sinkList.length < REF_BIAS

end Static

/-- An instruction with its operands substituted, up to its marks and its chain. -/
structure SameUpTo (σ : ℕ → ℕ) (ins ins' : IRIns) : Prop where
  op : ins'.op = ins.op
  ty : ins'.t.ty = ins.t.ty
  guard : ins'.t.guard = ins.t.guard
  op1 : ins'.op1 = σ ins.op1
  op2 : ins'.op2 = σ ins.op2

/-- A removed instruction. -/
def IRIns.IsNop (ins : IRIns) : Prop := ins.op = .nop ∧ ins.op1 = 0 ∧ ins.op2 = 0

section Certificate
variable (hash : LuaValue → UInt32) (templates : ℕ → Option LuaTable) (tr : Trace)

/-- The trace after the allocations `L`: the substitution `σ` sends the removed loads to their constants. -/
structure Sinking (L : List ℕ) (cur : Trace) (σ : ℕ → ℕ) : Prop where
  lo : ∀ al ∈ L, REF_FIRST ≤ al
  ext : tr.ir.ConstsExt cur.ir
  ok : cur.ir.ConstsOk
  len : cur.ir.ins.length = tr.ir.ins.length
  loop : cur.ir.chain .loop = tr.ir.chain .loop
  rest : cur.snap = tr.snap ∧ cur.traceno = tr.traceno ∧ cur.linktype = tr.linktype ∧ cur.link = tr.link
  snapmap : List.Forall₂ (fun e e' => ¬(e.ref ∈ L ∧ tr.isSunk hash templates e.ref = true) → e' = e)
    tr.snapmap cur.snapmap
  base : cur.ir.ir REF_BASE = tr.ir.ir REF_BASE
  keep : ∀ r ins, REF_FIRST ≤ r → tr.ir.ir r = some ins → ¬ tr.Eliminated hash templates L r →
    ∃ ins', cur.ir.ir r = some ins' ∧ SameUpTo σ ins ins'
  gone : ∀ r ins, tr.Eliminated hash templates L r → cur.ir.ir r = some ins → ins.IsNop
  subst : ∀ q, σ q = q ∨ ∃ al ∈ L, ∃ p, tr.sunkTable hash templates al = some p ∧ tr.loadedFrom q = some al ∧
    REF_FIRST ≤ q ∧ σ q < REF_BIAS ∧ ∃ n ∈ p.2, tr.LoadsField q n ∧ cur.ir.constBits (σ q) = some (.num n.2)
  moved : ∀ q, ∀ al ∈ L, (tr.sunkTable hash templates al).isSome → tr.loadedFrom q = some al → REF_FIRST ≤ q →
    σ q < REF_BIAS

end Certificate

section Step
variable {hash : LuaValue → UInt32} {templates : ℕ → Option LuaTable} {tr cur : Trace} {L : List ℕ} {σ : ℕ → ℕ} {al : ℕ}

theorem Trace.Eliminated.mono {L' : List ℕ} (hL : ∀ q ∈ L, q ∈ L') {r : ℕ} (h : tr.Eliminated hash templates L r) :
    tr.Eliminated hash templates L' r := by
  cases h with
  | alloc h hs => exact .alloc (hL _ h) hs
  | gcstep h hs hr hop => exact .gcstep (hL _ h) hs hr hop
  | load h hs hr hl => exact .load (hL _ h) hs hr hl

theorem isSunk_of_table (h : (tr.sunkTable hash templates al).isSome) : tr.isSunk hash templates al = true := by
  rw [Trace.isSunk, h, Bool.or_true]

theorem sunkTable_op (h : (tr.sunkTable hash templates al).isSome) : ∃ ins, tr.ir.ir al = some ins ∧ ins.op = .tdup := by
  obtain ⟨p, hp⟩ := Option.isSome_iff_exists.mp h
  simp only [Trace.sunkTable, Option.bind_eq_bind, Option.bind_eq_some_iff] at hp
  obtain ⟨ins, hi, hp⟩ := hp
  split at hp
  · rename_i hop
    exact ⟨ins, hi, hop⟩
  · cases hp

theorem isSunk_op (h : tr.isSunk hash templates al = true) :
    ∃ ins, tr.ir.ir al = some ins ∧ (ins.op = .cnew ∨ ins.op = .tdup) := by
  rw [Trace.isSunk, Bool.or_eq_true] at h
  rcases h with h | h
  · rw [Option.any_eq_true] at h
    obtain ⟨ins, hi, hop⟩ := h
    exact ⟨ins, hi, .inl (of_decide_eq_true hop)⟩
  · obtain ⟨ins, hi, hop⟩ := sunkTable_op h
    exact ⟨ins, hi, .inr hop⟩

theorem loadedFrom_eq {r : ℕ} (h : tr.loadedFrom r = some al) :
    ∃ ins, tr.ir.ir r = some ins ∧ isLoad ins.op = true ∧ ins.op1 = al := by
  rw [Trace.loadedFrom, Option.bind_eq_some_iff] at h
  obtain ⟨ins, hi, h⟩ := h
  split at h
  · rename_i hop
    exact ⟨ins, hi, hop, Option.some.inj h⟩
  · cases h

/-- The operations that can be removed. -/
theorem eliminated_op {r : ℕ} (h : tr.Eliminated hash templates L r) :
    ∃ ins, tr.ir.ir r = some ins ∧
      (ins.op = .cnew ∨ ins.op = .tdup ∨ ins.op = .gcstep ∨ ins.op = .aload ∨ ins.op = .hload) := by
  cases h with
  | alloc _ hs =>
    obtain ⟨ins, hi, hop⟩ := isSunk_op hs
    exact ⟨ins, hi, by tauto⟩
  | gcstep _ _ _ hop =>
    rw [Option.any_eq_true] at hop
    obtain ⟨ins, hi, hop⟩ := hop
    exact ⟨ins, hi, .inr (.inr (.inl (of_decide_eq_true hop)))⟩
  | load _ _ _ hl =>
    obtain ⟨ins, hi, hop, -⟩ := loadedFrom_eq hl
    rw [isLoad, Bool.or_eq_true, decide_eq_true_eq, decide_eq_true_eq] at hop
    exact ⟨ins, hi, by tauto⟩

/-- Nothing is removed for an allocation that is not sunk. -/
theorem eliminated_unsunk (hs : tr.isSunk hash templates al = false) {r : ℕ}
    (h : tr.Eliminated hash templates (L ++ [al]) r) : tr.Eliminated hash templates L r := by
  have hmem : ∀ q ∈ L ++ [al], tr.isSunk hash templates q = true → q ∈ L := by
    intro q hq hsq
    rcases List.mem_append.mp hq with hq | hq
    · exact hq
    · rw [List.mem_singleton.mp hq, hs] at hsq
      cases hsq
  cases h with
  | alloc h hs' => exact .alloc (hmem _ h hs') hs'
  | gcstep h hs' hr hop => exact .gcstep (hmem _ h hs') hs' hr hop
  | load h hs' hr hl => exact .load (hmem _ h (isSunk_of_table hs')) hs' hr hl

/-- A constant is not substituted. -/
theorem Sinking.const (h : Sinking hash templates tr L cur σ) {q : ℕ} (hq : q < REF_FIRST) : σ q = q := by
  rcases h.subst q with hσ | ⟨-, -, -, -, -, hlo, -⟩
  · exact hσ
  · omega

theorem Trace.Eliminated.lo (hL : ∀ a ∈ L, REF_FIRST ≤ a) {r : ℕ} (h : tr.Eliminated hash templates L r) :
    REF_FIRST ≤ r := by
  cases h with
  | alloc h _ => exact hL r h
  | gcstep h _ hr _ => exact hr ▸ (hL _ h).trans (Nat.le_succ _)
  | load _ _ hr _ => exact hr

/-- What a substituted operand comes from. -/
theorem Sinking.preimage (h : Sinking hash templates tr L cur σ) {q a : ℕ} (ha : REF_BIAS ≤ a) (hq : σ q = a) :
    q = a := by
  rcases h.subst q with hσ | ⟨-, -, -, -, -, -, hlt, -⟩
  · rw [← hσ, hq]
  · omega

/-- An instruction that was not removed, as it was. -/
theorem Sinking.kept (h : Sinking hash templates tr L cur σ) {r : ℕ} {ins' : IRIns} (hr : REF_FIRST ≤ r)
    (hi : cur.ir.ir r = some ins') (hne : ¬ tr.Eliminated hash templates L r) :
    ∃ ins, tr.ir.ir r = some ins ∧ SameUpTo σ ins ins' := by
  have hbias : REF_BIAS ≤ r := (Nat.le_succ _).trans hr
  have hlt := lt_nins hbias hi
  have hlen : cur.ir.nins = tr.ir.nins := by rw [IrBuf.nins, IrBuf.nins, h.len]
  have hget : ∃ ins, tr.ir.ir r = some ins := by
    rw [IrBuf.ir, if_pos hbias]
    refine ⟨_, List.getElem?_eq_getElem ?_⟩
    rw [hlen, IrBuf.nins] at hlt
    omega
  obtain ⟨ins, hins⟩ := hget
  obtain ⟨ins'', hi'', hsame⟩ := h.keep r ins hr hins hne
  rw [hi, Option.some.injEq] at hi''
  subst hi''
  exact ⟨ins, hins, hsame⟩

theorem Sinking.back (h : Sinking hash templates tr L cur σ) {r : ℕ} {ins' : IRIns} (hr : REF_FIRST ≤ r)
    (hi : cur.ir.ir r = some ins') (hop : ins'.op ≠ .nop) : ∃ ins, tr.ir.ir r = some ins ∧ SameUpTo σ ins ins' :=
  h.kept hr hi fun he => hop (h.gone r ins' he hi).1

/-- An allocation that is not sunk leaves everything as it is. -/
theorem Sinking.unsunk (h : Sinking hash templates tr L cur σ) (hs : tr.isSunk hash templates al = false)
    (hal : REF_FIRST ≤ al) : Sinking hash templates tr (L ++ [al]) cur σ where
  lo := List.forall_mem_append.mpr ⟨h.lo, List.forall_mem_singleton.mpr hal⟩
  ext := h.ext
  ok := h.ok
  len := h.len
  loop := h.loop
  rest := h.rest
  snapmap := h.snapmap.imp fun e e' he hne => he fun hin => hne ⟨List.mem_append_left _ hin.1, hin.2⟩
  base := h.base
  keep r ins hr hi hne := h.keep r ins hr hi fun he => hne (he.mono fun _ => List.mem_append_left _)
  gone r ins he hi := h.gone r ins (eliminated_unsunk hs he) hi
  subst q := (h.subst q).imp id fun ⟨a, ha, rest⟩ => ⟨a, List.mem_append_left _ ha, rest⟩
  moved q a ha hsa hl hr := by
    rcases List.mem_append.mp ha with ha | ha
    · exact h.moved q a ha hsa hl hr
    · rw [List.mem_singleton.mp ha] at hsa
      rw [isSunk_of_table hsa] at hs
      cases hs

end Step
/-! ### Sinking one allocation -/

/-- The buffer after sinking the allocation `al` with the loads `fw`. -/
def sunkBuf (b : IrBuf) (fw : List (ℕ × ℕ)) (al : ℕ) : IrBuf := ((b.forwardLoads fw).nopGcstep al).modify al .setNop

theorem sunkBuf_rest (b : IrBuf) (fw : List (ℕ × ℕ)) (al : ℕ) : (sunkBuf b fw al).k = b.k ∧
    (sunkBuf b fw al).k64 = b.k64 ∧ (sunkBuf b fw al).chain = b.chain ∧ (sunkBuf b fw al).ins.length = b.ins.length := by
  obtain ⟨h1, h2, h3, h4⟩ := nopAlloc_rest (b := b.forwardLoads fw) al
  obtain ⟨g1, g2, g3, g4⟩ := forwardLoads_rest (b := b) fw
  exact ⟨h1.trans g1, h2.trans g2, h3.trans g3, h4.trans g4⟩

theorem setNop_isNop (ins : IRIns) : ins.setNop.IsNop := ⟨rfl, rfl, rfl⟩

/-- The loads that sinking `al` forwards. -/
structure Forwards (hash : LuaValue → UInt32) (templates : ℕ → Option LuaTable) (tr : Trace) (b : IrBuf) (al : ℕ)
    (fw : List (ℕ × ℕ)) : Prop where
  sound : ∀ p ∈ fw, REF_FIRST ≤ p.1 ∧ p.2 < REF_BIAS ∧ tr.loadedFrom p.1 = some al ∧
    ∃ P, tr.sunkTable hash templates al = some P ∧
      ∃ n ∈ P.2, tr.LoadsField p.1 n ∧ b.constBits p.2 = some (.num n.2)
  complete : ∀ r, REF_FIRST ≤ r → tr.loadedFrom r = some al → (tr.sunkTable hash templates al).isSome →
    ∃ p ∈ fw, p.1 = r

section Sink
variable {hash : LuaValue → UInt32} {templates : ℕ → Option LuaTable} {tr cur : Trace} {L : List ℕ} {σ : ℕ → ℕ} {al : ℕ}
  {b : IrBuf} {fw : List (ℕ × ℕ)}

theorem Forwards.bounds (hf : Forwards hash templates tr b al fw) : ∀ p ∈ fw, p.2 < REF_BIAS ∧ REF_BIAS ≤ p.1 := by
  intro p hp
  obtain ⟨hlo, hlt, -⟩ := hf.sound p hp
  exact ⟨hlt, (Nat.le_succ _).trans hlo⟩

/-- An instruction that sinking `al` removes, or one that it keeps. -/
theorem sunkBuf_ir (hf : Forwards hash templates tr b al fw) (hal : REF_FIRST ≤ al) {r : ℕ} (hr : REF_FIRST ≤ r) :
    (sunkBuf b fw al).ir r =
      if (r = al ∨ r = al + 1 ∧ ((b.forwardLoads fw).ir (al + 1)).any (·.op = .gcstep) = true) ∨ ∃ p ∈ fw, p.1 = r then
        (b.ir r).map .setNop
      else (b.ir r).map (substOps (substFw fw)) := by
  have hbias : ∀ p ∈ fw, REF_BIAS ≤ p.1 := fun p hp => (hf.bounds p hp).2
  rw [sunkBuf, ir_nopAlloc ((Nat.le_succ _).trans hal), ir_forwardLoads hbias hr]
  by_cases hfw : ∃ p ∈ fw, p.1 = r
  · simp only [hfw, or_true, if_true]
    split
    · cases b.ir r <;> rfl
    · rfl
  · simp only [hfw, or_false, if_false]
    split
    · rw [Option.map_map]
      rfl
    · rfl

theorem sunkBuf_base (hf : Forwards hash templates tr b al fw) (hal : REF_FIRST ≤ al) :
    (sunkBuf b fw al).ir REF_BASE = b.ir REF_BASE := by
  have hfirst : REF_FIRST = REF_BASE + 1 := rfl
  have hbias : ∀ p ∈ fw, REF_BIAS ≤ p.1 := fun p hp => (hf.bounds p hp).2
  have hne : ¬ ∃ p ∈ fw, p.1 = REF_BASE := by
    rintro ⟨p, hp, hpr⟩
    have := (hf.sound p hp).1
    omega
  rw [sunkBuf, ir_nopAlloc ((Nat.le_succ _).trans hal), if_neg (by omega), IrBuf.forwardLoads, ir_setNops hbias,
    if_neg hne, ir_base_replaceRefs]

/-- A collection check that is still there behind the allocation was there in the trace. -/
theorem gcstep_back (h : Sinking hash templates tr L cur σ) (hf : Forwards hash templates tr b al fw)
    (hins : b.ins = cur.ir.ins) (hal : REF_FIRST ≤ al)
    (hg : ((b.forwardLoads fw).ir (al + 1)).any (·.op = .gcstep) = true) :
    (tr.ir.ir (al + 1)).any (·.op = .gcstep) = true := by
  have hr : REF_FIRST ≤ al + 1 := by omega
  have hbias : REF_BIAS ≤ al + 1 := (Nat.le_succ _).trans hr
  rw [Option.any_eq_true] at hg ⊢
  obtain ⟨ins', hi', hop'⟩ := hg
  rw [ir_forwardLoads (fun p hp => (hf.bounds p hp).2) hr] at hi'
  split at hi'
  · rw [Option.map_eq_some_iff] at hi'
    obtain ⟨i, -, rfl⟩ := hi'
    cases hop'
  · rw [Option.map_eq_some_iff] at hi'
    obtain ⟨i, hi, rfl⟩ := hi'
    have hi0 : cur.ir.ir (al + 1) = some i := by
      rw [IrBuf.ir, if_pos hbias] at hi ⊢
      rw [← hins, hi]
    have hop : i.op = .gcstep := of_decide_eq_true hop'
    obtain ⟨ins, hins0, hsame⟩ := h.back hr hi0 (by rw [hop]; decide)
    exact ⟨ins, hins0, by rw [← hsame.op, hop]; rfl⟩

/-- What the pass does not remove now was removed before, if it is removed at all. -/
theorem eliminated_before (h : Sinking hash templates tr L cur σ) (hf : Forwards hash templates tr b al fw)
    (hins : b.ins = cur.ir.ins) (hal : REF_FIRST ≤ al) {r : ℕ} (he : tr.Eliminated hash templates (L ++ [al]) r)
    (hne : ¬((r = al ∨ r = al + 1 ∧ ((b.forwardLoads fw).ir (al + 1)).any (·.op = .gcstep) = true) ∨
      ∃ p ∈ fw, p.1 = r)) : tr.Eliminated hash templates L r := by
  by_contra heL
  cases he with
  | alloc hmem hs =>
    rcases List.mem_append.mp hmem with hmem | hmem
    · exact heL (.alloc hmem hs)
    · exact hne (.inl (.inl (List.mem_singleton.mp hmem)))
  | @gcstep a hmem hs hr hop =>
    rcases List.mem_append.mp hmem with hmem | hmem
    · exact heL (.gcstep hmem hs hr hop)
    · obtain rfl := List.mem_singleton.mp hmem
      subst hr
      refine hne (.inl (.inr ⟨rfl, ?_⟩))
      rw [Option.any_eq_true] at hop ⊢
      obtain ⟨ins, hi, hop⟩ := hop
      have hr : REF_FIRST ≤ a + 1 := hal.trans (Nat.le_succ a)
      have hbias : REF_BIAS ≤ a + 1 := (Nat.le_succ _).trans hr
      obtain ⟨ins', hi', hsame⟩ := h.keep _ ins hr hi heL
      have hb : b.ir (a + 1) = some ins' := by
        rw [IrBuf.ir, if_pos hbias] at hi' ⊢
        rw [hins, hi']
      refine ⟨substOps (substFw fw) ins', ?_, ?_⟩
      · rw [ir_forwardLoads (fun p hp => (hf.bounds p hp).2) hr, if_neg (fun hex => hne (.inr hex)), hb]
        rfl
      · rw [← hop]
        exact congrArg (fun o => decide (o = IROp.gcstep)) hsame.op
  | load hmem hs hr hl =>
    rcases List.mem_append.mp hmem with hmem | hmem
    · exact heL (.load hmem hs hr hl)
    · rw [List.mem_singleton.mp hmem] at hs hl
      exact hne (.inr (hf.complete r hr hl hs))

/-- Sinking an allocation, with its loads forwarded to constants of the buffer `b`. -/
theorem Sinking.sink (h : Sinking hash templates tr L cur σ) (hext : cur.ir.ConstsExt b) (hok : b.ConstsOk)
    (hins : b.ins = cur.ir.ins) (hloop : b.chain .loop = cur.ir.chain .loop)
    (hs : tr.isSunk hash templates al = true) (hal : REF_FIRST ≤ al) (hf : Forwards hash templates tr b al fw) :
    Sinking hash templates tr (L ++ [al]) { cur with ir := sunkBuf b fw al, snapmap := cur.snapmap.map (dropSnap al) }
      (substFw fw ∘ σ) := by
  obtain ⟨hk, h64, hchain, hlen⟩ := sunkBuf_rest b fw al
  have hbits : ∀ r, (sunkBuf b fw al).constBits r = b.constBits r := IrBuf.constBits_congr b _ hk h64
  have hin : al ∈ L ++ [al] := List.mem_append_right _ (List.mem_singleton.mpr rfl)
  have hmono : ∀ {r}, tr.Eliminated hash templates L r → tr.Eliminated hash templates (L ++ [al]) r :=
    fun he => he.mono fun _ => List.mem_append_left _
  have hget : ∀ {r}, REF_FIRST ≤ r → b.ir r = cur.ir.ir r := by
    intro r hr
    have hbias : REF_BIAS ≤ r := (Nat.le_succ _).trans hr
    rw [IrBuf.ir, IrBuf.ir, if_pos hbias, if_pos hbias, hins]
  have hfixed : ∀ {o}, o < REF_BIAS → substFw fw o = o := fun ho => substFw_const hf.bounds ho
  have hlo : ∀ a ∈ L ++ [al], REF_FIRST ≤ a := List.forall_mem_append.mpr ⟨h.lo, List.forall_mem_singleton.mpr hal⟩
  refine ⟨hlo, h.ext.trans (hext.trans (hok.ext hk h64 hchain)), hok.congr hk h64 hchain, ?_, ?_, h.rest, ?_, ?_, ?_, ?_,
    ?_, ?_⟩
  · rw [hlen, hins, h.len]
  · rw [hchain, hloop, h.loop]
  · refine List.forall₂_map_right_iff.mpr (h.snapmap.imp ?_)
    intro e e' he hne
    have hee : e' = e := he fun hmem => hne ⟨List.mem_append_left _ hmem.1, hmem.2⟩
    have href : e'.ref ≠ al := by
      rw [hee]
      rintro rfl
      exact hne ⟨hin, hs⟩
    rw [dropSnap, if_neg href, hee]
  · show (sunkBuf b fw al).ir REF_BASE = _
    have hbase : b.ir REF_BASE = cur.ir.ir REF_BASE := by
      rw [IrBuf.ir, IrBuf.ir, if_pos le_rfl, if_pos le_rfl, hins]
    rw [sunkBuf_base hf hal, hbase, h.base]
  · intro r ins hr hi hne
    obtain ⟨ins', hi', hsame⟩ := h.keep r ins hr hi fun he => hne (hmono he)
    refine ⟨substOps (substFw fw) ins', ?_, ⟨hsame.op, hsame.ty, hsame.guard, ?_, ?_⟩⟩
    · show (sunkBuf b fw al).ir r = _
      rw [sunkBuf_ir hf hal hr, if_neg, hget hr, hi', Option.map_some]
      rintro ((rfl | ⟨rfl, hg⟩) | ⟨p, hp, rfl⟩)
      · exact hne (.alloc hin hs)
      · exact hne (.gcstep hin hs rfl (gcstep_back h hf hins hal hg))
      · obtain ⟨hlo, -, hl, P, hP, -⟩ := hf.sound p hp
        exact hne (.load hin (by rw [hP]; rfl) hlo hl)
    · exact congrArg (substFw fw) hsame.op1
    · exact congrArg (substFw fw) hsame.op2
  · intro r ins he hi
    change (sunkBuf b fw al).ir r = some ins at hi
    rw [sunkBuf_ir hf hal (he.lo hlo)] at hi
    split at hi
    · rw [Option.map_eq_some_iff] at hi
      obtain ⟨i, -, rfl⟩ := hi
      exact setNop_isNop i
    · rename_i hne
      rw [Option.map_eq_some_iff, hget (he.lo hlo)] at hi
      obtain ⟨i, hi, rfl⟩ := hi
      have heL := eliminated_before h hf hins hal he hne
      obtain ⟨hop, h1, h2⟩ := h.gone r i heL hi
      have h0 : substFw fw 0 = 0 := hfixed (by decide)
      exact ⟨hop, by rw [substOps, h1, h0], by rw [substOps, h2, h0]⟩
  · intro q
    rcases h.subst q with hq | ⟨a, ha, p, hp, hl, hlo, hlt, n, hn, hload, hv⟩
    · rcases substFw_cases hf.bounds q with hfix | hmem
      · left
        rw [Function.comp_apply, hq, hfix]
      · obtain ⟨hlo, hlt, hl, P, hP, n, hn, hload, hv⟩ := hf.sound _ hmem
        refine .inr ⟨al, hin, P, hP, hl, hlo, ?_⟩
        rw [Function.comp_apply, hq]
        exact ⟨hlt, n, hn, hload, (hbits _).trans hv⟩
    · refine .inr ⟨a, List.mem_append_left _ ha, p, hp, hl, hlo, ?_⟩
      rw [Function.comp_apply, hfixed hlt]
      exact ⟨hlt, n, hn, hload, (hbits _).trans (hext.constBits hv)⟩
  · intro q a ha hsa hl hlo
    rw [Function.comp_apply]
    rcases h.subst q with hq | ⟨-, -, -, -, -, -, hlt, -⟩
    · rcases List.mem_append.mp ha with ha | ha
      · rw [hfixed (h.moved q a ha hsa hl hlo)]
        exact h.moved q a ha hsa hl hlo
      · rw [List.mem_singleton.mp ha] at hsa hl
        rw [hq]
        exact substFw_lt hf.bounds (hf.complete q hlo hl hsa)
    · rwa [hfixed hlt]

end Sink

/-! ### The whole pass -/

section Pass
variable {hash : LuaValue → UInt32} {templates : ℕ → Option LuaTable} {tr cur cur' : Trace} {L all : List ℕ} {σ : ℕ → ℕ}
  {al : ℕ}

theorem sinkOne_length (h : cur.sinkOne hash templates al = some cur') : cur.ir.k.length ≤ cur'.ir.k.length := by
  simp only [Trace.sinkOne, Option.bind_eq_bind, Option.bind_eq_some_iff] at h
  obtain ⟨ins, -, h⟩ := h
  split at h
  · cases h
    rw [Trace.sinkCnew, (nopAlloc_rest al).1]
  · simp only [Trace.sinkTdup, Option.bind_eq_bind, Option.bind_eq_some_iff] at h
    obtain ⟨t, -, h⟩ := h
    cases t with
    | none => cases h; exact le_rfl
    | some t =>
      simp only [Option.bind_eq_some_iff] at h
      obtain ⟨nums, -, h⟩ := h
      split at h
      · cases h; exact le_rfl
      · cases h
        refine (keySteps_length nums (cur.ir, [])).trans_eq ?_
        exact congrArg List.length (sunkBuf_rest (cur.ir.keyToVal nums).1 _ al).1.symm

theorem templateNumbers_length {t : LuaTable} {k : ℕ} {i : ℤ} {nums : List (ℤ × F64)}
    (h : templateNumbers hash t k i = some nums) : nums.length ≤ k := by
  induction k generalizing i nums with
  | zero => cases h; exact le_rfl
  | succ k ih =>
    simp only [templateNumbers, Option.bind_eq_bind, Option.bind_eq_some_iff] at h
    obtain ⟨v, -, h⟩ := h
    cases v with
    | nil => cases h; exact Nat.zero_le _
    | num x =>
      rw [Option.map_eq_some_iff] at h
      obtain ⟨rest, hrest, rfl⟩ := h
      exact Nat.succ_le_succ (ih hrest)
    | _ => exact (ih h).trans (Nat.le_succ k)

/-- One allocation adds at most two constants for each of the 64 keys. -/
theorem sinkOne_bound (h : cur.sinkOne hash templates al = some cur') : cur'.ir.k.length ≤ cur.ir.k.length + 128 := by
  simp only [Trace.sinkOne, Option.bind_eq_bind, Option.bind_eq_some_iff] at h
  obtain ⟨ins, -, h⟩ := h
  split at h
  · cases h
    rw [Trace.sinkCnew, (nopAlloc_rest al).1]
    exact Nat.le_add_right _ _
  · simp only [Trace.sinkTdup, Option.bind_eq_bind, Option.bind_eq_some_iff] at h
    obtain ⟨t, -, h⟩ := h
    cases t with
    | none => cases h; exact Nat.le_add_right _ _
    | some t =>
      simp only [Option.bind_eq_some_iff] at h
      obtain ⟨nums, hnums, h⟩ := h
      split at h
      · cases h; exact Nat.le_add_right _ _
      · cases h
        refine (congrArg List.length (sunkBuf_rest (cur.ir.keyToVal nums).1 _ al).1).trans_le ?_
        refine (keySteps_bound nums (cur.ir, [])).trans ?_
        have := templateNumbers_length hnums
        show cur.ir.k.length + 2 * nums.length ≤ cur.ir.k.length + 128
        omega

theorem sinkFold_bound {als : List ℕ} (h : als.foldlM (Trace.sinkOne hash templates) cur = some cur') :
    cur'.ir.k.length ≤ cur.ir.k.length + 128 * als.length := by
  induction als generalizing cur with
  | nil => cases h; exact le_rfl
  | cons al als ih =>
    rw [List.foldlM_cons, Option.bind_eq_bind, Option.bind_eq_some_iff] at h
    obtain ⟨mid, hone, h⟩ := h
    have hmid := sinkOne_bound hone
    have hrest := ih h
    rw [List.length_cons]
    omega

/-- The constants of the result are in range. -/
theorem optSink_consts {tr' : Trace} (hwf : tr.SinkWf) (h : optSink hash templates tr = some tr') :
    tr'.ir.k.length < REF_BIAS :=
  (sinkFold_bound h).trans_lt hwf.room

/-- The allocation that the pass finds at its place. -/
theorem Sinking.alloc (h : Sinking hash templates tr L cur σ) (hnew : al ∉ L) (hal : REF_FIRST ≤ al) {ins : IRIns}
    (hi : tr.ir.ir al = some ins) (hop : ins.op = .tdup ∨ ins.op = .cnew) :
    ∃ ins', cur.ir.ir al = some ins' ∧ SameUpTo σ ins ins' := by
  refine h.keep al ins hal hi ?_
  intro he
  cases he with
  | alloc hmem _ => exact hnew hmem
  | gcstep _ _ _ hg =>
    rw [hi, Option.any_some, decide_eq_true_eq] at hg
    rw [hg] at hop
    simp at hop
  | load _ _ _ hl =>
    obtain ⟨i, hi', hl, -⟩ := loadedFrom_eq hl
    rw [hi, Option.some.injEq] at hi'
    subst hi'
    rcases hop with hop | hop <;> rw [hop] at hl <;> cases hl

/-- The loads that the pass finds are those of the trace. -/
theorem forwardsOf_spec (hu : tr.SinkUses hash templates all) (hwf : tr.SinkWf) (h : Sinking hash templates tr L cur σ)
    (hmem : al ∈ all) (hnew : al ∉ L) (hal : REF_FIRST ≤ al) {t : LuaTable} {nums : List (ℤ × F64)}
    (ht : tr.sunkTable hash templates al = some (t, nums)) {s : IrBuf × List (ℕ × ℕ)} (hs : KeysOk cur.ir nums s) :
    Forwards hash templates tr s.1 al (s.1.forwardsOf al s.2) := by
  have hget : ∀ {r}, REF_FIRST ≤ r → s.1.ir r = cur.ir.ir r := by
    intro r hr
    have hbias : REF_BIAS ≤ r := (Nat.le_succ _).trans hr
    rw [IrBuf.ir, IrBuf.ir, if_pos hbias, if_pos hbias, hs.ins]
  -- A load of the allocation has a constant key, which the substitution leaves alone.
  have hkey : ∀ r ins, REF_FIRST ≤ r → tr.ir.ir r = some ins → ins.op1 = al →
      ∃ n ∈ nums, tr.ir.findKnum (.ofInt n.1) = some ins.op2 ∧ tr.ir.constBits ins.op2 = some (.num (.ofInt n.1)) ∧
        σ ins.op2 = ins.op2 := by
    intro r ins hr hi h1
    obtain ⟨-, -, n, hn, hk⟩ := hu.tables al hmem _ ht r ins hr hi (.inl h1)
    obtain ⟨⟨hlt, -⟩, hv⟩ := findKnum_spec hwf.consts hk
    exact ⟨n, hn, hk, hv, h.const (hlt.trans (Nat.lt_succ_self _))⟩
  refine ⟨?_, ?_⟩
  · intro p hp
    obtain ⟨hlo, ins', hi', hl', h1', hkv⟩ := mem_forwardsOf hp
    rw [hget hlo] at hi'
    have hnop : ins'.op ≠ .nop := by
      intro hop
      rw [hop] at hl'
      cases hl'
    obtain ⟨ins, hi, hsame⟩ := h.back hlo hi' hnop
    have h1 : ins.op1 = al := h.preimage ((Nat.le_succ _).trans hal) (by rw [← hsame.op1, h1'])
    obtain ⟨n₀, -, -, hv₀, hσ⟩ := hkey p.1 ins hlo hi h1
    obtain ⟨hlt, n, hn, hk, hv⟩ := hs.pairs _ hkv
    have hload : tr.loadedFrom p.1 = some al := by
      rw [Trace.loadedFrom, hi, Option.bind_some, ← hsame.op, if_pos hl', h1]
    refine ⟨hlo, hlt, hload, _, ht, n, hn, ⟨ins, hi, ?_⟩, hv⟩
    have hboth := (h.ext.trans hs.ext).constBits hv₀
    rw [show ins'.op2 = ins.op2 from hsame.op2.trans hσ, hboth, Option.some.injEq] at hk
    rw [hv₀, hk]
  · intro r hr hl _
    obtain ⟨ins, hi, hload, h1⟩ := loadedFrom_eq hl
    obtain ⟨n, hn, hk, -, hσ⟩ := hkey r ins hr hi h1
    have hne : ¬ tr.Eliminated hash templates L r := by
      intro he
      cases he with
      | alloc _ hs =>
        obtain ⟨i, hi', hop⟩ := isSunk_op hs
        rw [hi, Option.some.injEq] at hi'
        subst hi'
        rcases hop with hop | hop <;> rw [hop] at hload <;> cases hload
      | gcstep _ _ _ hop =>
        rw [hi, Option.any_some, decide_eq_true_eq] at hop
        rw [hop] at hload
        cases hload
      | load hL _ _ hl' =>
        rw [hl, Option.some.injEq] at hl'
        exact hnew (hl' ▸ hL)
    obtain ⟨ins', hi', hsame⟩ := h.keep r ins hr hi hne
    have halσ : σ al = al := by
      rcases h.subst al with hσ' | ⟨_, _, _, _, hl', _⟩
      · exact hσ'
      · obtain ⟨i, hi₁, hop⟩ := sunkTable_op (Option.isSome_of_eq_some ht)
        obtain ⟨j, hj, hlj, -⟩ := loadedFrom_eq hl'
        rw [hi₁, Option.some.injEq] at hj
        subst hj
        rw [hop] at hlj
        cases hlj
    have hkv := hs.found n hn ins.op2 (h.ext.found _ _ hk)
    refine forwardsOf_complete hr ((hget hr).trans hi') ?_ ?_ ?_
    · rw [hsame.op, hload]
    · rw [hsame.op1, h1, halσ]
    · rwa [hsame.op2, hσ]

/-- What the pass reads for a table allocation is what the trace has. -/
theorem sunkTable_eq (hash : LuaValue → UInt32) (templates : ℕ → Option LuaTable) (hext : tr.ir.ConstsExt cur.ir) {ins : IRIns} (hi : tr.ir.ir al = some ins) (hop : ins.op = .tdup)
    (hk : (tr.ir.k64Val ins.op1).isSome) :
    templateAt templates cur.ir ins.op1 = templateAt templates tr.ir ins.op1 ∧
    tr.sunkTable hash templates al = (do
      let t ← ← templateAt templates tr.ir ins.op1
      let nums ← templateNumbers hash t 64 1
      if nums.isEmpty then none else some (t, nums)) := by
  refine ⟨?_, ?_⟩
  · obtain ⟨v, hv⟩ := Option.isSome_iff_exists.mp hk
    rw [templateAt, templateAt, hv, hext.k64Val hv]
  · rw [Trace.sunkTable, hi, Option.bind_eq_bind, Option.bind_some, if_pos hop]

/-- One allocation of the pass. -/
theorem Sinking.one (hu : tr.SinkUses hash templates all) (hwf : tr.SinkWf) (h : Sinking hash templates tr L cur σ)
    (hmem : al ∈ all) (hnew : al ∉ L) (hal : REF_FIRST ≤ al) {ins : IRIns} (hi : tr.ir.ir al = some ins)
    (hop : ins.op = .tdup ∨ ins.op = .cnew) (hone : cur.sinkOne hash templates al = some cur')
    (hfit : cur'.ir.k.length < REF_BIAS) : ∃ σ', Sinking hash templates tr (L ++ [al]) cur' σ' := by
  obtain ⟨ins', hi', hsame⟩ := h.alloc hnew hal hi hop
  rw [Trace.sinkOne, hi', Option.bind_eq_bind, Option.bind_some, hsame.op] at hone
  rcases hop with hop | hop
  · obtain ⟨hlt, hk⟩ := hwf.template al ins hal hi hop
    obtain ⟨htempl, hsunk⟩ := sunkTable_eq hash templates h.ext hi hop hk
    rw [if_neg (by rw [hop]; decide), hsame.op1, h.const (hlt.trans (Nat.lt_succ_self _)), Trace.sinkTdup, htempl] at hone
    have hcnew : (tr.ir.ir al).any (·.op = .cnew) = false := by
      rw [hi, Option.any_some, hop]
      rfl
    have hunsunk : tr.sunkTable hash templates al = none → tr.isSunk hash templates al = false := by
      intro hnone
      rw [Trace.isSunk, hcnew, hnone]
      rfl
    simp only [Option.bind_eq_bind, Option.bind_eq_some_iff] at hone
    obtain ⟨t, ht, hone⟩ := hone
    rw [ht, Option.bind_eq_bind, Option.bind_some] at hsunk
    cases t with
    | none =>
      cases hone
      exact ⟨σ, h.unsunk (hunsunk hsunk) hal⟩
    | some t =>
      simp only [Option.bind_eq_some_iff] at hone
      obtain ⟨nums, hnums, hone⟩ := hone
      simp only [hnums, Option.bind_eq_bind, Option.bind_some] at hsunk
      split at hone
      · rename_i hempty
        cases hone
        rw [if_pos hempty] at hsunk
        exact ⟨σ, h.unsunk (hunsunk hsunk) hal⟩
      · rename_i hempty
        rw [if_neg hempty] at hsunk
        have hs : tr.isSunk hash templates al = true := isSunk_of_table (Option.isSome_of_eq_some hsunk)
        have hcur : cur' = { cur with
            ir := sunkBuf (cur.ir.keyToVal nums).1 ((cur.ir.keyToVal nums).1.forwardsOf al (cur.ir.keyToVal nums).2) al,
            snapmap := cur.snapmap.map (dropSnap al) } := by
          rw [← Option.some.inj hone]
          simp only [sunkBuf]
        have hlen : (cur.ir.keyToVal nums).1.k.length < REF_BIAS := by
          rw [hcur] at hfit
          rwa [(sunkBuf_rest (cur.ir.keyToVal nums).1 _ al).1] at hfit
        have hkeys := keyToVal_spec h.ok hlen
        have hf := forwardsOf_spec hu hwf h hmem hnew hal hsunk hkeys
        rw [hcur]
        exact ⟨_, h.sink hkeys.ext hkeys.ok hkeys.ins hkeys.loop hs hal hf⟩
  · rw [if_pos hop, Option.some.injEq] at hone
    subst hone
    have hs : tr.isSunk hash templates al = true := by
      rw [Trace.isSunk, hi, Option.any_some, hop]
      rfl
    have hnone : ¬ (tr.sunkTable hash templates al).isSome := by
      intro hsome
      obtain ⟨i, hi₁, hop'⟩ := sunkTable_op hsome
      rw [hi, Option.some.injEq] at hi₁
      rw [hi₁, hop'] at hop
      cases hop
    have hf : Forwards hash templates tr cur.ir al [] :=
      ⟨fun p hp => absurd hp List.not_mem_nil, fun r _ _ hsome => absurd hsome hnone⟩
    have hcur : cur.sinkCnew al = { cur with ir := sunkBuf cur.ir [] al, snapmap := cur.snapmap.map (dropSnap al) } := by
      simp only [Trace.sinkCnew, sunkBuf, IrBuf.forwardLoads, List.foldl_nil]
    rw [hcur]
    exact ⟨_, h.sink (.refl cur.ir) h.ok rfl rfl hs hal hf⟩

/-- The instructions behind `sinkMark` are those of the trace, up to their marks. -/
theorem sinkMark_ir (tr : Trace) (r : ℕ) : tr.sinkMark.ir.ir r = none ∧ tr.ir.ir r = none ∨
    ∃ ins ins', tr.ir.ir r = some ins ∧ tr.sinkMark.ir.ir r = some ins' ∧ SameUpTo id ins ins' := by
  have hmark : ∀ i ins, SameUpTo id ins (tr.markIns i ins) := by
    intro i ins
    rw [Trace.markIns]
    split
    · exact ⟨rfl, rfl, rfl, rfl, rfl⟩
    · split <;> exact ⟨rfl, rfl, rfl, rfl, rfl⟩
  rw [IrBuf.ir, IrBuf.ir]
  split
  · rename_i hr
    simp only [Trace.sinkMark, List.getElem?_mapIdx]
    cases hi : tr.ir.ins[r - REF_BIAS]? with
    | none => exact .inl ⟨rfl, rfl⟩
    | some ins => exact .inr ⟨ins, _, rfl, rfl, hmark _ ins⟩
  · rename_i hr
    cases hi : tr.ir.k[REF_BIAS - 1 - r]? with
    | none => exact .inl ⟨hi, rfl⟩
    | some ins => exact .inr ⟨ins, ins, rfl, hi, ⟨rfl, rfl, rfl, rfl, rfl⟩⟩

/-- The trace before the first allocation. -/
theorem Sinking.start (hwf : tr.SinkWf) : Sinking hash templates tr [] tr.sinkMark id := by
  have hnone : ∀ {r}, ¬ tr.Eliminated hash templates [] r := by
    intro r he
    cases he with
    | alloc h _ => cases h
    | gcstep h _ _ _ => cases h
    | load h _ _ _ => cases h
  refine ⟨by simp, hwf.consts.ext rfl rfl rfl, hwf.consts.congr rfl rfl rfl, ?_, rfl, ⟨rfl, rfl, rfl, rfl⟩, ?_, ?_, ?_,
    ?_, fun q => .inl rfl, by simp⟩
  · exact List.length_mapIdx
  · exact List.forall₂_same.mpr fun e _ _ => rfl
  · simp only [IrBuf.ir, if_pos le_rfl, Trace.sinkMark, List.getElem?_mapIdx, Nat.sub_self]
    exact Option.map_id'
  · intro r ins _ hi _
    rcases sinkMark_ir tr r with ⟨-, hn⟩ | ⟨i, ins', hi', hi'', hsame⟩
    · rw [hi] at hn
      cases hn
    · rw [hi, Option.some.injEq] at hi'
      subst hi'
      exact ⟨ins', hi'', hsame⟩
  · exact fun r ins he => absurd he hnone

/-- The allocations to sink are the tables and closures of the trace, each once. -/
theorem sinkAllocs_spec {b : IrBuf} : b.sinkAllocs.Nodup ∧ ∀ al ∈ b.sinkAllocs, REF_FIRST ≤ al ∧
    ∃ ins, b.ir al = some ins ∧ (ins.op = .tdup ∨ ins.op = .cnew) := by
  have hmem : ∀ {m r}, r ∈ b.refs.filter (b.isSinkable m) → REF_FIRST ≤ r ∧
      ∃ ins, b.ir r = some ins ∧ (ins.op = .tdup ∨ ins.op = .cnew) ∧ ins.isMarked = m := by
    intro m r hr
    obtain ⟨hr, hs⟩ := List.mem_filter.mp hr
    rw [IrBuf.isSinkable, Option.any_eq_true] at hs
    obtain ⟨ins, hi, hs⟩ := hs
    simp only [Bool.and_eq_true, Bool.or_eq_true, decide_eq_true_eq, beq_iff_eq] at hs
    exact ⟨(mem_refs.mp hr).1, ins, hi, hs.1.1, hs.1.2⟩
  have hnodup : b.refs.Nodup := List.nodup_range'
  refine ⟨?_, ?_⟩
  · refine (hnodup.filter _).append (hnodup.filter _) ?_
    intro r hr hr'
    obtain ⟨-, ins, hi, -, hm⟩ := hmem hr
    obtain ⟨-, ins', hi', -, hm'⟩ := hmem hr'
    rw [hi, Option.some.injEq] at hi'
    rw [hi', hm'] at hm
    cases hm
  · intro al hal
    rcases List.mem_append.mp hal with hal | hal
    all_goals
      obtain ⟨hlo, ins, hi, hop, -⟩ := hmem hal
      exact ⟨hlo, ins, hi, hop⟩

theorem sinkFold_length {als : List ℕ} (h : als.foldlM (Trace.sinkOne hash templates) cur = some cur') :
    cur.ir.k.length ≤ cur'.ir.k.length := by
  induction als generalizing cur with
  | nil => cases h; exact le_rfl
  | cons al als ih =>
    rw [List.foldlM_cons, Option.bind_eq_bind, Option.bind_eq_some_iff] at h
    obtain ⟨mid, hone, h⟩ := h
    exact (sinkOne_length hone).trans (ih h)

theorem Sinking.fold (hu : tr.SinkUses hash templates all) (hwf : tr.SinkWf) {als : List ℕ}
    (h : Sinking hash templates tr L cur σ) (hall : L ++ als = all) (hnodup : all.Nodup)
    (hals : ∀ al ∈ als, REF_FIRST ≤ al ∧ ∃ ins, tr.ir.ir al = some ins ∧ (ins.op = .tdup ∨ ins.op = .cnew))
    (hrun : als.foldlM (Trace.sinkOne hash templates) cur = some cur') (hfit : cur'.ir.k.length < REF_BIAS) :
    ∃ σ', Sinking hash templates tr all cur' σ' := by
  induction als generalizing cur L σ with
  | nil =>
    cases hrun
    rw [List.append_nil] at hall
    exact ⟨σ, hall ▸ h⟩
  | cons al als ih =>
    rw [List.foldlM_cons, Option.bind_eq_bind, Option.bind_eq_some_iff] at hrun
    obtain ⟨mid, hone, hrun⟩ := hrun
    obtain ⟨hlo, ins, hi, hop⟩ := hals al List.mem_cons_self
    have hnew : al ∉ L := by
      intro hin
      rw [← hall] at hnodup
      exact (List.nodup_append.mp hnodup).2.2 al hin al List.mem_cons_self rfl
    have hmem : al ∈ all := by
      rw [← hall]
      exact List.mem_append_right _ List.mem_cons_self
    obtain ⟨σ', h'⟩ := h.one hu hwf hmem hnew hlo hi hop hone ((sinkFold_length hrun).trans_lt hfit)
    refine ih h' ?_ (fun a ha => hals a (List.mem_cons_of_mem al ha)) hrun
    rw [List.append_assoc, List.singleton_append, hall]

/-- The pass rewrites the trace. -/
theorem optSink_rewrites {tr' : Trace} (hu : tr.SinkUses hash templates tr.sinkList) (hwf : tr.SinkWf)
    (h : optSink hash templates tr = some tr') : ∃ σ, Sinking hash templates tr tr.sinkList tr' σ := by
  obtain ⟨hnodup, hals⟩ := sinkAllocs_spec (b := tr.sinkMark.ir)
  refine (Sinking.start hwf).fold hu hwf (List.nil_append _) hnodup ?_ h (optSink_consts hwf h)
  intro al hal
  obtain ⟨hlo, ins', hi', hop⟩ := hals al hal
  rcases sinkMark_ir tr al with ⟨hn, -⟩ | ⟨ins, ins'', hi, hi'', hsame⟩
  · rw [hi'] at hn
    cases hn
  · rw [hi', Option.some.injEq] at hi''
    subst hi''
    exact ⟨hlo, ins, hi, by rwa [← hsame.op]⟩

/-- The instruction at `q` is there before the pass and gone after it. -/
def Trace.Removed (tr tr' : Trace) (q : ℕ) : Prop :=
  ∃ ins ins', tr.ir.ir q = some ins ∧ ins.op ≠ .nop ∧ tr'.ir.ir q = some ins' ∧ ins'.op = .nop

/-- No instruction that remains refers to an eliminated one. -/
def Trace.NoDangling (tr tr' : Trace) : Prop :=
  ∀ q, tr.Removed tr' q → ∀ r ins', REF_FIRST ≤ r → tr'.ir.ir r = some ins' → ins'.op1 ≠ q ∧ ins'.op2 ≠ q

/-- Exactly the eliminated instructions are gone. -/
theorem Sinking.removed (h : Sinking hash templates tr L cur σ) {q : ℕ} (hq : tr.Removed cur q) :
    tr.Eliminated hash templates L q := by
  obtain ⟨ins, ins', hi, hop, hi', hop'⟩ := hq
  by_contra hne
  have hsame : ins'.op = ins.op := by
    rcases Nat.lt_trichotomy q REF_BASE with hlt | rfl | hgt
    · rw [h.ext.ir hlt hi, Option.some.injEq] at hi'
      rw [hi']
    · rw [h.base, hi, Option.some.injEq] at hi'
      rw [hi']
    · obtain ⟨i, hi'', hs⟩ := h.keep q ins hgt hi hne
      rw [hi', Option.some.injEq] at hi''
      rw [hi'', hs.op]
  exact hop (hsame ▸ hop')

/-- An operand of an instruction that stays is not eliminated, or it is a load that became a constant. -/
theorem operand_stays (hu : tr.SinkUses hash templates L) {r q : ℕ} {ins : IRIns} (hr : REF_FIRST ≤ r)
    (hi : tr.ir.ir r = some ins) (hne : ¬ tr.Eliminated hash templates L r) (hq : ins.op1 = q ∨ ins.op2 = q)
    (he : tr.Eliminated hash templates L q) :
    ∃ al ∈ L, (tr.sunkTable hash templates al).isSome ∧ REF_FIRST ≤ q ∧ tr.loadedFrom q = some al := by
  have hclash : ins.op1 ≠ q ∧ ins.op2 ≠ q → False := fun ⟨h1, h2⟩ => hq.elim h1 h2
  have hnone : ∀ {i : IRIns}, tr.ir.ir q = some i → isLoad i.op = false → tr.loadedFrom q = none := by
    intro i hi' hl
    rw [Trace.loadedFrom, hi', Option.bind_some, if_neg (by rw [hl]; decide)]
  cases he with
  | alloc hmem hs =>
    cases ht : tr.sunkTable hash templates q with
    | some p =>
      obtain ⟨hl, h1, -⟩ := hu.tables q hmem p ht r ins hr hi hq
      refine absurd (Trace.Eliminated.load hmem (Option.isSome_of_eq_some ht) hr ?_) hne
      rw [Trace.loadedFrom, hi, Option.bind_some, if_pos hl, h1]
    | none =>
      obtain ⟨i, hi', hop⟩ := isSunk_op hs
      have hl : isLoad i.op = false := by
        rcases hop with hop | hop <;> rw [hop] <;> rfl
      exact (hclash (hu.others q (.alloc hmem hs) ht (hnone hi' hl) r ins hr hi)).elim
  | gcstep hmem hs hqa hop =>
    have hop' := hop
    rw [Option.any_eq_true] at hop'
    obtain ⟨i, hi', hopi⟩ := hop'
    have hopi : i.op = .gcstep := of_decide_eq_true hopi
    have ht : tr.sunkTable hash templates q = none := by
      rw [← Option.not_isSome_iff_eq_none]
      intro hsome
      obtain ⟨j, hj, hopj⟩ := sunkTable_op hsome
      rw [hi', Option.some.injEq] at hj
      rw [hj, hopj] at hopi
      cases hopi
    have hl : isLoad i.op = false := by rw [hopi]; rfl
    exact (hclash (hu.others q (.gcstep hmem hs hqa hop) ht (hnone hi' hl) r ins hr hi)).elim
  | load hmem hs hlo hl => exact ⟨_, hmem, hs, hlo, hl⟩

theorem Sinking.noDangling (hu : tr.SinkUses hash templates L) (h : Sinking hash templates tr L cur σ) :
    tr.NoDangling cur := by
  intro q hq r ins' hr hi'
  have he := h.removed hq
  have hlo := he.lo h.lo
  have hfirst : 0 < REF_FIRST := by decide
  by_cases her : tr.Eliminated hash templates L r
  · obtain ⟨-, h1, h2⟩ := h.gone r ins' her hi'
    rw [h1, h2]
    omega
  · obtain ⟨ins, hi, hsame⟩ := h.kept hr hi' her
    -- An operand that is eliminated would be a load, and those have become constants.
    have hop : ∀ o, ins.op1 = o ∨ ins.op2 = o → σ o ≠ q := by
      intro o ho hoq
      have ho' := h.preimage ((Nat.le_succ _).trans hlo) hoq
      subst ho'
      obtain ⟨al, hal, hsome, -, hl⟩ := operand_stays hu hr hi her ho he
      have := h.moved o al hal hsome hl hlo
      rw [hoq] at this
      exact absurd ((Nat.le_succ _).trans hlo) (not_le.mpr this)
    rw [hsame.op1, hsame.op2]
    exact ⟨hop _ (.inl rfl), hop _ (.inr rfl)⟩

end Pass
end LuajitRs.Ir
