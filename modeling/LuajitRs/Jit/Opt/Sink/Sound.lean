import LuajitRs.Jit.Opt.Sink.Exec

/-! Soundness of allocation sinking. The trace without its sunk allocations simulates the original one, in
a world that lacks the sunk tables, as long as no snapshot on the way out names an eliminated instruction. -/
namespace LuajitRs.Ir

section Conditions
variable {H : Type} (R : Runtime H) (G : H → H → Prop) (templates : ℕ → Option LuaTable) (tr : Trace)

/-- The instruction at `r` does not survive the pass. -/
abbrev Trace.Sinks (r : ℕ) : Prop := tr.Eliminated R.hash templates tr.sinkList r

/-- The number that a load of a sunk table yields fits the load: an array load is within the array part, and
a checked one has a number type. -/
def Trace.LoadsFit : Prop :=
  ∀ al ∈ tr.sinkList, ∀ p, tr.sunkTable R.hash templates al = some p → ∀ r ins, REF_FIRST ≤ r → tr.ir.ir r = some ins →
    isLoad ins.op = true → ins.op1 = al → ∀ n ∈ p.2, tr.ir.constBits ins.op2 = some (.num (.ofInt n.1)) →
    (ins.op = .aload → n.1.toNat < p.1.asize) ∧
    (ins.op = .aload ∨ ins.isGuard = true → ins.t.ty = .num ∨ ins.t.ty = .int)

/-- A snapshot without entries for eliminated instructions. An entry that is not restored may name a load. -/
def Trace.SnapKept (idx : ℕ) : Prop :=
  ∀ s es, tr.snap[idx]? = some s → tr.entries s = some es → ∀ e ∈ es,
    ¬(e.ref ∈ tr.sinkList ∧ tr.isSunk R.hash templates e.ref = true) ∧
    (e.norestore = false → ¬ tr.Sinks R templates e.ref)

variable (A : List ℕ) (m : Machine H)

/-- The addresses of the sunk tables after the current instruction. -/
def Trace.sinkAddrs : List ℕ :=
  if m.r ∈ tr.sinkList ∧ (tr.sunkTable R.hash templates m.r).isSome then R.fresh m.clock :: A else A

/-- What a step of the original trace must be like, where the tables at `A` are sunk. -/
structure Trace.SinkOk : Prop where
  /-- A collection check that is removed does not leave the trace. -/
  check : ∀ ins, tr.ir.ir m.r = some ins → ins.op = .gcstep → tr.Sinks R templates m.r →
    R.shouldCollect m.world = false
  /-- A sunk table is copied from the template that the pass has read. -/
  template : ∀ p ins v, m.r ∈ tr.sinkList → tr.sunkTable R.hash templates m.r = some p → tr.ir.ir m.r = some ins →
    readRef tr.ir m.env ins.op1 = some v → m.world.tables v.toBits = some p.1
  /-- A sunk closure is garbage. -/
  closure : ∀ ins p u h, m.r ∈ tr.sinkList → tr.ir.ir m.r = some ins → ins.op = .cnew →
    readRef tr.ir m.env ins.op1 = some p → readRef tr.ir m.env ins.op2 = some u → G m.world.rest h →
    G (R.cnew p u m.world.rest).1 h
  /-- The other instructions do not go through a sunk table. -/
  avoids : m.r < tr.ir.nins → ¬ tr.Sinks R templates m.r → Avoids R G tr.ir A m
  /-- A guard that fails leaves through a snapshot that names no eliminated instruction. -/
  guards : ∀ ins e, m.r < tr.ir.nins → tr.ir.ir m.r = some ins → evalIns R tr.ir m ins = some e → e.leave = true →
    ¬ tr.Sinks R templates m.r → tr.SnapKept R templates (tr.snapFor m.r)
  /-- And so does the end of the trace, unless it goes on over the loop edge. -/
  last : tr.ir.nins ≤ m.r → ¬(tr.looping = true ∧ tr.ir.chain .loop ≠ 0) → tr.SnapKept R templates (tr.snap.length - 1)

/-- A run of the original trace with the addresses of the tables that are sunk on the way. -/
def Trace.SinkRuns : List ℕ × Machine H → List ℕ × Machine H → Prop :=
  Relation.ReflTransGen fun s s' => tr.SinkOk R G templates s.1 s.2 ∧ tr.step R s.2 = some (.run s'.2) ∧
    s'.1 = tr.sinkAddrs R templates s.1 s.2

end Conditions

section Simulation
variable {H : Type} (R : Runtime H) (G : H → H → Prop) (templates : ℕ → Option LuaTable) (tr tr' : Trace) (σ : ℕ → ℕ)

/-- A trace that the pass has rewritten, with uses that the pass can replace. -/
structure Sunk : Prop where
  uses : tr.SinkUses R.hash templates tr.sinkList
  wf : tr.SinkWf
  fits : tr.LoadsFit R templates
  rewritten : Sinking R.hash templates tr tr.sinkList tr' σ
  consts : tr'.ir.k.length < REF_BIAS

/-- The machines of the two traces at the same instruction. -/
structure SinkSim (A : List ℕ) (m m' : Machine H) : Prop where
  lo : REF_FIRST ≤ m.r
  r : m'.r = m.r
  cbase : m'.cbase = m.cbase
  clock : m'.clock = m.clock
  world : Alike G A m.world m'.world
  env : ∀ q, ¬ tr.Sinks R templates q → m'.env q = m.env q
  live : ∀ a ∈ A, (m.world.tables a).isSome
  table : ∀ al ∈ tr.sinkList, ∀ p, tr.sunkTable R.hash templates al = some p → al < m.r →
    ∃ a ∈ A, m.env al = .tab a ∧ m.world.tables a = some (dup p.1)
  load : ∀ q, ∀ al ∈ tr.sinkList, (tr.sunkTable R.hash templates al).isSome → REF_FIRST ≤ q → tr.loadedFrom q = some al →
    q < m.r → tr'.ir.constBits (σ q) = some (m.env q)

end Simulation

section Refs
variable {H : Type} {R : Runtime H} {G : H → H → Prop} {templates : ℕ → Option LuaTable} {tr tr' : Trace} {σ : ℕ → ℕ}
  {A : List ℕ} {m m' : Machine H}

/-- What is not eliminated is not substituted. -/
theorem Sunk.fix (c : Sunk R templates tr tr' σ) {q : ℕ} (hq : ¬ tr.Sinks R templates q) : σ q = q := by
  rcases c.rewritten.subst q with h | ⟨al, hal, p, hp, hl, hlo, -⟩
  · exact h
  · exact absurd (.load hal (Option.isSome_of_eq_some hp) hlo hl) hq

theorem Sunk.fix_const (c : Sunk R templates tr tr' σ) {q : ℕ} (hq : q < REF_FIRST) : σ q = q := c.rewritten.const hq

/-- There is no constant at 0. -/
theorem Sunk.zero (c : Sunk R templates tr tr' σ) (q : ℕ) : σ q = 0 ↔ q = 0 := by
  refine ⟨?_, ?_⟩
  · intro h0
    rcases c.rewritten.subst q with h | ⟨-, -, -, -, -, -, -, n, -, -, hv⟩
    · rw [← h, h0]
    · rw [h0] at hv
      have hnone : tr'.ir.ir 0 = none := by
        have := c.consts
        rw [IrBuf.ir, if_neg (by decide)]
        exact List.getElem?_eq_none (by omega)
      simp [IrBuf.constBits, hnone] at hv
  · rintro rfl
    exact c.fix_const (by decide)

theorem Sunk.nins (c : Sunk R templates tr tr' σ) : tr'.ir.nins = tr.ir.nins := by
  rw [IrBuf.nins, IrBuf.nins, c.rewritten.len]

/-- The references of the instructions that stay. -/
def Trace.Named (R : Runtime H) (templates : ℕ → Option LuaTable) (tr : Trace) (q : ℕ) : Prop :=
  ∃ r ins, REF_FIRST ≤ r ∧ tr.ir.ir r = some ins ∧ ¬ tr.Sinks R templates r ∧ (ins.op1 = q ∨ ins.op2 = q)

/-- References to what has been executed, by an instruction that stays. -/
def Trace.Passed (R : Runtime H) (templates : ℕ → Option LuaTable) (tr : Trace) (r q : ℕ) : Prop :=
  q < r ∧ (q < REF_BIAS ∨ tr.Named R templates q)

theorem constBits_lt {b : IrBuf} {q : ℕ} {v : LuaValue} (h : b.constBits q = some v) : q < REF_BIAS := by
  by_contra hge
  simp [IrBuf.constBits, not_lt.mp hge] at h

theorem Sunk.read (c : Sunk R templates tr tr' σ) (h : SinkSim R G templates tr tr' σ A m m') {q : ℕ} {v : LuaValue}
    (hq : q < m.r) (hok : q < REF_BIAS ∨ tr.Named R templates q) (hv : readRef tr.ir m.env q = some v) :
    readRef tr'.ir m'.env (σ q) = some v := by
  by_cases hb : REF_BIAS ≤ q
  · obtain ⟨r, ins, hr, hi, hne, hop⟩ := hok.resolve_left (not_lt.mpr hb)
    rw [readRef, if_pos hb, Option.some.injEq] at hv
    by_cases he : tr.Sinks R templates q
    · obtain ⟨al, hal, hs, hlo, hl⟩ := operand_stays c.uses hr hi hne hop he
      have hc := h.load q al hal hs hlo hl hq
      rw [readRef, if_neg (not_le.mpr (constBits_lt hc)), hc, hv]
    · rw [c.fix he, readRef, if_pos hb, h.env q he, hv]
  · rw [readRef, if_neg hb] at hv
    rw [c.fix_const ((not_le.mp hb).trans (Nat.lt_succ_self _)), readRef, if_neg hb]
    exact c.rewritten.ext.constBits hv

theorem Sunk.carg (c : Sunk R templates tr tr' σ) {r q : ℕ} {kv : ℕ × ℕ} (hq : tr.Passed R templates r q)
    (hc : carg tr.ir q = some kv) :
    Ir.carg tr'.ir (σ q) = some (σ kv.1, σ kv.2) ∧ tr.Passed R templates r kv.1 ∧ tr.Passed R templates r kv.2 := by
  obtain ⟨hk1, hk2⟩ := ssa_carg c.wf.ssa hc
  have hc' := hc
  simp only [Ir.carg, Option.bind_eq_bind, Option.bind_eq_some_iff] at hc'
  obtain ⟨ins, hi, hc'⟩ := hc'
  split at hc'
  case isFalse => cases hc'
  rename_i hop
  cases hc'
  have hlo : REF_BIAS ≤ q := by
    by_contra hlt
    rw [IrBuf.ir, if_neg hlt] at hi
    have := c.wf.ssa.consts ins (List.mem_of_getElem? hi)
    rw [hop] at this
    cases this
  have hne : ¬ tr.Sinks R templates q := by
    intro he
    obtain ⟨i, hi', hops⟩ := eliminated_op he
    rw [hi, Option.some.injEq] at hi'
    rw [← hi', hop] at hops
    simp at hops
  rw [c.fix hne]
  rcases Nat.eq_or_lt_of_le hlo with rfl | hgt
  · have hb : tr'.ir.ir REF_BASE = some ins := c.rewritten.base.trans hi
    rw [c.fix_const (hk1.trans (Nat.lt_succ_self _)), c.fix_const (hk2.trans (Nat.lt_succ_self _))]
    refine ⟨?_, ⟨hk1.trans hq.1, .inl hk1⟩, ⟨hk2.trans hq.1, .inl hk2⟩⟩
    rw [Ir.carg, hb, Option.bind_eq_bind, Option.bind_some, if_pos hop]
  · obtain ⟨ins', hi', hsame⟩ := c.rewritten.keep q ins hgt hi hne
    refine ⟨?_, ⟨hk1.trans hq.1, .inr ⟨q, ins, hgt, hi, hne, .inl rfl⟩⟩,
      ⟨hk2.trans hq.1, .inr ⟨q, ins, hgt, hi, hne, .inr rfl⟩⟩⟩
    rw [Ir.carg, hi', Option.bind_eq_bind, Option.bind_some, if_pos (hsame.op.trans hop), hsame.op1, hsame.op2]

theorem Sunk.reading (c : Sunk R templates tr tr' σ) (h : SinkSim R G templates tr tr' σ A m m') :
    Reading tr.ir tr'.ir m.env m'.env σ (tr.Passed R templates m.r) where
  read q v hq hv := c.read h hq.1 hq.2 hv
  carg q kv hq hc := c.carg hq hc
  const q v hv := by
    rw [c.fix_const ((constBits_lt hv).trans (Nat.lt_succ_self _))]
    exact c.rewritten.ext.constBits hv
  zero := c.zero

end Refs

/-! ### One instruction -/

section Instructions
variable {H : Type} {R : Runtime H} {G : H → H → Prop} {templates : ℕ → Option LuaTable} {tr tr' : Trace} {σ : ℕ → ℕ}
  {A : List ℕ} {m m' : Machine H} {ins : IRIns} {e : Effect H}

theorem SinkSim.machine (h : SinkSim R G templates tr tr' σ A m m') :
    m' = { m with world := m'.world, env := m'.env } := by
  rcases m' with ⟨r', env', w', cbase', clock'⟩
  obtain ⟨-, rfl, rfl, rfl, -, -, -, -, -⟩ := h
  rfl

/-- An instruction that stays does the same in both traces. -/
theorem kept_eval (c : Sunk R templates tr tr' σ) (hR : R.Blind G) (h : SinkSim R G templates tr tr' σ A m m')
    (hi : tr.ir.ir m.r = some ins) (hne : ¬ tr.Sinks R templates m.r) (ha : Avoids R G tr.ir A m)
    (he : evalIns R tr.ir m ins = some e) :
    ∃ ins' e', tr'.ir.ir m.r = some ins' ∧ evalIns R tr'.ir m' ins' = some e' ∧ AlikeEffect G A m.world e e' := by
  obtain ⟨ins', hi', hsame⟩ := c.rewritten.keep m.r ins h.lo hi hne
  obtain ⟨e', he', halike⟩ := evalIns_alike hR h.live h.world hi ha he
  obtain ⟨hop1, hop2⟩ := ssa_ir c.wf.ssa ((Nat.le_succ _).trans h.lo) hi
  refine ⟨ins', e', hi', ?_, halike⟩
  have hread : Reading tr.ir tr'.ir m.env m'.env σ (tr.Passed R templates m.r) := c.reading h
  rw [evalIns_sameUpTo hsame, h.machine]
  refine @evalIns_subst H R tr.ir tr'.ir { m with world := m'.world } m'.env σ _ ins e' hread ⟨hop1, .inr ⟨m.r, ins, h.lo, hi, hne, .inl rfl⟩⟩
    ⟨hop2, .inr ⟨m.r, ins, h.lo, hi, hne, .inr rfl⟩⟩ ?_ ?_ he'
  · intro hop
    exact c.fix_const ((c.wf.slots m.r ins h.lo hi hop).trans (Nat.lt_succ_self _))
  · intro hop
    exact c.fix_const ((c.wf.literals m.r ins h.lo hi hop).trans (Nat.lt_succ_self _))

/-- A sunk table is eliminated, and so is a load from one. -/
theorem sinks_table {al : ℕ} (hal : al ∈ tr.sinkList) (hs : (tr.sunkTable R.hash templates al).isSome) :
    tr.Sinks R templates al :=
  .alloc hal (isSunk_of_table hs)

/-- The simulation after an instruction that stays. -/
theorem SinkSim.commit_kept (h : SinkSim R G templates tr tr' σ A m m') {e' : Effect H}
    (hne : ¬ tr.Sinks R templates m.r) (ha : AlikeEffect G A m.world e e') :
    SinkSim R G templates tr tr' σ A (commit m e) (commit m' e') := by
  have hkeep : ∀ {q}, q ≠ m.r → (commit m e).env q = m.env q := fun hq => commit_env_ne e hq
  refine ⟨h.lo.trans (Nat.le_succ _), congrArg Nat.succ h.r, h.cbase, congrArg Nat.succ h.clock, ha.world, ?_, ?_, ?_, ?_⟩
  · intro q hq
    rw [commit, commit, ha.val, h.r]
    cases e.val with
    | none => exact h.env q hq
    | some v =>
      show Function.update m'.env m.r v q = Function.update m.env m.r v q
      by_cases hqr : q = m.r
      · rw [hqr, Function.update_self, Function.update_self]
      · rw [Function.update_of_ne hqr, Function.update_of_ne hqr, h.env q hq]
  · intro a hmem
    show (e.world.tables a).isSome
    rw [ha.kept a hmem]
    exact h.live a hmem
  · intro al hal p hp hlt
    have hqr : al ≠ m.r := by
      rintro rfl
      exact hne (sinks_table hal (Option.isSome_of_eq_some hp))
    obtain ⟨a, hmem, henv, ht⟩ := h.table al hal p hp (by change al < m.r + 1 at hlt; omega)
    refine ⟨a, hmem, (hkeep hqr).trans henv, ?_⟩
    show e.world.tables a = _
    rw [ha.kept a hmem, ht]
  · intro q al hal hs hlo hl hlt
    have hqr : q ≠ m.r := by
      rintro rfl
      exact hne (.load hal hs hlo hl)
    rw [hkeep hqr]
    exact h.load q al hal hs hlo hl (by change q < m.r + 1 at hlt; omega)

/-- The other trace passes over an eliminated instruction. -/
theorem nop_step (c : Sunk R templates tr tr' σ) (h : SinkSim R G templates tr tr' σ A m m') (hr : m.r < tr.ir.nins)
    (hs : tr.Sinks R templates m.r) : tr'.step R m' = some (.run (commit m' (.skip m'.world))) := by
  have hr' : m'.r < tr'.ir.nins := by rw [h.r, c.nins]; exact hr
  have hget : ∃ ins', tr'.ir.ir m'.r = some ins' := by
    have hb : REF_BIAS ≤ m'.r := by
      rw [h.r]
      exact (Nat.le_succ _).trans h.lo
    rw [IrBuf.ir, if_pos hb]
    refine ⟨_, List.getElem?_eq_getElem ?_⟩
    rw [IrBuf.nins] at hr'
    omega
  obtain ⟨ins', hi'⟩ := hget
  have hop := (c.rewritten.gone m.r ins' hs (h.r ▸ hi')).1
  refine step_of_eval hr' hi' ?_ rfl
  rw [evalIns, hop]
  rfl

/-- The simulation after an eliminated instruction that sinks no table. -/
theorem SinkSim.commit_gone (h : SinkSim R G templates tr tr' σ A m m') (hs : tr.Sinks R templates m.r)
    (hnot : ¬(m.r ∈ tr.sinkList ∧ (tr.sunkTable R.hash templates m.r).isSome))
    (hw : Alike G A e.world m'.world) (hkept : e.world.tables = m.world.tables)
    (hload : ∀ al ∈ tr.sinkList, (tr.sunkTable R.hash templates al).isSome → REF_FIRST ≤ m.r →
      tr.loadedFrom m.r = some al → tr'.ir.constBits (σ m.r) = some ((commit m e).env m.r)) :
    SinkSim R G templates tr tr' σ A (commit m e) (commit m' (.skip m'.world)) := by
  have hkeep : ∀ {q}, q ≠ m.r → (commit m e).env q = m.env q := fun hq => commit_env_ne e hq
  refine ⟨h.lo.trans (Nat.le_succ _), congrArg Nat.succ h.r, h.cbase, congrArg Nat.succ h.clock, hw, ?_, ?_, ?_, ?_⟩
  · intro q hq
    have hqr : q ≠ m.r := by
      rintro rfl
      exact hq hs
    exact (h.env q hq).trans (hkeep hqr).symm
  · intro a hmem
    show (e.world.tables a).isSome
    rw [hkept]
    exact h.live a hmem
  · intro al hal p hp hlt
    have hqr : al ≠ m.r := by
      rintro rfl
      exact hnot ⟨hal, Option.isSome_of_eq_some hp⟩
    obtain ⟨a, hmem, henv, ht⟩ := h.table al hal p hp (by change al < m.r + 1 at hlt; omega)
    refine ⟨a, hmem, (hkeep hqr).trans henv, ?_⟩
    show e.world.tables a = _
    rw [hkept, ht]
  · intro q al hal hsome hlo hl hlt
    by_cases hqr : q = m.r
    · subst hqr
      exact hload al hal hsome hlo hl
    · rw [hkeep hqr]
      exact h.load q al hal hsome hlo hl (by change q < m.r + 1 at hlt; omega)

/-- The simulation after a sunk table. -/
theorem SinkSim.commit_table (h : SinkSim R G templates tr tr' σ A m m') {p : LuaTable × List (ℤ × F64)} {a : ℕ}
    (hmem : m.r ∈ tr.sinkList) (hp : tr.sunkTable R.hash templates m.r = some p) (ha : m.world.tables a = none) :
    SinkSim R G templates tr tr' σ (a :: A) (commit m (.write (m.world.setTable a (dup p.1)) (.tab a)))
      (commit m' (.skip m'.world)) := by
  have hs : tr.Sinks R templates m.r := sinks_table hmem (Option.isSome_of_eq_some hp)
  have hother : ∀ b ∈ A, (m.world.setTable a (dup p.1)).tables b = m.world.tables b := by
    intro b hb
    refine Function.update_of_ne ?_ _ _
    rintro rfl
    have := h.live b hb
    rw [ha] at this
    cases this
  have hself : (m.world.setTable a (dup p.1)).tables a = some (dup p.1) := Function.update_self _ _ _
  refine ⟨h.lo.trans (Nat.le_succ _), congrArg Nat.succ h.r, h.cbase, congrArg Nat.succ h.clock, h.world.sink ha _, ?_, ?_,
    ?_, ?_⟩
  · intro q hq
    have hqr : q ≠ m.r := by
      rintro rfl
      exact hq hs
    exact (h.env q hq).trans (commit_env_ne _ hqr).symm
  · intro b hb
    show ((m.world.setTable a (dup p.1)).tables b).isSome
    rcases List.mem_cons.mp hb with rfl | hb
    · rw [hself]
      rfl
    · rw [hother b hb]
      exact h.live b hb
  · intro al hal p' hp' hlt
    by_cases hqr : al = m.r
    · subst hqr
      rw [hp, Option.some.injEq] at hp'
      subst hp'
      exact ⟨a, List.mem_cons_self, Function.update_self _ _ _, hself⟩
    · obtain ⟨b, hb, henv, ht⟩ := h.table al hal p' hp' (by change al < m.r + 1 at hlt; omega)
      exact ⟨b, List.mem_cons_of_mem a hb, (commit_env_ne _ hqr).trans henv, (hother b hb).trans ht⟩
  · intro q al hal hsome hlo hl hlt
    have hqr : q ≠ m.r := by
      rintro rfl
      obtain ⟨i, hi, hop⟩ := sunkTable_op (Option.isSome_of_eq_some hp)
      obtain ⟨j, hj, hlj, -⟩ := loadedFrom_eq hl
      rw [hi, Option.some.injEq] at hj
      rw [← hj, hop] at hlj
      cases hlj
    rw [commit_env_ne _ hqr]
    exact h.load q al hal hsome hlo hl (by change q < m.r + 1 at hlt; omega)

variable (R templates) in
theorem not_table {al : ℕ} (hi : tr.ir.ir al = some ins) (hop : ins.op ≠ .tdup) :
    ¬(al ∈ tr.sinkList ∧ (tr.sunkTable R.hash templates al).isSome) := by
  intro h
  obtain ⟨i, hi', hop'⟩ := sunkTable_op h.2
  rw [hi, Option.some.injEq] at hi'
  exact hop (hi' ▸ hop')

theorem not_loaded {al q : ℕ} (hi : tr.ir.ir q = some ins) (hop : isLoad ins.op = false) : tr.loadedFrom q ≠ some al := by
  intro h
  obtain ⟨i, hi', hl, -⟩ := loadedFrom_eq h
  rw [hi, Option.some.injEq] at hi'
  rw [hi', hl] at hop
  cases hop

/-- The numbers of a sunk table are fields of its template. -/
theorem sunkTable_number {al : ℕ} {p : LuaTable × List (ℤ × F64)} (h : tr.sunkTable R.hash templates al = some p)
    {n : ℤ × F64} (hn : n ∈ p.2) :
    (1 ≤ n.1 ∧ n.1 < 1 + (64 : ℕ)) ∧ p.1.getInt R.hash n.1 = .ok (.num n.2) := by
  simp only [Trace.sunkTable, Option.bind_eq_bind, Option.bind_eq_some_iff] at h
  obtain ⟨ins, -, h⟩ := h
  split at h
  case isFalse => cases h
  simp only [Option.bind_eq_some_iff] at h
  obtain ⟨o, -, t, -, nums, hnums, h⟩ := h
  split at h
  · cases h
  · cases h
    obtain ⟨hlo, hhi, hget⟩ := templateNumbers_spec hnums n hn
    exact ⟨⟨hlo, hhi⟩, hget⟩

/-- A removed load yields the constant that its uses have been given. -/
theorem load_eval (c : Sunk R templates tr tr' σ) (h : SinkSim R G templates tr tr' σ A m m') {al : ℕ}
    (hal : al ∈ tr.sinkList) (hs : (tr.sunkTable R.hash templates al).isSome) (hl : tr.loadedFrom m.r = some al)
    (hi : tr.ir.ir m.r = some ins) (he : evalIns R tr.ir m ins = some e) :
    ∃ v, e = ⟨some v, m.world, false, false⟩ ∧ tr'.ir.constBits (σ m.r) = some v := by
  have hlt := c.rewritten.moved m.r al hal hs hl h.lo
  obtain ⟨i, hi', hop, h1⟩ := loadedFrom_eq hl
  rw [hi, Option.some.injEq] at hi'
  subst hi'
  rcases c.rewritten.subst m.r with hσ | ⟨al', hal', p, hp, hl', -, -, n, hn, ⟨i, hi', hkey⟩, hv⟩
  · rw [hσ] at hlt
    exact absurd ((Nat.le_succ _).trans h.lo) (not_le.mpr hlt)
  · rw [hl, Option.some.injEq] at hl'
    subst hl'
    rw [hi, Option.some.injEq] at hi'
    subst hi'
    have hbelow := (ssa_ir c.wf.ssa ((Nat.le_succ _).trans h.lo) hi).1
    obtain ⟨a, -, henv, ht⟩ := h.table al hal p hp (h1 ▸ hbelow)
    obtain ⟨hbounds, hget⟩ := sunkTable_number hp hn
    obtain ⟨harr, hty⟩ := c.fits al hal p hp m.r ins h.lo hi hop h1 n hn hkey
    have htv : readRef tr.ir m.env ins.op1 = some (.tab a) := by
      have hb : REF_BIAS ≤ al := (Nat.le_succ _).trans (c.rewritten.lo al hal)
      rw [h1, readRef, if_pos hb, henv]
    have hkv : readRef tr.ir m.env ins.op2 = some (.num (.ofInt n.1)) := by
      rw [readRef, if_neg (not_le.mpr (constBits_lt hkey)), hkey]
    exact ⟨_, load_copy hop htv ht hkv hbounds hget harr hty he, hv⟩

/-- An eliminated instruction of the original trace stays on the trace. -/
theorem gone_step (c : Sunk R templates tr tr' σ) (h : SinkSim R G templates tr tr' σ A m m')
    (hok : tr.SinkOk R G templates A m) (hi : tr.ir.ir m.r = some ins) (hs : tr.Sinks R templates m.r)
    (he : evalIns R tr.ir m ins = some e) :
    e.leave = false ∧
      SinkSim R G templates tr tr' σ (tr.sinkAddrs R templates A m) (commit m e) (commit m' (.skip m'.world)) := by
  rw [Trace.sinkAddrs]
  have hs' := hs
  cases hs' with
  | alloc hmem hsunk =>
    cases ht : tr.sunkTable R.hash templates m.r with
    | some p =>
      obtain ⟨i, hi', hop⟩ := sunkTable_op (Option.isSome_of_eq_some ht)
      rw [hi, Option.some.injEq] at hi'
      subst hi'
      simp only [evalIns, hop, Option.bind_eq_bind, Option.bind_eq_some_iff, Option.pure_def,
        Option.some.injEq] at he
      obtain ⟨v, hv, t, htab, w, hw, rfl⟩ := he
      rw [hok.template p ins v hmem ht hi hv, Option.some.injEq] at htab
      subst htab
      obtain ⟨hnone, rfl⟩ := alloc_eq hw
      rw [if_pos ⟨hmem, rfl⟩]
      exact ⟨rfl, h.commit_table hmem ht hnone⟩
    | none =>
      have hnot : ¬(m.r ∈ tr.sinkList ∧ (tr.sunkTable R.hash templates m.r).isSome) := by
        rw [ht]
        simp
      have hop : ins.op = .cnew := by
        simpa [Trace.isSunk, ht, hi] using hsunk
      simp only [evalIns, hop, Option.bind_eq_bind, Option.bind_eq_some_iff, Option.pure_def,
        Option.some.injEq] at he
      obtain ⟨p, hp, u, hu, rfl⟩ := he
      rw [if_neg (by simp)]
      refine ⟨rfl, h.commit_gone hs hnot ?_ rfl ?_⟩
      · exact ⟨h.world.stack, h.world.tables, hok.closure ins p u _ hmem hi hop hp hu h.world.rest⟩
      · exact fun al _ _ _ hl => absurd hl (not_loaded hi (by rw [hop]; rfl))
  | gcstep hmem hsunk hr hop =>
    rw [hi, Option.any_some, decide_eq_true_eq] at hop
    have hnot := not_table R templates hi (by rw [hop]; decide)
    simp only [evalIns, hop, Option.pure_def, Option.some.injEq] at he
    subst he
    rw [if_neg hnot]
    exact ⟨hok.check ins hi hop hs, h.commit_gone hs hnot h.world rfl
      fun al _ _ _ hl => absurd hl (not_loaded hi (by rw [hop]; rfl))⟩
  | load hmem hsunk hr hl =>
    obtain ⟨i, hi', hop, h1⟩ := loadedFrom_eq hl
    rw [hi, Option.some.injEq] at hi'
    subst hi'
    have hnot := not_table R templates hi (by
      intro hop'
      rw [hop'] at hop
      cases hop)
    obtain ⟨v, rfl, hv⟩ := load_eval c h hmem hsunk hl hi he
    rw [if_neg hnot]
    refine ⟨rfl, h.commit_gone hs hnot h.world rfl fun al _ _ _ _ => ?_⟩
    have hself : (commit m ⟨some v, m.world, false, false⟩).env m.r = v := Function.update_self _ _ _
    rw [hv, hself]

end Instructions

/-! ### Snapshots and the end of the trace -/

section Tail
variable {H : Type} {R : Runtime H} {G : H → H → Prop} {templates : ℕ → Option LuaTable} {tr tr' : Trace} {σ : ℕ → ℕ}
  {A : List ℕ} {m m' : Machine H}

theorem forall₂_eq {α : Type} {P : α → Prop} {l l' : List α} (h : List.Forall₂ (fun e e' => P e → e' = e) l l')
    (hP : ∀ e ∈ l, P e) : l' = l := by
  induction h with
  | nil => rfl
  | @cons e e' l l' he _ ih =>
    rw [he (hP e List.mem_cons_self), ih fun x hx => hP x (List.mem_cons_of_mem e hx)]

/-- A snapshot that names no sunk allocation has kept its entries. -/
theorem Sunk.entries (c : Sunk R templates tr tr' σ) {idx : ℕ} (hk : tr.SnapKept R templates idx) {s : SnapShot}
    {es : List SnapEntry} (hs : tr.snap[idx]? = some s) (he : tr.entries s = some es) : tr'.entries s = some es := by
  have hkept := hk s es hs he
  have hlen := c.rewritten.snapmap.length_eq
  rw [Trace.entries] at he ⊢
  split at he
  case isFalse => cases he
  rename_i hfit
  obtain rfl := Option.some.inj he
  rw [hlen] at hfit
  rw [if_pos hfit]
  refine congrArg some (forall₂_eq ?_ fun e hmem => (hkept e hmem).1)
  exact List.forall₂_take _ (List.forall₂_drop _ c.rewritten.snapmap)

/-- A reference that is not eliminated is read alike. -/
theorem Sunk.read_env (c : Sunk R templates tr tr' σ) {env env' : ℕ → LuaValue}
    (henv : ∀ q, ¬ tr.Sinks R templates q → env' q = env q) {q : ℕ} (hq : ¬ tr.Sinks R templates q) {v : LuaValue}
    (hv : readRef tr.ir env q = some v) : readRef tr'.ir env' q = some v := by
  by_cases hb : REF_BIAS ≤ q
  · rw [readRef, if_pos hb] at hv ⊢
    rw [henv q hq, hv]
  · rw [readRef, if_neg hb] at hv ⊢
    exact c.rewritten.ext.constBits hv

/-- Both traces restore the same slots from a snapshot without eliminated instructions. -/
theorem restore_alike (c : Sunk R templates tr tr' σ) (hR : R.Blind G) (hbase : m'.cbase = m.cbase)
    (henv : ∀ q, ¬ tr.Sinks R templates q → m'.env q = m.env q) (hw : Alike G A m.world m'.world) {idx : ℕ}
    (hk : tr.SnapKept R templates idx) {w : World H} (h : tr.restoreSnapshot R m idx = some w) :
    ∃ w', tr'.restoreSnapshot R m' idx = some w' ∧ Alike G A w w' ∧ w.tables = m.world.tables := by
  simp only [Trace.restoreSnapshot, Option.bind_eq_bind, Option.bind_eq_some_iff] at h ⊢
  obtain ⟨s, hs, es, hes, h⟩ := h
  have hread : ∀ sn ∈ es, sn.norestore = false → ∀ v, readRef tr.ir m.env sn.ref = some v →
      readRef tr'.ir m'.env sn.ref = some v :=
    fun sn hsn hn _ hv => c.read_env henv ((hk s es hs hes sn hsn).2 hn) hv
  obtain ⟨w', hw', hrest⟩ := restoreEntries_alike hR hread hw h
  refine ⟨w', ⟨s, ?_, es, c.entries hk hs hes, ?_⟩, hrest⟩
  · rw [c.rewritten.rest.1, hs]
  · rw [hbase, hw']

/-- The PHIs of the rewritten trace. -/
theorem phisFrom_sunk (c : Sunk R templates tr tr' σ) {l : ℕ} (hl : REF_BIAS ≤ l) (k : ℕ) :
    tr'.phisFrom l k = (tr.phisFrom l k).map fun p => (σ p.1, σ p.2) := by
  induction k with
  | zero => rfl
  | succ k ih =>
    rw [Trace.phisFrom, Trace.phisFrom]
    by_cases hlt : l < REF_BIAS + k
    · have hlo : REF_FIRST ≤ REF_BIAS + k := hl.trans_lt hlt
      simp only [if_pos hlt]
      cases hi : tr.ir.ir (REF_BIAS + k) with
      | none =>
        have hnone : tr'.ir.ir (REF_BIAS + k) = none := by
          rw [IrBuf.ir, if_pos (Nat.le_add_right _ _), List.getElem?_eq_none_iff] at hi ⊢
          rwa [c.rewritten.len]
        rw [hnone]
        rfl
      | some ins =>
        by_cases hs : tr.Sinks R templates (REF_BIAS + k)
        · -- An eliminated instruction is no PHI, before the pass or after it.
          obtain ⟨i, hi₁, hop⟩ := eliminated_op hs
          rw [hi, Option.some.injEq] at hi₁
          subst hi₁
          have hphi : ins.op ≠ .phi := by
            intro h
            rw [h] at hop
            simp at hop
          cases hi' : tr'.ir.ir (REF_BIAS + k) with
          | none => simp [hphi]
          | some ins' =>
            have hnop := (c.rewritten.gone _ ins' hs hi').1
            simp [hphi, hnop]
        · obtain ⟨ins', hi', hsame⟩ := c.rewritten.keep _ ins hlo hi hs
          rw [hi']
          simp only [hsame.op]
          split
          · rw [ih, List.map_cons, hsame.op1, hsame.op2]
          · rfl
    · rw [if_neg hlt, if_neg hlt]
      rfl

/-- A PHI of the loop edge stays, and so does its left operand. -/
theorem phi_stays (c : Sunk R templates tr tr' σ) {l k : ℕ} (hl : REF_BIAS ≤ l) {p : ℕ × ℕ} (hp : p ∈ tr.phisFrom l k) :
    ¬ tr.Sinks R templates p.1 ∧ tr.Named R templates p.2 ∧ p.2 < tr.ir.nins := by
  obtain ⟨r, ins, hlt, hb, hi, hop, rfl⟩ := Trace.mem_phisFrom hp
  have hr : REF_FIRST ≤ r := hl.trans_lt hlt
  have hne : ¬ tr.Sinks R templates r := by
    intro hs
    obtain ⟨i, hi', hops⟩ := eliminated_op hs
    rw [hi, Option.some.injEq] at hi'
    rw [← hi', hop] at hops
    simp at hops
  refine ⟨?_, ⟨r, ins, hr, hi, hne, .inr rfl⟩, (ssa_ir c.wf.ssa hb hi).2.trans (lt_nins hb hi)⟩
  exact fun hs => c.uses.phis _ hs r ins hi hop rfl

/-- The values that the PHIs read. -/
theorem phis_read (c : Sunk R templates tr tr' σ) (h : SinkSim R G templates tr tr' σ A m m') (hr : tr.ir.nins ≤ m.r)
    {ps : List (ℕ × ℕ)} (hps : ∀ p ∈ ps, tr.Named R templates p.2 ∧ p.2 < tr.ir.nins) {vs : List LuaValue}
    (hv : ps.mapM (fun p => readRef tr.ir m.env p.2) = some vs) :
    (ps.map fun p => (σ p.1, σ p.2)).mapM (fun p => readRef tr'.ir m'.env p.2) = some vs := by
  induction ps generalizing vs with
  | nil => exact hv
  | cons p ps ih =>
    rw [List.mapM_cons, Option.bind_eq_bind, Option.bind_eq_some_iff] at hv
    obtain ⟨v, hv, hrest⟩ := hv
    simp only [Option.bind_eq_bind, Option.bind_eq_some_iff, Option.pure_def, Option.some.injEq] at hrest
    obtain ⟨vs', hvs', rfl⟩ := hrest
    obtain ⟨hnamed, hlt⟩ := hps p List.mem_cons_self
    have hv' := c.read h (hlt.trans_le hr) (.inr hnamed) hv
    have hvs := ih (fun q hq => hps q (List.mem_cons_of_mem p hq)) hvs'
    rw [List.map_cons, List.mapM_cons, hv', Option.bind_eq_bind, Option.bind_some, hvs]
    rfl

/-- The same assignments keep two environments in agreement. -/
theorem assign_agree {q : ℕ} {ps : List (ℕ × ℕ)} (hps : ∀ p ∈ ps, σ p.1 = p.1) {vs : List LuaValue}
    {env env' : ℕ → LuaValue} (h : env' q = env q) :
    ((ps.map fun p => (σ p.1, σ p.2)).zip vs).foldl (fun env p => Function.update env p.1.1 p.2) env' q =
      (ps.zip vs).foldl (fun env p => Function.update env p.1.1 p.2) env q := by
  induction ps generalizing vs env env' with
  | nil => exact h
  | cons p ps ih =>
    cases vs with
    | nil => exact h
    | cons v vs =>
      rw [List.map_cons, List.zip_cons_cons, List.zip_cons_cons, List.foldl_cons, List.foldl_cons]
      refine ih (fun x hx => hps x (List.mem_cons_of_mem p hx)) ?_
      show Function.update env' (σ p.1) v q = Function.update env p.1 v q
      rw [hps p List.mem_cons_self]
      by_cases hq : q = p.1
      · rw [hq, Function.update_self, Function.update_self]
      · rw [Function.update_of_ne hq, Function.update_of_ne hq, h]

/-- The parallel assignment at the loop edge. -/
theorem assignPhis_sunk (c : Sunk R templates tr tr' σ) (h : SinkSim R G templates tr tr' σ A m m')
    (hr : tr.ir.nins ≤ m.r) {l : ℕ} (hl : REF_BIAS ≤ l) {env : ℕ → LuaValue}
    (ha : tr.assignPhis m.env (tr.phis l) = some env) :
    ∃ env', tr'.assignPhis m'.env (tr'.phis l) = some env' ∧ (∀ q, ¬ tr.Sinks R templates q → env' q = env q) ∧
      ∀ q, tr.Sinks R templates q → env q = m.env q := by
  have hphis : tr'.phis l = (tr.phis l).map fun p => (σ p.1, σ p.2) := by
    rw [Trace.phis, Trace.phis, c.rewritten.len, phisFrom_sunk c hl]
  have hstays : ∀ p ∈ tr.phis l, ¬ tr.Sinks R templates p.1 ∧ tr.Named R templates p.2 ∧ p.2 < tr.ir.nins :=
    fun p hp => phi_stays c hl hp
  have hleft : ∀ p ∈ tr.phis l, σ p.1 = p.1 := fun p hp => c.fix (hstays p hp).1
  have henv : ∀ q, tr.Sinks R templates q → env q = m.env q := by
    intro q hs
    refine Trace.assignPhis_env ?_ ha
    rintro p hp rfl
    exact (hstays p hp).1 hs
  simp only [Trace.assignPhis, Option.bind_eq_bind, Option.bind_eq_some_iff] at ha
  obtain ⟨vs, hvs, ha⟩ := ha
  split at ha
  case isFalse => cases ha
  rename_i hall
  obtain rfl := Option.some.inj ha
  have hvs' := phis_read c h hr (fun p hp => (hstays p hp).2) hvs
  refine ⟨_, ?_, fun q hq => assign_agree hleft (h.env q hq), henv⟩
  rw [Trace.assignPhis, hphis, hvs', Option.bind_eq_bind, Option.bind_some, if_pos]
  rw [List.all_eq_true] at hall ⊢
  intro p hp
  obtain ⟨p₀, hp₀, rfl⟩ := List.mem_map.mp hp
  simpa [hleft p₀ hp₀] using hall p₀ hp₀

/-- The sunk allocations and their loads are instructions of the trace. -/
theorem sinks_lt {q : ℕ} (h : tr.Sinks R templates q) (hq : REF_FIRST ≤ q) : q < tr.ir.nins := by
  obtain ⟨ins, hi, -⟩ := eliminated_op h
  exact lt_nins ((Nat.le_succ _).trans hq) hi

/-- The simulation at the first instruction. -/
theorem SinkSim.start (c : Sunk R templates tr tr' σ) (h1 : m.r = REF_FIRST) (hr : m'.r = m.r)
    (hbase : m'.cbase = m.cbase) (hclock : m'.clock = m.clock) (hw : Alike G A m.world m'.world)
    (henv : ∀ q, ¬ tr.Sinks R templates q → m'.env q = m.env q) (hlive : ∀ a ∈ A, (m.world.tables a).isSome) :
    SinkSim R G templates tr tr' σ A m m' := by
  refine ⟨h1.ge, hr, hbase, hclock, hw, henv, hlive, ?_, ?_⟩
  · intro al hal _ _ hlt
    have := c.rewritten.lo al hal
    omega
  · intro q _ _ _ hlo _ hlt
    omega

theorem tail_run (c : Sunk R templates tr tr' σ) (hR : R.Blind G) (h : SinkSim R G templates tr tr' σ A m m')
    (hok : tr.SinkOk R G templates A m) (hr : tr.ir.nins ≤ m.r) {d : Machine H} (ht : tr.tail R m = some (.run d)) :
    ∃ d', tr'.tail R m' = some (.run d') ∧ SinkSim R G templates tr tr' σ A d d' := by
  obtain ⟨hsnap, htn, hlt, hlk⟩ := c.rewritten.rest
  have hloop : tr'.looping = tr.looping := by rw [Trace.looping, Trace.looping, hlt, hlk, htn]
  have hrec : tr'.recursing = tr.recursing := by rw [Trace.recursing, Trace.recursing, hlt, hlk, htn]
  simp only [Trace.tail, hloop, hrec, hsnap, c.rewritten.loop] at ht ⊢
  by_cases hlooping : tr.looping = true
  · rw [if_pos hlooping] at ht ⊢
    by_cases hchain : tr.ir.chain .loop ≠ 0
    · rw [if_pos hchain] at ht ⊢
      simp only [Option.bind_eq_bind, Option.bind_eq_some_iff, Option.pure_def, Option.some.injEq] at ht
      obtain ⟨env, henv, ht⟩ := ht
      cases ht
      have hl := c.wf.loop hchain
      obtain ⟨env', henv', hagree, hsinks⟩ := assignPhis_sunk c h hr hl henv
      refine ⟨{ m' with env := env', r := tr.ir.chain .loop + 1 }, ?_, ?_⟩
      · rw [henv']
        rfl
      · refine ⟨Nat.succ_le_succ hl, rfl, h.cbase, h.clock, h.world, hagree, h.live, ?_, ?_⟩
        · intro al hal p hp _
          have hs := sinks_table hal (Option.isSome_of_eq_some hp)
          obtain ⟨a, hmem, henv, ht⟩ := h.table al hal p hp ((sinks_lt hs (c.rewritten.lo al hal)).trans_le hr)
          exact ⟨a, hmem, (hsinks al hs).trans henv, ht⟩
        · intro q al hal hsome hlo hl _
          have hs : tr.Sinks R templates q := .load hal hsome hlo hl
          rw [h.load q al hal hsome hlo hl ((sinks_lt hs hlo).trans_le hr)]
          exact congrArg some (hsinks q hs).symm
    · rw [if_neg hchain] at ht ⊢
      have hk := hok.last hr fun hboth => hchain hboth.2
      simp only [Option.bind_eq_bind, Option.bind_eq_some_iff, Option.pure_def, Option.some.injEq] at ht
      obtain ⟨w, hw, ht⟩ := ht
      cases ht
      obtain ⟨w', hw', halike, htables⟩ := restore_alike c hR h.cbase h.env h.world hk hw
      refine ⟨{ m' with world := w', r := REF_FIRST }, ?_, ?_⟩
      · rw [hw']
        rfl
      · exact .start c rfl rfl h.cbase h.clock halike h.env fun a ha => by rw [htables]; exact h.live a ha
  · rw [if_neg hlooping] at ht ⊢
    have hk := hok.last hr fun hboth => hlooping hboth.1
    by_cases hrecursing : tr.recursing = true
    · rw [if_pos hrecursing] at ht ⊢
      simp only [Option.bind_eq_bind, Option.bind_eq_some_iff, Option.pure_def, Option.some.injEq] at ht
      obtain ⟨s, hs, w, hw, ht⟩ := ht
      cases ht
      obtain ⟨w', hw', halike, htables⟩ := restore_alike c hR h.cbase h.env h.world hk hw
      refine ⟨{ m' with world := w', r := REF_FIRST, cbase := m'.cbase + s.baseslot - 2 }, ?_, ?_⟩
      · rw [hs, hw']
        rfl
      · refine .start c rfl rfl ?_ h.clock halike h.env fun a ha => by rw [htables]; exact h.live a ha
        show m'.cbase + s.baseslot - 2 = m.cbase + s.baseslot - 2
        rw [h.cbase]
    · rw [if_neg hrecursing, Trace.exitSnapshot, Option.bind_eq_bind, Option.bind_eq_some_iff] at ht
      obtain ⟨w, -, ht⟩ := ht
      cases ht

/-- Both traces leave through the same snapshot with the same slots. -/
theorem exit_alike (c : Sunk R templates tr tr' σ) (hR : R.Blind G) (hbase : m'.cbase = m.cbase)
    (henv : ∀ q, ¬ tr.Sinks R templates q → m'.env q = m.env q) (hw : Alike G A m.world m'.world) {idx : ℕ}
    (hk : tr.SnapKept R templates idx) {g gc : Bool} {x : ℕ} {d : Machine H}
    (h : tr.exitSnapshot R m idx g = some (.exit x gc d)) :
    ∃ d', tr'.exitSnapshot R m' idx g = some (.exit x gc d') ∧ Alike G A d.world d'.world := by
  simp only [Trace.exitSnapshot, Option.bind_eq_bind, Option.bind_eq_some_iff, Option.pure_def,
    Option.some.injEq] at h ⊢
  obtain ⟨w, hw₁, h⟩ := h
  cases h
  obtain ⟨w', hw', halike, -⟩ := restore_alike c hR hbase henv hw hk hw₁
  exact ⟨{ m' with world := w' }, ⟨w', hw', rfl⟩, halike⟩

theorem tail_exit (c : Sunk R templates tr tr' σ) (hR : R.Blind G) (h : SinkSim R G templates tr tr' σ A m m')
    (hok : tr.SinkOk R G templates A m) (hr : tr.ir.nins ≤ m.r) {x : ℕ} {gc : Bool} {d : Machine H}
    (ht : tr.tail R m = some (.exit x gc d)) :
    ∃ d', tr'.tail R m' = some (.exit x gc d') ∧ Alike G A d.world d'.world := by
  obtain ⟨hsnap, htn, hlt, hlk⟩ := c.rewritten.rest
  have hloop : tr'.looping = tr.looping := by rw [Trace.looping, Trace.looping, hlt, hlk, htn]
  have hrec : tr'.recursing = tr.recursing := by rw [Trace.recursing, Trace.recursing, hlt, hlk, htn]
  simp only [Trace.tail, hloop, hrec, hsnap, c.rewritten.loop] at ht ⊢
  by_cases hlooping : tr.looping = true
  · rw [if_pos hlooping] at ht
    split at ht
    · simp only [Option.bind_eq_bind, Option.bind_eq_some_iff, Option.pure_def, Option.some.injEq] at ht
      obtain ⟨env, -, ht⟩ := ht
      cases ht
    · simp only [Option.bind_eq_bind, Option.bind_eq_some_iff, Option.pure_def, Option.some.injEq] at ht
      obtain ⟨w, -, ht⟩ := ht
      cases ht
  · rw [if_neg hlooping] at ht ⊢
    by_cases hrecursing : tr.recursing = true
    · rw [if_pos hrecursing] at ht
      simp only [Option.bind_eq_bind, Option.bind_eq_some_iff, Option.pure_def, Option.some.injEq] at ht
      obtain ⟨s, -, w, -, ht⟩ := ht
      cases ht
    · rw [if_neg hrecursing] at ht ⊢
      exact exit_alike c hR h.cbase h.env h.world (hok.last hr fun hboth => hlooping hboth.1) ht

end Tail

/-! ### Runs -/

section Runs
variable {H : Type} {R : Runtime H} {G : H → H → Prop} {templates : ℕ → Option LuaTable} {tr tr' : Trace} {σ : ℕ → ℕ}
  {A A' : List ℕ} {m m' c d : Machine H}

/-- One step of the original trace that stays on the trace is one step of the other. -/
theorem SinkSim.step (s : Sunk R templates tr tr' σ) (hR : R.Blind G) (h : SinkSim R G templates tr tr' σ A m m')
    (hok : tr.SinkOk R G templates A m) (hstep : tr.step R m = some (.run d)) :
    ∃ d', tr'.step R m' = some (.run d') ∧ SinkSim R G templates tr tr' σ (tr.sinkAddrs R templates A m) d d' := by
  by_cases hr : m.r < tr.ir.nins
  · obtain ⟨ins, e, hi, he, hl, rfl⟩ := step_run hr hstep
    by_cases hs : tr.Sinks R templates m.r
    · exact ⟨_, nop_step s h hr hs, (gone_step s h hok hi hs he).2⟩
    · obtain ⟨ins', e', hi', he', ha⟩ := kept_eval s hR h hi hs (hok.avoids hr hs) he
      have haddr : tr.sinkAddrs R templates A m = A := by
        rw [Trace.sinkAddrs, if_neg]
        exact fun hboth => hs (sinks_table hboth.1 hboth.2)
      have hr' : m'.r < tr'.ir.nins := by rw [h.r, s.nins]; exact hr
      have hi'' : tr'.ir.ir m'.r = some ins' := by rw [h.r, hi']
      rw [haddr]
      exact ⟨commit m' e', step_of_eval hr' hi'' he' (ha.leave.trans hl), h.commit_kept hs ha⟩
  · have hge : tr.ir.nins ≤ m.r := not_lt.mp hr
    have haddr : tr.sinkAddrs R templates A m = A := by
      rw [Trace.sinkAddrs, if_neg]
      rintro ⟨hmem, hsome⟩
      exact hr (sinks_lt (sinks_table hmem hsome) h.lo)
    have hr' : ¬ m'.r < tr'.ir.nins := by rw [h.r, s.nins]; exact hr
    rw [Trace.step, if_neg hr] at hstep
    rw [Trace.step, if_neg hr', haddr]
    exact tail_run s hR h hok hge hstep

/-- Where the original trace leaves, so does the other, with the same slots. -/
theorem SinkSim.exit (s : Sunk R templates tr tr' σ) (hR : R.Blind G) (h : SinkSim R G templates tr tr' σ A m m')
    (hok : tr.SinkOk R G templates A m) {x : ℕ} {gc : Bool} (hstep : tr.step R m = some (.exit x gc d)) :
    ∃ d', tr'.step R m' = some (.exit x gc d') ∧ Alike G A d.world d'.world := by
  by_cases hr : m.r < tr.ir.nins
  · have hr' : m'.r < tr'.ir.nins := by rw [h.r, s.nins]; exact hr
    rw [Trace.step, if_pos hr] at hstep
    simp only [Option.bind_eq_bind, Option.bind_eq_some_iff] at hstep
    obtain ⟨ins, hi, e, he, hstep⟩ := hstep
    by_cases hs : tr.Sinks R templates m.r
    · rw [if_neg (by rw [(gone_step s h hok hi hs he).1]; decide)] at hstep
      cases hstep
    · obtain ⟨ins', e', hi', he', ha⟩ := kept_eval s hR h hi hs (hok.avoids hr hs) he
      have hl : e.leave = true := by
        by_contra hl
        rw [if_neg hl] at hstep
        cases hstep
      rw [if_pos hl] at hstep
      have hsim := h.commit_kept hs ha
      have hsnapfor : tr'.snapFor m'.r = tr.snapFor m.r := by
        rw [Trace.snapFor, Trace.snapFor, s.rewritten.rest.1, h.r]
      obtain ⟨d', hd', hw⟩ := exit_alike s hR hsim.cbase hsim.env hsim.world (hok.guards ins e hr hi he hl hs) hstep
      refine ⟨d', ?_, hw⟩
      rw [Trace.step, if_pos hr', h.r, hi', Option.bind_eq_bind, Option.bind_some, he', Option.bind_eq_bind,
        Option.bind_some, if_pos (ha.leave.trans hl), ← h.r, hsnapfor, ha.gc]
      exact hd'
  · have hr' : ¬ m'.r < tr'.ir.nins := by rw [h.r, s.nins]; exact hr
    rw [Trace.step, if_neg hr] at hstep
    rw [Trace.step, if_neg hr']
    exact tail_exit s hR h hok (not_lt.mp hr) hstep

/-- The two traces run side by side. -/
theorem SinkSim.runs (s : Sunk R templates tr tr' σ) (hR : R.Blind G) (h : SinkSim R G templates tr tr' σ A m m')
    (hruns : tr.SinkRuns R G templates (A, m) (A', c)) :
    ∃ c', tr'.Runs R m' c' ∧ SinkSim R G templates tr tr' σ A' c c' := by
  generalize hx : (A, m) = x at hruns
  generalize hy : (A', c) = y at hruns
  induction hruns generalizing A' c with
  | refl =>
    cases hx.trans hy.symm
    exact ⟨m', .refl, h⟩
  | @tail y z _ hstep ih =>
    obtain ⟨c', hc', hsim⟩ := @ih y.1 y.2 rfl
    obtain ⟨d', hd', hsim'⟩ := hsim.step s hR hstep.1 hstep.2.1
    cases hy
    have haddr : A' = tr.sinkAddrs R templates y.1 y.2 := hstep.2.2
    rw [haddr]
    exact ⟨d', hc'.tail hd', hsim'⟩

theorem sinkRuns_head {z : List ℕ × Machine H} (hok : tr.SinkOk R G templates A m) (hstep : tr.step R m = some (.run d))
    (h : tr.SinkRuns R G templates (tr.sinkAddrs R templates A m, d) z) : tr.SinkRuns R G templates (A, m) z := by
  rw [Trace.SinkRuns] at h ⊢
  generalize hA : tr.sinkAddrs R templates A m = A₁ at h
  exact Relation.ReflTransGen.head ⟨hok, hstep, hA.symm⟩ h

/-- Allocation sinking. Where the sunk tables are only read for numbers of their templates, no instruction
refers to an eliminated one, and a run whose exit names none restores the same slots, in the same heap but
for the sunk tables. -/
theorem optSink_sound (hwf : tr.SinkWf) (hfits : tr.LoadsFit R templates)
    (huses : tr.SinkUses R.hash templates tr.sinkList) (hopt : optSink R.hash templates tr = some tr') :
    tr.NoDangling tr' ∧ ∀ G, R.Blind G → (∀ h, G h h) → ∀ m A c x gc d, m.r = REF_FIRST →
      tr.SinkRuns R G templates ([], m) (A, c) → tr.SinkOk R G templates A c → tr.step R c = some (.exit x gc d) →
      ∃ d', tr'.Exits R m x gc d' ∧ Alike G A d.world d'.world := by
  obtain ⟨σ, hrew⟩ := optSink_rewrites huses hwf hopt
  have s : Sunk R templates tr tr' σ := ⟨huses, hwf, hfits, hrew, optSink_consts hwf hopt⟩
  refine ⟨hrew.noDangling huses, ?_⟩
  intro G hR hrefl m A c x gc d hr hruns hok hstep
  have hstart : SinkSim R G templates tr tr' σ [] m m := by
    refine .start s hr rfl rfl rfl ⟨rfl, ?_, hrefl _⟩ (fun q _ => rfl) (by simp)
    funext a
    simp
  obtain ⟨c', hc', hsim⟩ := hstart.runs s hR hruns
  obtain ⟨d', hd', hw⟩ := hsim.exit s hR hok hstep
  exact ⟨d', ⟨c', hc', hd'⟩, hw⟩

end Runs

/-! ### A table in a snapshot -/

section Example

/-- A template with the number 7 under the key 1. -/
def fieldTemplate : LuaTable := ⟨[.nil, .num (.ofInt 7)], [], none, 2, 0, 0, 255⟩

def oneTemplate (a : ℕ) : Option LuaTable := if a = 5 then some fieldTemplate else none

/-- A trace that copies the template and adds its field to itself; the snapshot restores `ref` to slot 2. -/
def copyTrace (ref : ℕ) : Trace where
  traceno := 1
  ir :=
    let (buf, kgc) := (IrBuf.new 0 0).pushK (.new .kgc (plain .tab) 0 0) (.num ⟨5⟩)
    let (buf, one) := buf.knum (.ofInt 1)
    let (buf, t) := buf.emitIns (.new .tdup (plain .tab) kgc 0)
    let (buf, x) := buf.emitIns (.new .aload (guarded .num) t one)
    (buf.emitIns (.new .add (plain .num) x x)).1
  snap := [⟨0, REF_FIRST, 0, 2, 2, 1⟩]
  snapmap := [⟨2, false, ref⟩]
  linktype := .interp
  link := 0

/-- The entry, with the template at its address. -/
def entryCopy : Machine Unit where
  r := REF_FIRST
  env _ := .nil
  world := ⟨fun _ => .nil, oneTemplate, ()⟩
  cbase := 2
  clock := 0

/-- The exit after `n` instructions. -/
def leavesAfter (tr : Trace) (m : Machine Unit) (n : ℕ) : Option (ℕ × Bool × Machine Unit) := do
  let c ← advance .bare tr.ir n m
  match ← tr.step .bare c with
  | .exit x gc d => some (x, gc, d)
  | .run _ => none

/-- The exit number, whether it is a collection, and slot 2. -/
def exitSlot (p : ℕ × Bool × Machine Unit) : ℕ × Bool × LuaValue := (p.1, p.2.1, p.2.2.world.stack 2)

theorem leavesAfter_step {tr : Trace} {m : Machine Unit} {n x : ℕ} {gc : Bool} {v : LuaValue}
    (h : (leavesAfter tr m n).map exitSlot = some (x, gc, v)) :
    ∃ c d, advance .bare tr.ir n m = some c ∧ tr.step .bare c = some (.exit x gc d) ∧ d.world.stack 2 = v := by
  rw [Option.map_eq_some_iff] at h
  obtain ⟨⟨x', gc', d⟩, h, hslot⟩ := h
  simp only [exitSlot, Prod.mk.injEq] at hslot
  obtain ⟨rfl, rfl, hslot⟩ := hslot
  simp only [leavesAfter, Option.bind_eq_bind, Option.bind_eq_some_iff] at h
  obtain ⟨c, hc, s, hs, h⟩ := h
  cases s with
  | run _ => cases h
  | exit _ _ _ =>
    cases h
    exact ⟨c, d, hc, hs, hslot⟩

/-- A slot that held the table is nil after the exit of the sunk trace. -/
theorem sink_drops_table : ∃ tr', optSink Runtime.bare.hash oneTemplate (copyTrace REF_FIRST) = some tr' ∧
    (∃ d, (copyTrace REF_FIRST).Exits .bare entryCopy 0 false d ∧ d.world.stack 2 = .tab 0) ∧
    ∃ d, tr'.Exits .bare entryCopy 0 false d ∧ d.world.stack 2 = .nil := by
  have hnew : ((optSink Runtime.bare.hash oneTemplate (copyTrace REF_FIRST)).bind fun tr' =>
      (leavesAfter tr' entryCopy 3).map exitSlot) = some (0, false, .nil) := by decide
  have hold : (leavesAfter (copyTrace REF_FIRST) entryCopy 3).map exitSlot = some (0, false, .tab 0) := by
    decide
  rw [Option.bind_eq_some_iff] at hnew
  obtain ⟨tr', htr, hnew⟩ := hnew
  obtain ⟨c, d, hc, hd, hs⟩ := leavesAfter_step hold
  obtain ⟨c', d', hc', hd', hs'⟩ := leavesAfter_step hnew
  exact ⟨tr', htr, ⟨d, ⟨c, (advance_straight hc).runs, hd⟩, hs⟩, d', ⟨c', (advance_straight hc').runs, hd'⟩, hs'⟩

/-- The trace whose snapshot restores the sum. -/
def sumTrace : Trace := copyTrace (REF_FIRST + 2)

/-- A property of the instructions of a buffer, checked one by one. -/
theorem forall_ins {b : IrBuf} {P : ℕ → IRIns → Prop}
    (h : ∀ x ∈ (b.ins.drop 1).zipIdx, P (REF_FIRST + x.2) x.1) {r : ℕ} {ins : IRIns} (hr : REF_FIRST ≤ r)
    (hi : b.ir r = some ins) : P r ins := by
  have hbias : REF_BIAS ≤ r := (Nat.le_succ _).trans hr
  obtain ⟨i, rfl⟩ := Nat.exists_eq_add_of_le hr
  have hidx : REF_FIRST + i - REF_BIAS = 1 + i := by
    have : REF_FIRST = REF_BIAS + 1 := rfl
    omega
  rw [IrBuf.ir, if_pos hbias, hidx] at hi
  refine h (ins, i) ?_
  rw [List.mem_zipIdx_iff_getElem?, List.getElem?_drop, hi]

/-- What the pass finds in the trace. -/
theorem sumTrace_sunk : sumTrace.sinkList = [REF_FIRST] ∧
    sumTrace.sunkTable Runtime.bare.hash oneTemplate REF_FIRST = some (fieldTemplate, [(1, .ofInt 7)]) := by
  decide

/-- The constants of the trace: the address of the template and the key 1. -/
theorem sumTrace_consts : (sumTrace.ir.k.length = 5 ∧ sumTrace.ir.k64.length = 5 ∧ sumTrace.ir.chain .loop = 0 ∧
    sumTrace.ir.chain .knum = REF_BIAS - 5 ∧ sumTrace.ir.ir (REF_BIAS - 5) = some (.new .knum (plain .num) 0 0) ∧
    sumTrace.ir.constBits (REF_BIAS - 4) = some (.num ⟨5⟩) ∧ sumTrace.ir.k64Val (REF_BIAS - 4) = some (.num ⟨5⟩) ∧
    sumTrace.ir.findKnum (.ofInt 1) = some (REF_BIAS - 5)) ∧
    ∀ ins ∈ sumTrace.ir.k, ins.op.isConst = true ∧ ins.prev = 0 := by
  decide

/-- The instructions of the trace, in strict SSA form. -/
theorem sumTrace_ins : sumTrace.ir.ins = [.new .base (plain .p64) 0 0, .new .tdup (plain .tab) (REF_BIAS - 4) 0,
      .new .aload (guarded .num) REF_FIRST (REF_BIAS - 5), .new .add (plain .num) (REF_FIRST + 1) (REF_FIRST + 1)] ∧
    ∀ i (h : i < sumTrace.ir.ins.length), IrBuf.Below (REF_BIAS + i) (sumTrace.ir.ins.get ⟨i, h⟩) := by
  decide

theorem sumTrace_cases {r : ℕ} {ins : IRIns} (hr : REF_FIRST ≤ r) (hi : sumTrace.ir.ir r = some ins) :
    (r = REF_FIRST ∧ ins = .new .tdup (plain .tab) (REF_BIAS - 4) 0) ∨
    (r = REF_FIRST + 1 ∧ ins = .new .aload (guarded .num) REF_FIRST (REF_BIAS - 5)) ∨
    (r = REF_FIRST + 2 ∧ ins = .new .add (plain .num) (REF_FIRST + 1) (REF_FIRST + 1)) := by
  refine forall_ins (P := fun r ins => (r = REF_FIRST ∧ ins = .new .tdup (plain .tab) (REF_BIAS - 4) 0) ∨
    (r = REF_FIRST + 1 ∧ ins = .new .aload (guarded .num) REF_FIRST (REF_BIAS - 5)) ∨
    (r = REF_FIRST + 2 ∧ ins = .new .add (plain .num) (REF_FIRST + 1) (REF_FIRST + 1))) ?_ hr hi
  rw [sumTrace_ins.1]
  simp [List.zipIdx]

theorem sumTrace_at : sumTrace.ir.ir (REF_FIRST + 1) = some (.new .aload (guarded .num) REF_FIRST (REF_BIAS - 5)) := by
  rw [IrBuf.ir, if_pos (by decide), sumTrace_ins.1]
  rfl

theorem sumTrace_wf : sumTrace.SinkWf where
  ssa := ⟨sumTrace_ins.2, fun ins hins => (sumTrace_consts.2 ins hins).1⟩
  consts := by
    obtain ⟨⟨hk, h64, -, hchain, hir, -⟩, hall⟩ := sumTrace_consts
    refine ⟨h64.trans hk.symm, ?_, ?_⟩
    · intro _
      rw [hchain]
      exact ⟨by decide, _, hir, rfl⟩
    · exact fun ins hins _ hprev => absurd (hall ins hins).2 hprev
  template r ins hr hi hop := by
    rcases sumTrace_cases hr hi with ⟨-, rfl⟩ | ⟨-, rfl⟩ | ⟨-, rfl⟩
    · exact ⟨by decide, Option.isSome_of_eq_some sumTrace_consts.1.2.2.2.2.2.2.1⟩
    · cases hop
    · cases hop
  slots r ins hr hi hop := by
    rcases sumTrace_cases hr hi with ⟨-, rfl⟩ | ⟨-, rfl⟩ | ⟨-, rfl⟩ <;> cases hop
  literals r ins hr hi hop := by
    rcases sumTrace_cases hr hi with ⟨-, rfl⟩ | ⟨-, rfl⟩ | ⟨-, rfl⟩ <;> simp [IRIns.new] at hop
  loop h := absurd sumTrace_consts.1.2.2.1 h
  room := by
    rw [sumTrace_consts.1.1, sumTrace_sunk.1]
    decide

/-- The load of the trace, and nothing else, goes through the table. -/
theorem sumTrace_use {r : ℕ} {ins : IRIns} (hr : REF_FIRST ≤ r) (hi : sumTrace.ir.ir r = some ins)
    (h : ins.op1 = REF_FIRST ∨ ins.op2 = REF_FIRST) : ins = .new .aload (guarded .num) REF_FIRST (REF_BIAS - 5) := by
  rcases sumTrace_cases hr hi with ⟨-, rfl⟩ | ⟨-, rfl⟩ | ⟨-, rfl⟩
  · exact absurd h (by decide)
  · rfl
  · exact absurd h (by decide)

/-- The table and its load are what the pass removes. -/
theorem sumTrace_sinks {q : ℕ} (h : sumTrace.Sinks Runtime.bare oneTemplate q) : q = REF_FIRST ∨ q = REF_FIRST + 1 := by
  have hmem : ∀ {al}, al ∈ sumTrace.sinkList → al = REF_FIRST := by
    intro al hal
    rwa [sumTrace_sunk.1, List.mem_singleton] at hal
  cases h with
  | alloc h _ => exact .inl (hmem h)
  | gcstep h _ hr _ => exact .inr (hmem h ▸ hr)
  | load h _ hr hl =>
    obtain ⟨ins, hi, hop, h1⟩ := loadedFrom_eq hl
    rw [hmem h] at h1
    rcases sumTrace_cases hr hi with ⟨-, rfl⟩ | ⟨hq, rfl⟩ | ⟨-, rfl⟩
    · cases hop
    · exact .inr hq
    · cases hop

theorem sumTrace_uses : sumTrace.SinkUses Runtime.bare.hash oneTemplate sumTrace.sinkList where
  tables al hal p hp r ins hr hi h := by
    rw [sumTrace_sunk.1, List.mem_singleton] at hal
    subst hal
    rw [sumTrace_sunk.2, Option.some.injEq] at hp
    subst hp
    rw [sumTrace_use hr hi h]
    exact ⟨rfl, rfl, _, List.mem_singleton.mpr rfl, sumTrace_consts.1.2.2.2.2.2.2.2⟩
  others q hq hnone hl r ins hr hi := by
    rcases sumTrace_sinks hq with rfl | rfl
    · rw [sumTrace_sunk.2] at hnone
      cases hnone
    · rcases sumTrace_cases hr hi with ⟨-, rfl⟩ | ⟨-, rfl⟩ | ⟨-, rfl⟩
      · exact ⟨by decide, by decide⟩
      · exact ⟨by decide, by decide⟩
      · rw [Trace.loadedFrom, sumTrace_at] at hl
        cases hl
  phis q hq r ins hi hop := by
    have hall : ∀ ins ∈ sumTrace.ir.ins, ins.op ≠ .phi := by
      rw [sumTrace_ins.1]
      simp [IRIns.new]
    rw [IrBuf.ir] at hi
    split at hi
    · exact absurd hop (hall ins (List.mem_of_getElem? hi))
    · have hconst := (sumTrace_consts.2 ins (List.mem_of_getElem? hi)).1
      rw [hop] at hconst
      cases hconst

theorem sumTrace_fits : sumTrace.LoadsFit Runtime.bare oneTemplate := by
  intro al hal p hp r ins hr hi hop h1 n hn _
  rw [sumTrace_sunk.1, List.mem_singleton] at hal
  subst hal
  rw [sumTrace_sunk.2, Option.some.injEq] at hp
  subst hp
  rw [List.mem_singleton.mp hn, sumTrace_use hr hi (.inl h1)]
  exact ⟨fun _ => by decide, fun _ => .inl rfl⟩

/-- The snapshot names only the sum. -/
theorem sumTrace_kept (idx : ℕ) : sumTrace.SnapKept Runtime.bare oneTemplate idx := by
  intro s es hs hes e he
  have hall : ∀ e ∈ sumTrace.snapmap, e.ref = REF_FIRST + 2 := List.forall_mem_singleton.mpr rfl
  have href : e.ref = REF_FIRST + 2 := by
    refine hall e ?_
    rw [Trace.entries] at hes
    split at hes
    · cases hes
      exact List.mem_of_mem_drop (List.mem_of_mem_take he)
    · cases hes
  have hne : ¬ sumTrace.Sinks Runtime.bare oneTemplate e.ref := by
    intro h
    rcases sumTrace_sinks h with h | h <;> omega
  exact ⟨fun h => hne (.alloc h.1 h.2), fun _ => hne⟩

theorem sumTrace_mem : REF_FIRST ∈ sumTrace.sinkList := by
  rw [sumTrace_sunk.1]
  exact List.mem_singleton.mpr rfl

theorem sumTrace_first : sumTrace.Sinks Runtime.bare oneTemplate REF_FIRST :=
  sinks_table sumTrace_mem (Option.isSome_of_eq_some sumTrace_sunk.2)

theorem sumTrace_load : sumTrace.Sinks Runtime.bare oneTemplate (REF_FIRST + 1) := by
  refine .load sumTrace_mem (Option.isSome_of_eq_some sumTrace_sunk.2) (Nat.le_succ _) ?_
  rw [Trace.loadedFrom, sumTrace_at]
  rfl

/-- Every state of a run of the trace is one where the pass is sound, if the template is there at its start. -/
theorem sumTrace_ok {m : Machine Unit} {A : List ℕ} (hr : REF_FIRST ≤ m.r)
    (h : m.r = REF_FIRST → m.world.tables 5 = some fieldTemplate) :
    sumTrace.SinkOk Runtime.bare Eq oneTemplate A m := by
  refine ⟨?_, ?_, ?_, ?_, fun _ _ _ _ _ _ _ => sumTrace_kept _, fun _ _ => sumTrace_kept _⟩
  · intro ins hi hop _
    rcases sumTrace_cases hr hi with ⟨-, rfl⟩ | ⟨-, rfl⟩ | ⟨-, rfl⟩ <;> cases hop
  · intro p ins v hmem hp hi hv
    rw [sumTrace_sunk.1, List.mem_singleton] at hmem
    rw [hmem, sumTrace_sunk.2, Option.some.injEq] at hp
    subst hp
    rcases sumTrace_cases hr hi with ⟨-, rfl⟩ | ⟨h', -⟩ | ⟨h', -⟩
    · have hread : readRef sumTrace.ir m.env (REF_BIAS - 4) = some (.num ⟨5⟩) := by
        rw [readRef, if_neg (by decide)]
        exact sumTrace_consts.1.2.2.2.2.2.1
      change readRef sumTrace.ir m.env (REF_BIAS - 4) = some v at hv
      rw [hread, Option.some.injEq] at hv
      subst hv
      exact h hmem
    · omega
    · omega
  · intro ins _ _ _ _ hi hop
    rcases sumTrace_cases hr hi with ⟨-, rfl⟩ | ⟨-, rfl⟩ | ⟨-, rfl⟩ <;> cases hop
  · intro _ hne ins hi
    rcases sumTrace_cases hr hi with ⟨h', -⟩ | ⟨h', -⟩ | ⟨-, rfl⟩
    · exact absurd (h' ▸ sumTrace_first) hne
    · exact absurd (h' ▸ sumTrace_load) hne
    · trivial

/-- The steps of a run that stays on the trace. -/
theorem sumTrace_runs {n : ℕ} {m c : Machine Unit} {A : List ℕ} (hr : REF_FIRST ≤ m.r)
    (h : m.r = REF_FIRST → m.world.tables 5 = some fieldTemplate) (hc : advance .bare sumTrace.ir n m = some c) :
    ∃ A', sumTrace.SinkRuns .bare Eq oneTemplate (A, m) (A', c) := by
  induction n generalizing m A with
  | zero =>
    cases hc
    exact ⟨A, .refl⟩
  | succ n ih =>
    obtain ⟨d, hn, hd⟩ := advance_next hc
    have hdr := hn.r
    obtain ⟨A', hA'⟩ := @ih d (sumTrace.sinkAddrs .bare oneTemplate A m) (by omega) (fun h => by omega) hd
    have hstep : sumTrace.step .bare m = some (.run d) := hn.step
    exact ⟨A', sinkRuns_head (sumTrace_ok hr h) hstep hA'⟩

/-- With the sum in the snapshot the exit restores 14 on both sides. -/
theorem optSink_sound_sum : ∃ tr', optSink Runtime.bare.hash oneTemplate sumTrace = some tr' ∧
    sumTrace.NoDangling tr' ∧ ∃ d d', sumTrace.Exits .bare entryCopy 0 false d ∧ tr'.Exits .bare entryCopy 0 false d' ∧
      d.world.stack 2 = .num (.ofInt 14) ∧ d'.world.stack = d.world.stack := by
  have hopt : (optSink Runtime.bare.hash oneTemplate sumTrace).isSome := by decide
  obtain ⟨tr', hopt⟩ := Option.isSome_iff_exists.mp hopt
  have hleave : (leavesAfter sumTrace entryCopy 3).map exitSlot = some (0, false, .num (.ofInt 14)) := by
    decide
  obtain ⟨c, d, hc, hd, hs⟩ := leavesAfter_step hleave
  obtain ⟨A, hruns⟩ := @sumTrace_runs 3 entryCopy c [] le_rfl (fun _ => rfl) hc
  have hr : c.r = REF_FIRST + 3 := advance_r hc
  have hok : sumTrace.SinkOk Runtime.bare Eq oneTemplate A c := sumTrace_ok (by omega) (by omega)
  obtain ⟨hclean, hsound⟩ := optSink_sound sumTrace_wf sumTrace_fits sumTrace_uses hopt
  obtain ⟨d', hd', hw⟩ := hsound Eq (Runtime.blind_eq _) (fun _ => rfl) entryCopy A c 0 false d rfl hruns hok hd
  exact ⟨tr', hopt, hclean, d, d', ⟨c, (advance_straight hc).runs, hd⟩, hd', hs, hw.stack⟩

end Example
end LuajitRs.Ir
