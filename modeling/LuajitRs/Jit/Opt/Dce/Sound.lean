import LuajitRs.Jit.Opt.Dce
import LuajitRs.Jit.Opt.Sink.Exec

/-! Soundness of dead code elimination. As long as the instructions that nothing needs neither leave the
trace nor change the heap visibly, both traces take the same guards, make the same calls and restore the
same slots at every exit. The second world lacks the tables that only removed instructions allocate. -/
namespace LuajitRs.Ir

section Conditions
variable {H : Type} (R : Runtime H) (G : H → H → Prop) (tr : Trace) (A : List ℕ) (m : Machine H)

/-- What a step of the original trace must be like, where the tables at `A` have not been allocated. The
pass does not look at the guard of a weak operation, nor at what a call does, the upvalue write apart. -/
structure Trace.DceOk : Prop where
  /-- An instruction that nothing needs does not leave the trace, -/
  stays : ∀ ins e, tr.ir.ir m.r = some ins → evalIns R tr.ir m ins = some e → ¬ tr.Live m.r → e.leave = false
  /-- and what it does to the runtime cannot be seen. -/
  quiet : ∀ ins e, tr.ir.ir m.r = some ins → evalIns R tr.ir m ins = some e → ¬ tr.Live m.r →
    ∀ h, G m.world.rest h → G e.world.rest h
  /-- The other instructions do not go through a table that is not there. -/
  avoids : m.r < tr.ir.nins → tr.Live m.r → Avoids R G tr.ir A m

/-- The current instruction allocates a table that nothing needs. -/
def Trace.Discards : Prop :=
  ¬ tr.Live m.r ∧ ∃ ins, tr.ir.ir m.r = some ins ∧ (ins.op = .tnew ∨ ins.op = .tdup)

/-- The missing tables after the current instruction. -/
def Trace.Discarded (A' : List ℕ) : Prop :=
  (tr.Discards m → A' = R.fresh m.clock :: A) ∧ (¬ tr.Discards m → A' = A)

/-- A run of the original trace whose steps all meet the condition, with the tables that are discarded. -/
def Trace.DceRuns : List ℕ × Machine H → List ℕ × Machine H → Prop :=
  Relation.ReflTransGen fun s s' =>
    tr.DceOk R G s.1 s.2 ∧ tr.step R s.2 = some (.run s'.2) ∧ tr.Discarded R s.1 s.2 s'.1

variable (m' : Machine H)

/-- The machines of the two traces at the same instruction. -/
structure DceSim : Prop where
  lo : REF_FIRST ≤ m.r
  r : m'.r = m.r
  cbase : m'.cbase = m.cbase
  clock : m'.clock = m.clock
  world : Alike G A m.world m'.world
  env : ∀ q, tr.Live q → m'.env q = m.env q
  live : ∀ a ∈ A, (m.world.tables a).isSome

end Conditions

/-! ### References -/

section Refs
variable {H : Type} {R : Runtime H} {G : H → H → Prop} {tr : Trace} {b : IrBuf} {A : List ℕ} {m m' : Machine H}
  {ins : IRIns} {env env' : ℕ → LuaValue}

theorem Decided.nins (hd : Decided tr REF_FIRST b) : b.nins = tr.ir.nins := by
  rw [IrBuf.nins, IrBuf.nins, hd.len]

theorem Decided.const (hd : Decided tr REF_FIRST b) (q : ℕ) : b.constBits q = tr.ir.constBits q :=
  IrBuf.constBits_congr tr.ir b hd.k hd.k64 q

/-- A constant, or an instruction that the pass keeps. -/
def Trace.Reads (tr : Trace) (q : ℕ) : Prop := q < REF_BIAS ∨ tr.Live q

theorem Trace.reads_op1 (hl : tr.Live m.r) (hlo : REF_FIRST ≤ m.r) (hi : tr.ir.ir m.r = some ins) :
    tr.Reads ins.op1 := .inr (.op1 hl hlo hi)

theorem Trace.reads_op2 (hl : tr.Live m.r) (hlo : REF_FIRST ≤ m.r) (hi : tr.ir.ir m.r = some ins) :
    tr.Reads ins.op2 := .inr (.op2 hl hlo hi)

theorem Decided.readRef_eq (hd : Decided tr REF_FIRST b) (henv : ∀ q, tr.Live q → env' q = env q) {q : ℕ} (hq : tr.Reads q)
    {v : LuaValue} (hv : readRef tr.ir env q = some v) : readRef b env' q = some v := by
  by_cases hb : REF_BIAS ≤ q
  · rw [readRef, if_pos hb] at hv ⊢
    rw [henv q (hq.resolve_left (not_lt.mpr hb)), hv]
  · rw [readRef, if_neg hb] at hv ⊢
    rw [hd.const, hv]

theorem Decided.carg_eq (hd : Decided tr REF_FIRST b) (hssa : tr.ir.SSA) {q : ℕ} {kv : ℕ × ℕ} (hq : tr.Reads q) (hc : carg tr.ir q = some kv) :
    carg b q = some kv ∧ tr.Reads kv.1 ∧ tr.Reads kv.2 := by
  have hbelow := ssa_carg hssa hc
  simp only [carg, Option.bind_eq_bind, Option.bind_eq_some_iff] at hc
  obtain ⟨ins, hi, hc⟩ := hc
  split at hc
  case isFalse => cases hc
  rename_i hop
  cases hc
  have hlo : REF_BIAS ≤ q := by
    by_contra hlt
    rw [IrBuf.ir, if_neg hlt] at hi
    have := hssa.consts ins (List.mem_of_getElem? hi)
    rw [hop] at this
    cases this
  rcases Nat.eq_or_lt_of_le hlo with rfl | hgt
  · have hb : b.ir REF_BIAS = some ins := hd.base.trans hi
    refine ⟨?_, .inl hbelow.1, .inl hbelow.2⟩
    rw [carg, hb, Option.bind_eq_bind, Option.bind_some, if_pos hop]
  · have hl : tr.Live q := hq.resolve_left (not_lt.mpr hlo)
    obtain ⟨ins', hi', hsame⟩ := hd.live q ins hgt hi hl
    refine ⟨?_, .inr (.op1 hl hgt hi), .inr (.op2 hl hgt hi)⟩
    have hop1 : ins'.op1 = ins.op1 := hsame.op1
    have hop2 : ins'.op2 = ins.op2 := hsame.op2
    rw [carg, show b.ir q = some ins' from hi', Option.bind_eq_bind, Option.bind_some,
      if_pos (hsame.op.trans hop), hop1, hop2]

/-- What an instruction that is kept reads. -/
theorem DceSim.reading (hd : Decided tr REF_FIRST b) (hssa : tr.ir.SSA) (h : DceSim G tr A m m') :
    Reading tr.ir b m.env m'.env id tr.Reads where
  read _ _ hq hv := hd.readRef_eq h.env hq hv
  carg _ _ hq hc := hd.carg_eq hssa hq hc
  const q _ hv := (hd.const q).trans hv
  zero _ := Iff.rfl

end Refs

/-! ### One instruction -/

section Instructions
variable {H : Type} {R : Runtime H} {G : H → H → Prop} {tr : Trace} {b : IrBuf} {A A' : List ℕ} {m m' : Machine H}
  {ins : IRIns} {e : Effect H}

theorem DceSim.machine (h : DceSim G tr A m m') : m' = { m with world := m'.world, env := m'.env } := by
  rcases m' with ⟨r', env', w', cbase', clock'⟩
  obtain ⟨-, rfl, rfl, rfl, -, -, -⟩ := h
  rfl

/-- An instruction that is kept does the same in both traces. -/
theorem live_eval (hd : Decided tr REF_FIRST b) (hssa : tr.ir.SSA) (hR : R.Blind G) (h : DceSim G tr A m m') (hi : tr.ir.ir m.r = some ins)
    (hl : tr.Live m.r) (ha : Avoids R G tr.ir A m) (he : evalIns R tr.ir m ins = some e) :
    ∃ ins' e', b.ir m.r = some ins' ∧ evalIns R b m' ins' = some e' ∧
      AlikeEffect G A m.world e e' := by
  obtain ⟨ins', hi', hsame⟩ := hd.live m.r ins h.lo hi hl
  obtain ⟨e', he', halike⟩ := evalIns_alike hR h.live h.world hi ha he
  refine ⟨ins', e', hi', ?_, halike⟩
  have hread : Reading tr.ir b m.env m'.env id tr.Reads := h.reading hd hssa
  rw [evalIns_sameUpTo hsame, h.machine]
  exact @evalIns_subst H R tr.ir b { m with world := m'.world } m'.env id _ ins e' hread
    (tr.reads_op1 hl h.lo hi) (tr.reads_op2 hl h.lo hi) (fun _ => rfl) (fun _ => rfl) he'

/-- The simulation after an instruction that is kept. -/
theorem DceSim.commit_live (h : DceSim G tr A m m') {e' : Effect H} (ha : AlikeEffect G A m.world e e') :
    DceSim G tr A (commit m e) (commit m' e') := by
  refine ⟨h.lo.trans (Nat.le_succ _), congrArg Nat.succ h.r, h.cbase, congrArg Nat.succ h.clock, ha.world, ?_, ?_⟩
  · intro q hq
    rw [commit, commit, ha.val, h.r]
    cases e.val with
    | none => exact h.env q hq
    | some v =>
      show Function.update m'.env m.r v q = Function.update m.env m.r v q
      by_cases hqr : q = m.r
      · rw [hqr, Function.update_self, Function.update_self]
      · rw [Function.update_of_ne hqr, Function.update_of_ne hqr, h.env q hq]
  · intro a hmem
    show (e.world.tables a).isSome
    rw [ha.kept a hmem]
    exact h.live a hmem

/-- No instruction but a store, which is always kept, could write more than the runtime and a new table. -/
theorem evalIns_stack (hk : ins.keeps = false) (he : evalIns R tr.ir m ins = some e) :
    e.world.stack = m.world.stack := by
  rcases ins with ⟨op, t, op1, op2, prev⟩
  cases op
  all_goals first | (cases he; done) | (cases hk; done) | (simp [IRIns.keeps, IRIns.isBufop] at hk; done) | skip
  all_goals
    simp only [evalIns, Option.bind_eq_bind, Option.bind_eq_some_iff, Option.pure_def, Option.some.injEq] at he
  case tnew =>
    obtain ⟨t', -, w₁, hw₁, rfl⟩ := he
    rw [(alloc_eq hw₁).2]
    rfl
  case tdup =>
    obtain ⟨tv, -, t', -, w₁, hw₁, rfl⟩ := he
    rw [(alloc_eq hw₁).2]
    rfl
  all_goals first
    | (subst he; rfl)
    | (obtain ⟨x, -, rfl⟩ := he
       first | rfl | exact congrArg _ (evalConv_world _))
    | (obtain ⟨x, -, y, -, rfl⟩ := he; rfl)
    | (obtain ⟨x, -, y, -, z, -, rfl⟩ := he; rfl)
    | (obtain ⟨x, -, y, -, he⟩ := he
       first | exact congrArg _ (evalHload_world he) | exact congrArg _ (evalAload_world he))
    | (obtain ⟨x, -, he⟩ := he; exact congrArg _ (evalFload_world he))

/-- What a table allocation does. -/
theorem evalIns_alloc (hop : ins.op = .tnew ∨ ins.op = .tdup) (he : evalIns R tr.ir m ins = some e) :
    m.world.tables (R.fresh m.clock) = none ∧ ∃ t, e.world = m.world.setTable (R.fresh m.clock) t := by
  rcases hop with hop | hop <;>
    simp only [evalIns, hop, Option.bind_eq_bind, Option.bind_eq_some_iff, Option.pure_def, Option.some.injEq] at he
  · obtain ⟨t, -, w₁, hw₁, rfl⟩ := he
    exact ⟨(alloc_eq hw₁).1, t, (alloc_eq hw₁).2⟩
  · obtain ⟨tv, -, t, -, w₁, hw₁, rfl⟩ := he
    exact ⟨(alloc_eq hw₁).1, dup t, (alloc_eq hw₁).2⟩

theorem not_live_keeps (hi : tr.ir.ir m.r = some ins) (hl : ¬ tr.Live m.r) : ins.keeps = false := by
  cases hk : ins.keeps with
  | false => rfl
  | true => exact absurd (.kept hi hk) hl

/-- The instructions that write tables and are not kept are the allocations. -/
theorem isTableWrite_of_keeps (hk : ins.keeps = false) (hop : ¬(ins.op = .tnew ∨ ins.op = .tdup)) :
    isTableWrite ins.op = false := by
  rcases ins with ⟨op, t, op1, op2, prev⟩
  cases op
  all_goals first | rfl | (cases hk; done) | simp at hop

/-- The original trace executes an instruction that nothing needs. -/
theorem dead_step (h : DceSim G tr A m m') (hok : tr.DceOk R G A m) (hi : tr.ir.ir m.r = some ins)
    (hl : ¬ tr.Live m.r) (he : evalIns R tr.ir m ins = some e) (hA : tr.Discarded R A m A') :
    DceSim G tr A' (commit m e) (commit m' (.skip m'.world)) := by
  have hk := not_live_keeps hi hl
  have hrest := hok.quiet ins e hi he hl _ h.world.rest
  have henv : ∀ q, tr.Live q → (commit m' (.skip m'.world)).env q = (commit m e).env q := by
    intro q hq
    have hqr : q ≠ m.r := by
      rintro rfl
      exact hl hq
    exact (h.env q hq).trans (commit_env_ne e hqr).symm
  by_cases hop : ins.op = .tnew ∨ ins.op = .tdup
  · rw [hA.1 ⟨hl, ins, hi, hop⟩]
    obtain ⟨hnone, t, hw⟩ := evalIns_alloc hop he
    have hworld : Alike G (R.fresh m.clock :: A) e.world m'.world := by
      rw [hw]
      exact h.world.sink hnone t
    refine ⟨h.lo.trans (Nat.le_succ _), congrArg Nat.succ h.r, h.cbase, congrArg Nat.succ h.clock, hworld, henv, ?_⟩
    intro a hmem
    show (e.world.tables a).isSome
    rw [hw]
    show (Function.update m.world.tables (R.fresh m.clock) (some t) a).isSome
    by_cases ha : a = R.fresh m.clock
    · rw [ha, Function.update_self]
      rfl
    · rw [Function.update_of_ne ha]
      exact h.live a ((List.mem_cons.mp hmem).resolve_left ha)
  · have hnot : ¬ tr.Discards m := by
      rintro ⟨-, i, hi', hop'⟩
      rw [hi, Option.some.injEq] at hi'
      exact hop (hi' ▸ hop')
    rw [hA.2 hnot]
    have htables : e.world.tables = m.world.tables := evalIns_tables (isTableWrite_of_keeps hk hop) he
    have hworld : Alike G A e.world m'.world := by
      refine ⟨h.world.stack.trans (evalIns_stack hk he).symm, ?_, hrest⟩
      rw [h.world.tables, htables]
    refine ⟨h.lo.trans (Nat.le_succ _), congrArg Nat.succ h.r, h.cbase, congrArg Nat.succ h.clock, hworld, henv, ?_⟩
    intro a hmem
    show (e.world.tables a).isSome
    rw [htables]
    exact h.live a hmem

/-- The other trace passes over it. -/
theorem removed_step (hd : Decided tr REF_FIRST b) (h : DceSim G tr A m m') (hr : m.r < tr.ir.nins) (hl : ¬ tr.Live m.r) :
    { tr with ir := b }.step R m' = some (.run (commit m' (.skip m'.world))) := by
  have hr' : m'.r < b.nins := by
    rw [h.r, hd.nins]
    exact hr
  have hb : REF_BIAS ≤ m'.r := by
    rw [h.r]
    exact (Nat.le_succ _).trans h.lo
  obtain ⟨ins', hi'⟩ : ∃ ins', b.ir m'.r = some ins' := by
    rw [IrBuf.ir, if_pos hb]
    refine ⟨_, List.getElem?_eq_getElem ?_⟩
    rw [IrBuf.nins] at hr'
    omega
  have hop := hd.dead m.r ins' h.lo hl (h.r ▸ hi')
  refine step_of_eval hr' hi' ?_ rfl
  rw [evalIns, hop]
  rfl

end Instructions

/-! ### Snapshots and the end of the trace -/

section Tail
variable {H : Type} {R : Runtime H} {G : H → H → Prop} {tr : Trace} {b : IrBuf} {A : List ℕ} {m m' : Machine H}

/-- Both traces restore the same slots from every snapshot. -/
theorem Decided.restore (hd : Decided tr REF_FIRST b) (hR : R.Blind G) (hbase : m'.cbase = m.cbase)
    (henv : ∀ q, tr.Live q → m'.env q = m.env q) (hw : Alike G A m.world m'.world) {idx : ℕ} {w : World H}
    (h : tr.restoreSnapshot R m idx = some w) :
    ∃ w', { tr with ir := b }.restoreSnapshot R m' idx = some w' ∧ Alike G A w w' ∧ w.tables = m.world.tables := by
  simp only [Trace.restoreSnapshot, Option.bind_eq_bind, Option.bind_eq_some_iff] at h ⊢
  obtain ⟨s, hs, es, hes, h⟩ := h
  have hread : ∀ sn ∈ es, sn.norestore = false → ∀ v, readRef tr.ir m.env sn.ref = some v →
      readRef b m'.env sn.ref = some v := by
    intro sn hsn _ v hv
    have hmem : sn ∈ tr.snapmap := by
      rw [Trace.entries] at hes
      split at hes
      · cases hes
        exact List.mem_of_mem_drop (List.mem_of_mem_take hsn)
      · cases hes
    exact hd.readRef_eq henv (.inr (.snap hmem)) hv
  obtain ⟨w', hw', hrest⟩ := @restoreEntries_alike H R G A tr { tr with ir := b } _ _ _ _ _ _ hR es hread hw h
  exact ⟨w', ⟨s, hs, es, hes, by rw [hbase, hw']⟩, hrest⟩

/-- The PHIs stay. -/
theorem Decided.phis (hd : Decided tr REF_FIRST b) {l : ℕ} (hl : REF_BIAS ≤ l) : { tr with ir := b }.phis l = tr.phis l := by
  have hfrom : ∀ k, { tr with ir := b }.phisFrom l k = tr.phisFrom l k := by
    intro k
    induction k with
    | zero => rfl
    | succ k ih =>
      rw [Trace.phisFrom, Trace.phisFrom]
      by_cases hlt : l < REF_BIAS + k
      · have hlo : REF_FIRST ≤ REF_BIAS + k := hl.trans_lt hlt
        simp only [if_pos hlt]
        cases hi : tr.ir.ir (REF_BIAS + k) with
        | none =>
          have hnone : b.ir (REF_BIAS + k) = none := by
            rw [IrBuf.ir, if_pos (Nat.le_add_right _ _), List.getElem?_eq_none_iff] at hi ⊢
            rwa [hd.len]
          rw [hnone]
        | some ins =>
          by_cases hlive : tr.Live (REF_BIAS + k)
          · obtain ⟨ins', hi', hsame⟩ := hd.live _ ins hlo hi hlive
            have hop1 : ins'.op1 = ins.op1 := hsame.op1
            have hop2 : ins'.op2 = ins.op2 := hsame.op2
            rw [hi']
            simp only [hsame.op, hop1, hop2, ih]
          · have hphi : ins.op ≠ .phi := by
              intro hop
              refine hlive (.kept hi ?_)
              simp [IRIns.keeps, IRIns.sideeff, hop, IROp.kind]
            cases hi' : b.ir (REF_BIAS + k) with
            | none => simp [hphi]
            | some ins' =>
              have hnop := hd.dead _ ins' hlo hlive hi'
              simp [hphi, hnop]
      · rw [if_neg hlt, if_neg hlt]
  rw [Trace.phis, Trace.phis, hd.len, hfrom]

/-- The values that the PHIs read. -/
theorem Decided.phis_read (hd : Decided tr REF_FIRST b) (henv : ∀ q, tr.Live q → m'.env q = m.env q)
    {ps : List (ℕ × ℕ)} (hps : ∀ p ∈ ps, tr.Live p.2) {vs : List LuaValue}
    (hv : ps.mapM (fun p => readRef tr.ir m.env p.2) = some vs) :
    ps.mapM (fun p => readRef b m'.env p.2) = some vs := by
  induction ps generalizing vs with
  | nil => exact hv
  | cons p ps ih =>
    rw [List.mapM_cons, Option.bind_eq_bind, Option.bind_eq_some_iff] at hv
    obtain ⟨v, hv, hrest⟩ := hv
    simp only [Option.bind_eq_bind, Option.bind_eq_some_iff, Option.pure_def, Option.some.injEq] at hrest
    obtain ⟨vs', hvs', rfl⟩ := hrest
    have hv' := hd.readRef_eq henv (.inr (hps p List.mem_cons_self)) hv
    have hvs := ih (fun q hq => hps q (List.mem_cons_of_mem p hq)) hvs'
    rw [List.mapM_cons, hv', Option.bind_eq_bind, Option.bind_some, hvs]
    rfl

/-- The same assignments keep the live slots in agreement. -/
theorem foldl_update_agree {q : ℕ} (ps : List ((ℕ × ℕ) × LuaValue)) {env env' : ℕ → LuaValue} (h : env' q = env q) :
    ps.foldl (fun env p => Function.update env p.1.1 p.2) env' q =
      ps.foldl (fun env p => Function.update env p.1.1 p.2) env q := by
  induction ps generalizing env env' with
  | nil => exact h
  | cons p ps ih =>
    rw [List.foldl_cons, List.foldl_cons]
    refine ih ?_
    by_cases hq : q = p.1.1
    · rw [hq, Function.update_self, Function.update_self]
    · rw [Function.update_of_ne hq, Function.update_of_ne hq, h]

/-- The parallel assignment at the loop edge. -/
theorem Decided.assignPhis (hd : Decided tr REF_FIRST b) (henv : ∀ q, tr.Live q → m'.env q = m.env q) {l : ℕ}
    (hl : REF_BIAS ≤ l) {env : ℕ → LuaValue} (ha : tr.assignPhis m.env (tr.phis l) = some env) :
    ∃ env', { tr with ir := b }.assignPhis m'.env ({ tr with ir := b }.phis l) = some env' ∧
      ∀ q, tr.Live q → env' q = env q := by
  have hlive : ∀ p ∈ tr.phis l, tr.Live p.2 := by
    intro p hp
    obtain ⟨r, ins, hlt, -, hi, hop, rfl⟩ := Trace.mem_phisFrom hp
    have hkeeps : ins.keeps = true := by simp [IRIns.keeps, IRIns.sideeff, hop, IROp.kind]
    exact .op2 (.kept hi hkeeps) (hl.trans_lt hlt) hi
  simp only [Trace.assignPhis, Option.bind_eq_bind, Option.bind_eq_some_iff] at ha
  obtain ⟨vs, hvs, ha⟩ := ha
  split at ha
  case isFalse => cases ha
  rename_i hall
  obtain rfl := Option.some.inj ha
  refine ⟨_, ?_, fun q hq => foldl_update_agree _ (henv q hq)⟩
  rw [Trace.assignPhis, hd.phis hl, hd.phis_read henv hlive hvs, Option.bind_eq_bind, Option.bind_some, if_pos hall]

/-- The simulation at the first instruction. -/
theorem DceSim.start (h1 : m.r = REF_FIRST) (hr : m'.r = m.r) (hbase : m'.cbase = m.cbase)
    (hclock : m'.clock = m.clock) (hw : Alike G A m.world m'.world) (henv : ∀ q, tr.Live q → m'.env q = m.env q)
    (hlive : ∀ a ∈ A, (m.world.tables a).isSome) : DceSim G tr A m m' :=
  ⟨h1.ge, hr, hbase, hclock, hw, henv, hlive⟩

theorem tail_sim (hd : Decided tr REF_FIRST b) (hR : R.Blind G) (h : DceSim G tr A m m')
    (hloop : tr.ir.chain .loop ≠ 0 → REF_BIAS ≤ tr.ir.chain .loop) {d : Machine H} (ht : tr.tail R m = some (.run d)) :
    ∃ d', { tr with ir := b }.tail R m' = some (.run d') ∧ DceSim G tr A d d' := by
  have hlooping : { tr with ir := b }.looping = tr.looping := rfl
  have hrecursing : { tr with ir := b }.recursing = tr.recursing := rfl
  simp only [Trace.tail, hlooping, hrecursing, hd.loop] at ht ⊢
  by_cases hlk : tr.looping = true
  · rw [if_pos hlk] at ht ⊢
    by_cases hchain : tr.ir.chain .loop ≠ 0
    · rw [if_pos hchain] at ht ⊢
      simp only [Option.bind_eq_bind, Option.bind_eq_some_iff, Option.pure_def, Option.some.injEq] at ht
      obtain ⟨env, henv, ht⟩ := ht
      cases ht
      have hl := hloop hchain
      obtain ⟨env', henv', hagree⟩ := hd.assignPhis h.env hl henv
      refine ⟨{ m' with env := env', r := tr.ir.chain .loop + 1 }, ?_, ?_⟩
      · rw [henv']
        rfl
      · exact ⟨Nat.succ_le_succ hl, rfl, h.cbase, h.clock, h.world, hagree, h.live⟩
    · rw [if_neg hchain] at ht ⊢
      simp only [Option.bind_eq_bind, Option.bind_eq_some_iff, Option.pure_def, Option.some.injEq] at ht
      obtain ⟨w, hw, ht⟩ := ht
      cases ht
      obtain ⟨w', hw', halike, htables⟩ := hd.restore hR h.cbase h.env h.world hw
      refine ⟨{ m' with world := w', r := REF_FIRST }, ?_, ?_⟩
      · rw [hw']
        rfl
      · exact .start rfl rfl h.cbase h.clock halike h.env fun a ha => by rw [htables]; exact h.live a ha
  · rw [if_neg hlk] at ht ⊢
    by_cases hrc : tr.recursing = true
    · rw [if_pos hrc] at ht ⊢
      simp only [Option.bind_eq_bind, Option.bind_eq_some_iff, Option.pure_def, Option.some.injEq] at ht
      obtain ⟨s, hs, w, hw, ht⟩ := ht
      cases ht
      obtain ⟨w', hw', halike, htables⟩ := hd.restore hR h.cbase h.env h.world hw
      refine ⟨{ m' with world := w', r := REF_FIRST, cbase := m'.cbase + s.baseslot - 2 }, ?_, ?_⟩
      · rw [hs, hw']
        rfl
      · refine .start rfl rfl ?_ h.clock halike h.env fun a ha => by rw [htables]; exact h.live a ha
        show m'.cbase + s.baseslot - 2 = m.cbase + s.baseslot - 2
        rw [h.cbase]
    · rw [if_neg hrc, Trace.exitSnapshot, Option.bind_eq_bind, Option.bind_eq_some_iff] at ht
      obtain ⟨w, -, ht⟩ := ht
      cases ht

/-- Both traces leave through the same snapshot with the same slots. -/
theorem Decided.exit (hd : Decided tr REF_FIRST b) (hR : R.Blind G) (hbase : m'.cbase = m.cbase)
    (henv : ∀ q, tr.Live q → m'.env q = m.env q) (hw : Alike G A m.world m'.world) {idx : ℕ} {g gc : Bool} {x : ℕ}
    {d : Machine H} (h : tr.exitSnapshot R m idx g = some (.exit x gc d)) :
    ∃ d', { tr with ir := b }.exitSnapshot R m' idx g = some (.exit x gc d') ∧ Alike G A d.world d'.world := by
  simp only [Trace.exitSnapshot, Option.bind_eq_bind, Option.bind_eq_some_iff, Option.pure_def,
    Option.some.injEq] at h ⊢
  obtain ⟨w, hw₁, h⟩ := h
  cases h
  obtain ⟨w', hw', halike, -⟩ := hd.restore hR hbase henv hw hw₁
  exact ⟨{ m' with world := w' }, ⟨w', hw', rfl⟩, halike⟩

theorem tail_leave (hd : Decided tr REF_FIRST b) (hR : R.Blind G) (h : DceSim G tr A m m') {x : ℕ} {gc : Bool}
    {d : Machine H} (ht : tr.tail R m = some (.exit x gc d)) :
    ∃ d', { tr with ir := b }.tail R m' = some (.exit x gc d') ∧ Alike G A d.world d'.world := by
  have hlooping : { tr with ir := b }.looping = tr.looping := rfl
  have hrecursing : { tr with ir := b }.recursing = tr.recursing := rfl
  simp only [Trace.tail, hlooping, hrecursing] at ht ⊢
  split at ht
  next hlk =>
    split at ht
    · simp only [Option.bind_eq_bind, Option.bind_eq_some_iff, Option.pure_def, Option.some.injEq] at ht
      obtain ⟨env, -, ht⟩ := ht
      cases ht
    · simp only [Option.bind_eq_bind, Option.bind_eq_some_iff, Option.pure_def, Option.some.injEq] at ht
      obtain ⟨w, -, ht⟩ := ht
      cases ht
  next hlk =>
    rw [if_neg hlk]
    split at ht
    next hrc =>
      simp only [Option.bind_eq_bind, Option.bind_eq_some_iff, Option.pure_def, Option.some.injEq] at ht
      obtain ⟨s, -, w, -, ht⟩ := ht
      cases ht
    next hrc =>
      rw [if_neg hrc]
      exact hd.exit hR h.cbase h.env h.world ht

end Tail

/-! ### Runs -/

section Runs
variable {H : Type} {R : Runtime H} {G : H → H → Prop} {tr : Trace} {b : IrBuf} {A A' : List ℕ} {m m' c d : Machine H}

/-- The loop chain of a well-formed trace ends at an instruction. -/
def Trace.LoopChain (tr : Trace) : Prop := tr.ir.chain .loop ≠ 0 → REF_BIAS ≤ tr.ir.chain .loop

/-- One step of the original trace that stays on the trace is one step of the other. -/
theorem DceSim.step (hd : Decided tr REF_FIRST b) (hssa : tr.ir.SSA) (hloop : tr.LoopChain) (hR : R.Blind G)
    (h : DceSim G tr A m m') (hok : tr.DceOk R G A m) (hstep : tr.step R m = some (.run d))
    (hA : tr.Discarded R A m A') : ∃ d', { tr with ir := b }.step R m' = some (.run d') ∧ DceSim G tr A' d d' := by
  by_cases hr : m.r < tr.ir.nins
  · obtain ⟨ins, e, hi, he, hl, rfl⟩ := step_run hr hstep
    by_cases hlive : tr.Live m.r
    · rw [hA.2 fun hdis => hdis.1 hlive]
      obtain ⟨ins', e', hi', he', ha⟩ := live_eval hd hssa hR h hi hlive (hok.avoids hr hlive) he
      have hr' : m'.r < { tr with ir := b }.ir.nins := by
        rw [h.r]
        exact hd.nins.symm ▸ hr
      have hi'' : { tr with ir := b }.ir.ir m'.r = some ins' := by rw [h.r, hi']
      exact ⟨commit m' e', step_of_eval hr' hi'' he' (ha.leave.trans hl), h.commit_live ha⟩
    · exact ⟨_, removed_step hd h hr hlive, dead_step h hok hi hlive he hA⟩
  · have hge : tr.ir.nins ≤ m.r := not_lt.mp hr
    have hnot : ¬ tr.Discards m := by
      rintro ⟨-, ins, hi, -⟩
      exact hr (lt_nins ((Nat.le_succ _).trans h.lo) hi)
    rw [hA.2 hnot]
    have hr' : ¬ m'.r < { tr with ir := b }.ir.nins := by
      rw [h.r]
      exact hd.nins.symm ▸ hr
    rw [Trace.step, if_neg hr] at hstep
    rw [Trace.step, if_neg hr']
    exact tail_sim hd hR h hloop hstep

/-- Where the original trace leaves, so does the other, with the same slots. -/
theorem DceSim.exit (hd : Decided tr REF_FIRST b) (hssa : tr.ir.SSA) (hR : R.Blind G) (h : DceSim G tr A m m')
    (hok : tr.DceOk R G A m) {x : ℕ} {gc : Bool} (hstep : tr.step R m = some (.exit x gc d)) :
    ∃ d', { tr with ir := b }.step R m' = some (.exit x gc d') ∧ Alike G A d.world d'.world := by
  by_cases hr : m.r < tr.ir.nins
  · have hr' : m'.r < { tr with ir := b }.ir.nins := by
      rw [h.r]
      exact hd.nins.symm ▸ hr
    rw [Trace.step, if_pos hr] at hstep
    simp only [Option.bind_eq_bind, Option.bind_eq_some_iff] at hstep
    obtain ⟨ins, hi, e, he, hstep⟩ := hstep
    by_cases hlive : tr.Live m.r
    · obtain ⟨ins', e', hi', he', ha⟩ := live_eval hd hssa hR h hi hlive (hok.avoids hr hlive) he
      have hl : e.leave = true := by
        by_contra hl
        rw [if_neg hl] at hstep
        cases hstep
      rw [if_pos hl] at hstep
      have hsim := h.commit_live ha
      have hsnapfor : { tr with ir := b }.snapFor m'.r = tr.snapFor m.r := by
        rw [h.r]
        rfl
      obtain ⟨d', hd', hw⟩ := hd.exit hR hsim.cbase hsim.env hsim.world hstep
      refine ⟨d', ?_, hw⟩
      rw [Trace.step, if_pos hr', h.r, hi', Option.bind_eq_bind, Option.bind_some, he', Option.bind_eq_bind,
        Option.bind_some, if_pos (ha.leave.trans hl), ← h.r, hsnapfor, ha.gc]
      exact hd'
    · rw [if_neg (by rw [hok.stays ins e hi he hlive]; decide)] at hstep
      cases hstep
  · have hr' : ¬ m'.r < { tr with ir := b }.ir.nins := by
      rw [h.r]
      exact hd.nins.symm ▸ hr
    rw [Trace.step, if_neg hr] at hstep
    rw [Trace.step, if_neg hr']
    exact tail_leave hd hR h hstep

/-- The two traces run side by side. -/
theorem DceSim.runs (hd : Decided tr REF_FIRST b) (hssa : tr.ir.SSA) (hloop : tr.LoopChain) (hR : R.Blind G)
    (h : DceSim G tr A m m') (hruns : tr.DceRuns R G (A, m) (A', c)) :
    ∃ c', { tr with ir := b }.Runs R m' c' ∧ DceSim G tr A' c c' := by
  generalize hx : (A, m) = x at hruns
  generalize hy : (A', c) = y at hruns
  induction hruns generalizing A' c with
  | refl =>
    cases hx.trans hy.symm
    exact ⟨m', .refl, h⟩
  | @tail y z _ hstep ih =>
    obtain ⟨c', hc', hsim⟩ := @ih y.1 y.2 rfl
    obtain ⟨d', hd', hsim'⟩ := hsim.step hd hssa hloop hR hstep.1 hstep.2.1 hstep.2.2
    cases hy
    exact ⟨d', hc'.tail hd', hsim'⟩

/-- Dead code elimination. As long as what nothing needs stays on the trace and has no visible effect, the
trace runs in step without it: it passes the same guards with the same heap and the same slots, and leaves
through the same exits with the same slots restored. -/
theorem optDce_sound (hssa : tr.ir.SSA) (hloop : tr.LoopChain) (hR : R.Blind G) (hrefl : ∀ h, G h h)
    (hr : m.r = REF_FIRST) (hruns : tr.DceRuns R G ([], m) (A, c)) :
    ∃ c', tr.optDce.Runs R m c' ∧ (c'.r = c.r ∧ c'.cbase = c.cbase ∧ Alike G A c.world c'.world ∧
        ∀ q, tr.Live q → c'.env q = c.env q) ∧
      (tr.DceOk R G A c → ∀ x gc d, tr.step R c = some (.exit x gc d) →
        ∃ d', tr.optDce.step R c' = some (.exit x gc d') ∧ Alike G A d.world d'.world) := by
  have hstart : DceSim G tr [] m m := by
    refine .start hr rfl rfl rfl ⟨rfl, ?_, hrefl _⟩ (fun q _ => rfl) (by simp)
    funext a
    simp
  have hd : Decided tr REF_FIRST tr.dceIr := optDce_spec hssa
  obtain ⟨c', hc', hsim⟩ := hstart.runs hd hssa hloop hR hruns
  refine ⟨c', hc', ⟨hsim.r, hsim.cbase, hsim.world, hsim.env⟩, ?_⟩
  intro hok x gc d hstep
  exact hsim.exit hd hssa hR hok hstep

end Runs

/-! ### A call whose result nothing needs -/

section Example

/-- A runtime that counts its calls. -/
def Runtime.counting : Runtime ℕ where
  hash _ := 0
  pow x _ := x
  upval _ v := v
  call _ _ w := (w.rest + 1, .num .zero)
  cnew _ _ h := (h, .nil)
  bufStart _ h := h
  bufAppend _ h := h
  bufStr h := (h, .nil)
  shouldCollect _ := false
  fresh n := n

/-- The call of a foreign function for its effect: the recorder emits it with a guarded number as its
result, which no snapshot names. -/
def callTrace : Trace where
  traceno := 1
  ir :=
    let (buf, addr) := (IrBuf.new 0 0).knum (.ofInt 4096)
    let (buf, type) := buf.knum (.ofInt 1)
    let (buf, c1) := buf.emitIns (.new .carg (plain .nil) addr type)
    let (buf, c2) := buf.emitIns (.new .carg (plain .nil) c1 addr)
    let (buf, c3) := buf.emitIns (.new .carg (plain .nil) c2 REF_NIL)
    (buf.emitIns (.new .calll (guarded .num) c3 IRCALL_FFI)).1
  snap := [⟨0, REF_FIRST, 0, 2, 2, 0⟩]
  snapmap := []
  linktype := .interp
  link := 0

/-- The entry of a trace with 7 in slot 2. -/
def entrySeven (H : Type) (h : H) : Machine H where
  r := REF_FIRST
  env _ := .nil
  world := ⟨fun _ => .num (.ofInt 7), fun _ => none, h⟩
  cbase := 2
  clock := 0

/-- The trace makes its call, and the optimised trace does not. -/
theorem optDce_drops_call : callTrace.ir.SSA ∧
    (∃ gc d, callTrace.Exits .counting (entrySeven ℕ 0) 0 gc d ∧ d.world.rest = 1) ∧
    ∃ gc d, callTrace.optDce.Exits .counting (entrySeven ℕ 0) 0 gc d ∧ d.world.rest = 0 := by
  have hssa : (∀ i (h : i < callTrace.ir.ins.length), IrBuf.Below (REF_BIAS + i) (callTrace.ir.ins.get ⟨i, h⟩)) ∧
      ∀ ins ∈ callTrace.ir.k, ins.op.isConst = true := by decide
  have hold : exitAfter .counting callTrace (entrySeven ℕ 0) 4 = some (0, .num (.ofInt 7), 1) := by decide
  have hnew : exitAfter .counting callTrace.optDce (entrySeven ℕ 0) 4 = some (0, .num (.ofInt 7), 0) := by
    decide
  obtain ⟨c, gc, d, hc, hd, -, hrest⟩ := exitAfter_step hold
  obtain ⟨c', gc', d', hc', hd', -, hrest'⟩ := exitAfter_step hnew
  exact ⟨⟨hssa.1, hssa.2⟩, ⟨gc, d, ⟨c, (advance_straight hc).runs, hd⟩, hrest⟩, gc', d',
    ⟨c', (advance_straight hc').runs, hd'⟩, hrest'⟩

/-- A trace that checks a slot, restores it and adds it to itself for nothing. -/
def idleTrace : Trace where
  traceno := 1
  ir :=
    let (buf, x) := (IrBuf.new 0 0).emitIns (.new .sload (guarded .num) 2 0)
    (buf.emitIns (.new .add (plain .num) x x)).1
  snap := [⟨0, REF_FIRST, 0, 2, 2, 1⟩]
  snapmap := [⟨2, false, REF_FIRST⟩]
  linktype := .interp
  link := 0

theorem idleTrace_ins : idleTrace.ir.ins = [.new .base (plain .p64) 0 0, .new .sload (guarded .num) 2 0,
      .new .add (plain .num) REF_FIRST REF_FIRST] ∧ idleTrace.ir.chain .loop = 0 ∧
    (∀ i (h : i < idleTrace.ir.ins.length), IrBuf.Below (REF_BIAS + i) (idleTrace.ir.ins.get ⟨i, h⟩)) ∧
    ∀ ins ∈ idleTrace.ir.k, ins.op.isConst = true := by
  decide

theorem idleTrace_cases {r : ℕ} {ins : IRIns} (hr : REF_FIRST ≤ r) (hi : idleTrace.ir.ir r = some ins) :
    ins = .new .sload (guarded .num) 2 0 ∨ ins = .new .add (plain .num) REF_FIRST REF_FIRST := by
  have hb : REF_BIAS ≤ r := (Nat.le_succ _).trans hr
  obtain ⟨i, hi'⟩ := Nat.exists_eq_add_of_le hr
  have hidx : r - REF_BIAS = i + 1 := by
    have : REF_FIRST = REF_BIAS + 1 := rfl
    omega
  rw [IrBuf.ir, if_pos hb, hidx, idleTrace_ins.1, List.getElem?_cons_succ] at hi
  rcases i with _ | _ | i
  · exact .inl (Option.some.inj hi).symm
  · exact .inr (Option.some.inj hi).symm
  · cases hi

/-- Every state of a run of the trace meets the condition. -/
theorem idleTrace_ok {m : Machine Unit} {A : List ℕ} (hr : REF_FIRST ≤ m.r) : idleTrace.DceOk .bare Eq A m := by
  have heffect : ∀ ins e, idleTrace.ir.ir m.r = some ins → evalIns .bare idleTrace.ir m ins = some e →
      ¬ idleTrace.Live m.r → e.leave = false ∧ e.world = m.world := by
    intro ins e hi he hl
    rcases idleTrace_cases hr hi with rfl | rfl
    · exact absurd (.kept hi rfl) hl
    · simp only [evalIns, IRIns.new, Option.bind_eq_bind, Option.bind_eq_some_iff, Option.pure_def,
        Option.some.injEq] at he
      obtain ⟨x, -, y, -, z, -, rfl⟩ := he
      exact ⟨rfl, rfl⟩
  refine ⟨fun ins e hi he hl => (heffect ins e hi he hl).1, ?_, ?_⟩
  · intro ins e hi he hl h hg
    exact (congrArg World.rest (heffect ins e hi he hl).2).trans hg
  · intro _ _ ins hi
    rcases idleTrace_cases hr hi with rfl | rfl
    · trivial
    · trivial

theorem idleTrace_runs {n : ℕ} {m c : Machine Unit} {A : List ℕ} (hr : REF_FIRST ≤ m.r)
    (hc : advance .bare idleTrace.ir n m = some c) : idleTrace.DceRuns .bare Eq (A, m) (A, c) := by
  induction n generalizing m with
  | zero =>
    cases hc
    exact .refl
  | succ n ih =>
    obtain ⟨d, hn, hd⟩ := advance_next hc
    have hdr := hn.r
    have hnot : ¬ idleTrace.Discards m := by
      rintro ⟨-, ins, hi, hop⟩
      rcases idleTrace_cases hr hi with rfl | rfl <;> simp [IRIns.new] at hop
    have hkeep : idleTrace.Discarded .bare A m A := ⟨fun h => absurd h hnot, fun _ => rfl⟩
    exact Relation.ReflTransGen.head ⟨idleTrace_ok hr, hn.step, hkeep⟩ (@ih d (by omega) hd)

/-- Without the sum, the exit restores the same slot. -/
theorem optDce_sound_idle : ∃ gc d, idleTrace.optDce.Exits .bare (entrySeven Unit ()) 0 gc d ∧
    d.world.stack 2 = .num (.ofInt 7) := by
  have hexit : exitAfter .bare idleTrace (entrySeven Unit ()) 2 = some (0, .num (.ofInt 7), ()) := by decide
  obtain ⟨c, gc, d, hc, hd, hs, -⟩ := exitAfter_step hexit
  have hr : c.r = REF_FIRST + 2 := advance_r hc
  obtain ⟨-, hloop, hbelow, hconsts⟩ := idleTrace_ins
  obtain ⟨c', hruns, -, hleave⟩ := optDce_sound ⟨hbelow, hconsts⟩ (fun h => absurd hloop h) (Runtime.blind_eq _)
    (fun _ => rfl) rfl (@idleTrace_runs 2 (entrySeven Unit ()) c [] le_rfl hc)
  obtain ⟨d', hd', hw⟩ := hleave (idleTrace_ok (by omega)) 0 gc d hd
  exact ⟨gc, d', ⟨c', hruns, hd'⟩, by rw [hw.stack, hs]⟩

end Example
end LuajitRs.Ir
