import LuajitRs.Jit.Record.Emit

/-! Replaying what was recorded for one bytecode: the emitted instructions in order, over a later machine, until
one of them leaves the trace. -/
namespace LuajitRs.Ir

section
variable {H : Type}

/-- The emitted instructions in order; `some none` is an exit. -/
def runIns (R : Runtime H) (b : IrBuf) : List IRIns → Machine H → Option (Option (Machine H))
  | [], m => some (some m)
  | ins :: rest, m => do
    let e ← evalIns R b m ins
    if e.leave then some none else runIns R b rest (commit m e)

/-- The machine `m'` is `m` after `n` instructions that stored nothing. -/
structure After (m m' : Machine H) (n : ℕ) : Prop where
  r : m'.r = m.r + n
  world : m'.world = m.world
  cbase : m'.cbase = m.cbase
  env : ∀ r < m.r, m'.env r = m.env r

variable {R : Runtime H} {b c : IrBuf} {m m' m'' : Machine H} {ins : IRIns} {rest es es' : List IRIns}

theorem After.refl (m : Machine H) : After m m 0 := ⟨rfl, rfl, rfl, fun _ _ => rfl⟩

theorem After.trans {n n' : ℕ} (hm : After m m' n) (hm' : After m' m'' n') : After m m'' (n + n') := by
  refine ⟨?_, hm'.world.trans hm.world, hm'.cbase.trans hm.cbase, fun r hr => ?_⟩
  · rw [hm'.r, hm.r]
    omega
  · rw [hm'.env r (by rw [hm.r]; omega), hm.env r hr]

theorem after_commit {e : Effect H} (he : e.world = m.world) : After m (commit m e) 1 := by
  refine ⟨rfl, he, rfl, fun r hr => ?_⟩
  cases hv : e.val with
  | none => simp only [commit, hv]
  | some v =>
    simp only [commit, hv]
    exact Function.update_of_ne (by omega) _ _

theorem commit_env {e : Effect H} {v : LuaValue} (hv : e.val = some v) : (commit m e).env m.r = v := by
  simp only [commit, hv]
  exact Function.update_self _ _ _

theorem runIns_cons {e : Effect H} (he : evalIns R c m ins = some e) :
    runIns R c (ins :: rest) m = if e.leave then some none else runIns R c rest (commit m e) := by
  rw [runIns, he]
  rfl

/-- An instruction without an effect. -/
theorem runIns_skip (he : evalIns R c m ins = some (.skip m.world)) :
    ∃ m', After m m' 1 ∧ m'.env = m.env ∧ ∀ rest, runIns R c (ins :: rest) m = runIns R c rest m' := by
  refine ⟨commit m (.skip m.world), after_commit rfl, rfl, fun rest => ?_⟩
  rw [runIns_cons he]
  rfl

/-- The links between instructions of one opcode do not matter. -/
theorem runIns_withoutPrev (l : List IRIns) : runIns R c (l.map IrBuf.withoutPrev) m = runIns R c l m := by
  induction l generalizing m with
  | nil => rfl
  | cons ins l ih =>
    have heval : evalIns R c m (IrBuf.withoutPrev ins) = evalIns R c m ins := rfl
    rw [List.map_cons, runIns, runIns, heval]
    cases evalIns R c m ins with
    | none => rfl
    | some e => simp only [Option.bind_eq_bind, Option.bind_some, ih]

/-- What was emitted after `b`, as a run of the instructions without their links. -/
theorem runIns_grows (hg : b.Grows c es) : runIns R c (c.ins.drop b.ins.length) m = runIns R c es m := by
  obtain ⟨tail, hc, rfl⟩ := hg.ins
  rw [hc, List.drop_left, runIns_withoutPrev]

/-! ### Operands -/

theorem readRef_const {env : ℕ → LuaValue} {k : ℕ} {v : LuaValue} (hlt : k < REF_BIAS)
    (hk : c.constBits k = some v) : readRef c env k = some v := by
  rw [readRef, if_neg (by omega), hk]

theorem readRef_ins (env : ℕ → LuaValue) {r : ℕ} (hr : REF_BIAS ≤ r) : readRef c env r = some (env r) := by
  rw [readRef, if_pos hr]

/-- The constant of a primitive type is its only value. -/
theorem readRef_pri (hc : c.Consts) (env : ℕ → LuaValue) {v : LuaValue}
    (hp : irtIspri (valueIrt v) = true) :
    readRef c env (trefPri (valueIrt v)).ref = some v := by
  cases v with
  | nil => exact readRef_const (by decide) hc.nil
  | bool b =>
    cases b with
    | false => exact readRef_const (by decide) hc.false
    | true => exact readRef_const (by decide) hc.true
  | _ => cases hp

/-! ### Guards -/

/-- An equality guard between values that are not compared as numbers. -/
theorem runIns_eq (ty : IRTy) {l k : ℕ} {x y : LuaValue} (hl : readRef c m.env l = some x)
    (hk : readRef c m.env k = some y) (hty : ty ≠ .num) :
    ∃ m', After m m' 1 ∧ m'.env = m.env ∧ ∀ rest, runIns R c (.new .eq (guarded ty) l k :: rest) m =
      if x = y then runIns R c rest m' else some none := by
  have he : evalIns R c m (.new .eq (guarded ty) l k) = some (.guard m.world (x = y)) := by
    simp [evalIns, IRIns.new, hl, hk, guarded, evalEq, hty]
  refine ⟨commit m (.guard m.world (x = y)), after_commit rfl, rfl, fun rest => ?_⟩
  rw [runIns_cons he]
  by_cases hxy : x = y <;> simp [Effect.guard, hxy]

/-- A checked value: the load passes if the check does. -/
theorem runIns_check {v : LuaValue} {ok : Prop} [Decidable ok]
    (he : evalIns R c m ins = some (.check m.world v (decide ok))) :
    ∃ m', After m m' 1 ∧ m'.env m.r = v ∧ ∀ rest, runIns R c (ins :: rest) m =
      if ok then runIns R c rest m' else some none := by
  refine ⟨commit m (.check m.world v (decide ok)), after_commit rfl, commit_env rfl, fun rest => ?_⟩
  rw [runIns_cons he]
  by_cases hok : ok <;> simp [Effect.check, hok]

/-! ### Emitted instructions -/

theorem IrBuf.Keeps.readRef {env env' : ℕ → LuaValue} {r : ℕ} {v : LuaValue} (hk : b.Keeps c)
    (hv : readRef b env r = some v) (he : REF_BIAS ≤ r → env' r = env r) : readRef c env' r = some v := by
  unfold Ir.readRef at hv ⊢
  split at hv
  · next hr => rw [if_pos hr, he hr, hv]
  · next hr => rw [if_neg hr, hk r v hv]

theorem IrBuf.nins_ge (b : IrBuf) : REF_BIAS ≤ b.nins := Nat.le_add_right _ _

/-- The instruction that was emitted last. -/
theorem IrBuf.ir_emitIns (b : IrBuf) (ins : IRIns) :
    (b.emitIns ins).1.ir b.nins = some { ins with prev := b.chain ins.op } := by
  rw [IrBuf.ir, if_pos b.nins_ge]
  simp [IrBuf.emitIns, IrBuf.nins]

/-- The operands of an emitted `CARG`. -/
theorem IrBuf.Grows.carg (es : List IRIns) {es' : List IRIns} {x y : ℕ} (hg : b.Grows c (es ++ .new .carg (plain .nil) x y :: es')) :
    carg c (b.nins + es.length) = some (x, y) := by
  obtain ⟨tail, hc, hmap⟩ := hg.ins
  have hlen := congrArg List.length hmap
  have hget := congrArg (fun l => l[es.length]?) hmap
  simp only [List.getElem?_map, List.getElem?_append_right (Nat.le_refl _), Nat.sub_self,
    List.getElem?_cons_zero] at hget
  obtain ⟨i, hi, hie⟩ := Option.map_eq_some_iff.mp hget
  have hir : c.ir (b.nins + es.length) = some i := by
    rw [IrBuf.ir, if_pos (by rw [IrBuf.nins]; omega), hc, IrBuf.nins]
    rw [show REF_BIAS + b.ins.length + es.length - REF_BIAS = b.ins.length + es.length by omega,
      List.getElem?_append_right (Nat.le_add_right _ _), Nat.add_sub_cancel_left, hi]
  cases i
  simp only [IrBuf.withoutPrev, IRIns.new, IRIns.mk.injEq] at hie
  obtain ⟨rfl, rfl, rfl, rfl, -⟩ := hie
  rw [Ir.carg, hir]
  rfl

end
end LuajitRs.Ir
