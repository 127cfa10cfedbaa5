import LuajitRs.Jit.Opt.Mem

/-! Dead-store elimination. The pass removes an array store once a later one through the same references
overwrites it, and asks only whether the same references were loaded in between. Between the two stores
the slot is stale: a run that leaves the trace there, or that reads the slot in another way, sees it. -/
namespace LuajitRs.Ir

/-- The buffer as it was when the instruction at `r` was folded. -/
def IrBuf.before (buf : IrBuf) (r : ℕ) : IrBuf := { buf with ins := buf.ins.take (r - REF_BIAS) }

/-- The trace as it is when dead-store elimination has run for the instruction at `s`. -/
def Trace.dseAt (tr : Trace) (s : ℕ) : Option Trace := do
  let fins ← tr.ir.ir s
  let b ← (tr.ir.before s).tryDse fins
  some { tr with ir := { tr.ir with ins := b.ins ++ tr.ir.ins.drop (s - REF_BIAS) } }

/-! ### A slot with another content -/

def LuaTable.withSlot (t : LuaTable) (i : ℕ) (v : LuaValue) : LuaTable := { t with array := t.array.set i v }

section Slot
variable {H : Type}

/-- The same world with `v` in slot `i` of the table at `a`. -/
def World.withSlot (w : World H) (a i : ℕ) (v : LuaValue) : World H :=
  { w with tables := fun b => (w.tables b).map fun t => if b = a then LuaTable.withSlot t i v else t }

def Machine.withSlot (m : Machine H) (a i : ℕ) (v : LuaValue) : Machine H :=
  { m with world := m.world.withSlot a i v }

def Effect.withSlot (e : Effect H) (a i : ℕ) (v : LuaValue) : Effect H := { e with world := e.world.withSlot a i v }

variable (w : World H) (m : Machine H) (a i : ℕ) (v : LuaValue)

theorem withSlot_tables_self {t : LuaTable} (h : w.tables a = some t) :
    (w.withSlot a i v).tables a = some (LuaTable.withSlot t i v) := by
  simp [World.withSlot, h]

theorem withSlot_tables_ne {b : ℕ} (h : b ≠ a) : (w.withSlot a i v).tables b = w.tables b := by
  simp [World.withSlot, h]

/-- The table that a value denotes there. -/
theorem withSlot_table (tv : LuaValue) : (w.withSlot a i v).table tv =
    (w.table tv).map fun p => (p.1, if p.1 = a then LuaTable.withSlot p.2 i v else p.2) := by
  cases tv with
  | tab b =>
    simp only [World.table, LuaValue.asTable, Option.bind_eq_bind, Option.bind_some, World.withSlot]
    cases w.tables b <;> rfl
  | _ => rfl

theorem commit_withSlot (e : Effect H) : commit (m.withSlot a i v) (e.withSlot a i v) = (commit m e).withSlot a i v :=
  rfl

/-- Writing another table commutes with the slot. -/
theorem withSlot_setTable_ne {b : ℕ} (t : LuaTable) (h : b ≠ a) :
    (w.withSlot a i v).setTable b t = (w.setTable b t).withSlot a i v := by
  simp only [World.setTable, World.withSlot, World.mk.injEq, true_and, and_true]
  funext c
  by_cases hc : c = b
  · subst hc
    simp [h]
  · simp [Function.update_of_ne hc]

/-- Writing the table itself overrides the slot. -/
theorem withSlot_setTable_self (t : LuaTable) : (w.withSlot a i v).setTable a t = w.setTable a t := by
  simp only [World.setTable, World.withSlot, World.mk.injEq, true_and, and_true]
  funext c
  by_cases hc : c = a
  · subst hc
    simp
  · simp [hc]

theorem setTable_withSlot_self (t : LuaTable) :
    (w.setTable a t).withSlot a i v = w.setTable a (LuaTable.withSlot t i v) := by
  simp only [World.setTable, World.withSlot, World.mk.injEq, true_and, and_true]
  funext c
  by_cases hc : c = a
  · subst hc
    simp
  · simp [hc]

end Slot

/-! ### Instructions that do not read a slot -/

section Reads
variable {H : Type} (R : Runtime H) (buf : IrBuf) (m : Machine H)

/-- What the current instruction does depends on the content of a slot. -/
def Reads (a i : ℕ) : Prop :=
  ∃ ins, buf.ir m.r = some ins ∧
    match ins.op with
    | .aload => readRef buf m.env ins.op1 = some (.tab a) ∧ (readRef buf m.env ins.op2).bind arrayIndex = some (i : ℤ)
    | .hload => ∃ t k v, readRef buf m.env ins.op1 = some (.tab a) ∧ m.world.tables a = some t ∧
        readRef buf m.env ins.op2 = some k ∧ tget R.hash (LuaTable.withSlot t i v) k ≠ tget R.hash t k
    | .hstore => ∃ t kv k x v, readRef buf m.env ins.op1 = some (.tab a) ∧ m.world.tables a = some t ∧
        carg buf ins.op2 = some kv ∧ readRef buf m.env kv.1 = some k ∧ readRef buf m.env kv.2 = some x ∧
        tset R.hash (LuaTable.withSlot t i v) k x ≠ (tset R.hash t k x).map (LuaTable.withSlot · i v)
    | .tdup => (readRef buf m.env ins.op1).map LuaValue.toBits = some a
    | .calll => ∃ args v, callArgs buf m ins.op2 ins.op1 = some args ∧
        R.call ins.op2 args (m.world.withSlot a i v) ≠ R.call ins.op2 args m.world
    | .gcstep => ∃ v, R.shouldCollect (m.world.withSlot a i v) ≠ R.shouldCollect m.world
    | _ => False

variable {R buf m} {a i : ℕ} {v : LuaValue} {e : Effect H}

/-- An evaluation with another content of a slot has the same effect, up to the slot. -/
def SameEffect (a i : ℕ) (e : Effect H) (o : Option (Effect H)) : Prop := ∃ v, o = some (e.withSlot a i v)

/-- The table with the slot changed, if it is the one. -/
theorem ite_withSlot_asize (t : LuaTable) (b : ℕ) :
    (if b = a then LuaTable.withSlot t i v else t).asize = t.asize := by
  split <;> rfl

theorem aload_withSlot {tv kv : LuaValue} {t : IRTy} (hr : ¬(tv = .tab a ∧ arrayIndex kv = some (i : ℤ)))
    (h : evalAload m tv kv t = some e) : SameEffect a i e (evalAload (m.withSlot a i v) tv kv t) := by
  simp only [evalAload, Option.bind_eq_bind, Option.bind_eq_some_iff] at h
  obtain ⟨p, hp, h⟩ := h
  have hget : ∀ ki : ℤ, arrayIndex kv = some ki → 0 ≤ ki →
      (if p.1 = a then LuaTable.withSlot p.2 i v else p.2).array[ki.toNat]? = p.2.array[ki.toNat]? := by
    intro ki hk h0
    split
    · rename_i hpa
      refine List.getElem?_set_ne ?_
      rintro rfl
      refine hr ⟨?_, by rw [hk, Int.toNat_of_nonneg h0]⟩
      rw [← hpa]
      exact (table_eq_some hp).1
    · rfl
  refine ⟨v, ?_⟩
  simp only [evalAload, Machine.withSlot, withSlot_table, hp, Option.map_some, Option.bind_eq_bind,
    Option.bind_some, ite_withSlot_asize]
  cases hk : arrayIndex kv with
  | none =>
    rw [hk] at h
    cases h
    rfl
  | some ki =>
    rw [hk] at h
    simp only at h ⊢
    split at h
    · rename_i hlt
      simp only [Option.bind_eq_some_iff, Option.pure_def, Option.some.injEq] at h
      obtain ⟨x, hx, rfl⟩ := h
      rw [if_pos hlt, hget ki hk hlt.1, hx]
      rfl
    · rename_i hlt
      cases h
      rw [if_neg hlt]
      rfl

theorem hload_withSlot {tv kv : LuaValue} {ins : IRIns}
    (hr : ∀ t v, tv = .tab a → m.world.tables a = some t → tget R.hash (LuaTable.withSlot t i v) kv = tget R.hash t kv)
    (h : evalHload R m tv kv ins = some e) : SameEffect a i e (evalHload R (m.withSlot a i v) tv kv ins) := by
  simp only [evalHload, Option.bind_eq_bind, Option.bind_eq_some_iff, Option.pure_def, Option.some.injEq] at h
  obtain ⟨p, hp, x, hx, rfl⟩ := h
  have hget : tget R.hash (if p.1 = a then LuaTable.withSlot p.2 i v else p.2) kv = some x := by
    split
    · rename_i hpa
      have ht := table_eq_some hp
      rw [hr p.2 v (by rw [← hpa]; exact ht.1) (by rw [← hpa]; exact ht.2), hx]
    · exact hx
  refine ⟨v, ?_⟩
  simp only [evalHload, Machine.withSlot, withSlot_table, hp, Option.map_some, Option.bind_eq_bind,
    Option.bind_some, hget]
  rfl

theorem hstore_withSlot {tv kv x : LuaValue}
    (hr : ∀ t v, tv = .tab a → m.world.tables a = some t →
      tset R.hash (LuaTable.withSlot t i v) kv x = (tset R.hash t kv x).map (LuaTable.withSlot · i v))
    (h : evalHstore R m tv kv x = some e) : SameEffect a i e (evalHstore R (m.withSlot a i v) tv kv x) := by
  simp only [evalHstore, Option.bind_eq_bind, Option.bind_eq_some_iff, Option.pure_def, Option.some.injEq] at h
  obtain ⟨p, hp, t', ht', rfl⟩ := h
  have ht := table_eq_some hp
  refine ⟨v, ?_⟩
  simp only [evalHstore, Machine.withSlot, withSlot_table, hp, Option.map_some, Option.bind_eq_bind, Option.bind_some]
  by_cases hpa : p.1 = a
  · rw [if_pos hpa, hr p.2 v (by rw [← hpa]; exact ht.1) (by rw [← hpa]; exact ht.2), ht']
    simp only [Option.map_some, Option.bind_some, Option.pure_def, Option.some.injEq, Effect.withSlot, Effect.skip]
    rw [hpa, withSlot_setTable_self, setTable_withSlot_self]
  · rw [if_neg hpa, ht']
    simp only [Option.bind_some, Option.pure_def, Option.some.injEq, Effect.withSlot, Effect.skip]
    rw [withSlot_setTable_ne _ _ _ _ _ hpa]

/-- An array store: to the slot itself it leaves its own value there. -/
theorem astore_withSlot {tv kv x : LuaValue} (hl : e.leave = false) (h : evalAstore m tv kv x = some e) :
    SameEffect a i e (evalAstore (m.withSlot a i v) tv kv x) := by
  obtain ⟨b, t, k, rfl, ht, hk, hpos, hlt, hlen, rfl⟩ := evalAstore_eq h hl
  by_cases hba : b = a
  · subst hba
    refine ⟨if k.toNat = i then x else v, ?_⟩
    have hself := withSlot_tables_self m.world b i v ht
    rw [evalAstore_stays (m := m.withSlot b i v) hself hk hpos hlt (by simpa [LuaTable.withSlot] using hlen)]
    simp only [Option.some.injEq, Effect.withSlot, Effect.skip, Effect.mk.injEq, true_and, and_true, Machine.withSlot,
      withSlot_setTable_self, setTable_withSlot_self]
    congr 1
    simp only [LuaTable.withSlot, LuaTable.mk.injEq, and_true]
    by_cases hki : k.toNat = i
    · rw [if_pos hki, hki, List.set_set, List.set_set]
    · rw [if_neg hki, List.set_comm _ _ (Ne.symm hki)]
  · refine ⟨v, ?_⟩
    have hother := withSlot_tables_ne m.world a i v hba
    rw [evalAstore_stays (m := m.withSlot a i v) (hother.trans ht) hk hpos hlt hlen]
    simp only [Option.some.injEq, Effect.withSlot, Effect.skip, Effect.mk.injEq, true_and, and_true, Machine.withSlot]
    exact withSlot_setTable_ne m.world a i v _ hba

theorem fload_withSlot {tv : LuaValue} {t : IRTy} (h : evalFload m tv t = some e) :
    SameEffect a i e (evalFload (m.withSlot a i v) tv t) := by
  simp only [evalFload, Option.bind_eq_bind, Option.bind_eq_some_iff] at h
  obtain ⟨p, hp, h⟩ := h
  have hmeta : (if p.1 = a then LuaTable.withSlot p.2 i v else p.2).metatable = p.2.metatable := by
    split <;> rfl
  refine ⟨v, ?_⟩
  simp only [evalFload, Machine.withSlot, withSlot_table, hp, Option.map_some, Option.bind_eq_bind,
    Option.bind_some, metaValue, hmeta]
  split at h <;> cases h
  · rename_i hty
    rw [if_pos hty]
    rfl
  · rename_i hty
    rw [if_neg hty]
    rfl

theorem fstore_withSlot {tv : LuaValue} {mv : Option LuaValue} (h : evalFstore m tv mv = some e) :
    SameEffect a i e (evalFstore (m.withSlot a i v) tv mv) := by
  simp only [evalFstore, Option.bind_eq_bind, Option.bind_eq_some_iff] at h
  obtain ⟨p, hp, h⟩ := h
  -- The store of a new metatable commutes with the slot, in the same table or in another one.
  have hcomm : ∀ mt : Option ℕ,
      (m.world.withSlot a i v).setTable p.1
        { (if p.1 = a then LuaTable.withSlot p.2 i v else p.2) with metatable := mt } =
      (m.world.setTable p.1 { p.2 with metatable := mt }).withSlot a i v := by
    intro mt
    by_cases hpa : p.1 = a
    · rw [if_pos hpa, hpa, withSlot_setTable_self, setTable_withSlot_self]
      rfl
    · rw [if_neg hpa, withSlot_setTable_ne _ _ _ _ _ hpa]
  refine ⟨v, ?_⟩
  simp only [evalFstore, Machine.withSlot, withSlot_table, hp, Option.map_some, Option.bind_eq_bind, Option.bind_some]
  cases mv with
  | none =>
    cases h
    simp only [hcomm]
    rfl
  | some mtv =>
    simp only [Option.bind_eq_some_iff, Option.pure_def, Option.some.injEq] at h
    obtain ⟨b, hb, rfl⟩ := h
    simp only [hb, Option.bind_some, hcomm]
    rfl

/-- An allocation at an unused address. -/
theorem alloc_withSlot {w w' : World H} {b : ℕ} {t : LuaTable} (ha : (w.tables a).isSome)
    (h : w.alloc b t = some w') : (w.withSlot a i v).alloc b t = some (w'.withSlot a i v) := by
  rw [World.alloc] at h
  split at h
  · rename_i hnone
    cases h
    have hba : b ≠ a := by
      rintro rfl
      rw [Option.isNone_iff_eq_none] at hnone
      rw [hnone] at ha
      cases ha
    rw [World.alloc, withSlot_tables_ne w a i v hba, if_pos hnone, withSlot_setTable_ne w a i v t hba]
  · cases h

theorem evalBuf_withSlot (start : Bool) (x : LuaValue) :
    evalBuf R (m.withSlot a i v) start x = (evalBuf R m start x).withSlot a i v := by
  simp only [evalBuf]
  split
  · rfl
  · split <;> rfl

theorem evalConv_withSlot (x : LuaValue) (ins : IRIns) :
    evalConv (m.withSlot a i v) x ins = (evalConv m x ins).withSlot a i v := by
  simp only [evalConv]
  split
  · rfl
  · split
    · split <;> rfl
    · rfl

/-- The content of a slot does not matter to an instruction that does not read it. -/
theorem evalIns_withSlot {ins : IRIns} (ha : (m.world.tables a).isSome) (hi : buf.ir m.r = some ins)
    (hr : ¬ Reads R buf m a i) (hl : e.leave = false) (h : evalIns R buf m ins = some e) :
    SameEffect a i e (evalIns R buf (m.withSlot a i v) ins) := by
  rcases ins with ⟨op, t, op1, op2, prev⟩
  cases op
  all_goals first | (cases h; done) | skip
  all_goals
    simp only [evalIns, Option.bind_eq_bind, Option.bind_eq_some_iff, Option.pure_def, Option.some.injEq] at h
  all_goals first
    | (subst h; exact ⟨v, rfl⟩)
    | (obtain ⟨x, hx, rfl⟩ := h
       refine ⟨v, ?_⟩
       simp only [evalIns, Machine.withSlot, hx]
       rfl)
    | (obtain ⟨x, hx, y, hy, rfl⟩ := h
       refine ⟨v, ?_⟩
       simp only [evalIns, Machine.withSlot, hx, hy]
       rfl)
    | (obtain ⟨x, hx, y, hy, z, hz, rfl⟩ := h
       refine ⟨v, ?_⟩
       simp only [evalIns, Machine.withSlot, hx, hy, Option.bind_eq_bind, Option.bind_some, hz]
       rfl)
    | skip
  case gcstep =>
    subst h
    have hgc : R.shouldCollect (m.world.withSlot a i v) = R.shouldCollect m.world := by
      by_contra hne
      exact hr ⟨_, hi, v, hne⟩
    refine ⟨v, ?_⟩
    simp only [evalIns, Machine.withSlot, hgc]
    rfl
  case fpmath =>
    obtain ⟨x, hx, y, hy, rfl⟩ := h
    refine ⟨v, ?_⟩
    simp only [evalIns, Machine.withSlot, hx, Option.bind_eq_bind, Option.bind_some, hy]
    rfl
  case aload =>
    obtain ⟨tv, htv, kv, hkv, h⟩ := h
    simp only [evalIns, Machine.withSlot, htv, hkv, Option.bind_eq_bind, Option.bind_some]
    refine aload_withSlot ?_ h
    rintro ⟨rfl, hk⟩
    exact hr ⟨_, hi, htv, by rw [hkv]; exact hk⟩
  case hload =>
    obtain ⟨tv, htv, kv, hkv, h⟩ := h
    simp only [evalIns, Machine.withSlot, htv, hkv, Option.bind_eq_bind, Option.bind_some]
    refine hload_withSlot ?_ h
    rintro t' v' rfl ht
    by_contra hne
    exact hr ⟨_, hi, t', kv, v', htv, ht, hkv, hne⟩
  case fload =>
    obtain ⟨tv, htv, h⟩ := h
    simp only [evalIns, Machine.withSlot, htv, Option.bind_eq_bind, Option.bind_some]
    exact fload_withSlot h
  case astore =>
    obtain ⟨kv, hkv, tv, htv, k, hk, x, hx, h⟩ := h
    simp only [evalIns, Machine.withSlot, hkv, htv, hk, hx, Option.bind_eq_bind, Option.bind_some]
    exact astore_withSlot hl h
  case hstore =>
    obtain ⟨kv, hkv, tv, htv, k, hk, x, hx, h⟩ := h
    simp only [evalIns, Machine.withSlot, hkv, htv, hk, hx, Option.bind_eq_bind, Option.bind_some]
    refine hstore_withSlot ?_ h
    rintro t' v' rfl ht
    by_contra hne
    exact hr ⟨_, hi, t', kv, k, x, v', htv, ht, hkv, hk, hx, hne⟩
  case fstore =>
    split at h
    · rename_i h0
      simp only [Option.bind_eq_some_iff] at h
      obtain ⟨tv, htv, h⟩ := h
      simp only [evalIns, Machine.withSlot, htv, if_pos h0, Option.bind_eq_bind, Option.bind_some]
      exact fstore_withSlot h
    · rename_i h0
      simp only [Option.bind_eq_some_iff] at h
      obtain ⟨tv, htv, mv, hmv, h⟩ := h
      simp only [evalIns, Machine.withSlot, htv, hmv, if_neg h0, Option.bind_eq_bind, Option.bind_some]
      exact fstore_withSlot h
  case tnew =>
    obtain ⟨t', ht', w, hw, rfl⟩ := h
    refine ⟨v, ?_⟩
    simp only [evalIns, Machine.withSlot, ht', alloc_withSlot ha hw, Option.bind_eq_bind, Option.bind_some]
    rfl
  case tdup =>
    obtain ⟨tv, htv, t', ht', w, hw, rfl⟩ := h
    have hne : tv.toBits ≠ a := by
      rintro rfl
      exact hr ⟨_, hi, by rw [htv]; rfl⟩
    refine ⟨v, ?_⟩
    simp only [evalIns, Machine.withSlot, htv, Option.bind_eq_bind, Option.bind_some,
      withSlot_tables_ne m.world a i v hne, ht', alloc_withSlot ha hw]
    rfl
  case bufhdr =>
    obtain ⟨x, hx, rfl⟩ := h
    refine ⟨v, ?_⟩
    simp only [evalIns, Machine.withSlot, hx]
    exact congrArg some (evalBuf_withSlot true x)
  case bufput =>
    obtain ⟨x, hx, rfl⟩ := h
    refine ⟨v, ?_⟩
    simp only [evalIns, Machine.withSlot, hx]
    exact congrArg some (evalBuf_withSlot false x)
  case conv =>
    obtain ⟨x, hx, rfl⟩ := h
    refine ⟨v, ?_⟩
    simp only [evalIns, Machine.withSlot, hx]
    exact congrArg some (evalConv_withSlot x _)
  case calll =>
    obtain ⟨args, hargs, rfl⟩ := h
    have hcall : R.call op2 args (m.world.withSlot a i v) = R.call op2 args m.world := by
      by_contra hne
      exact hr ⟨_, hi, args, v, hargs, hne⟩
    have hargs' : callArgs buf (m.withSlot a i v) op2 op1 = some args := hargs
    refine ⟨v, ?_⟩
    simp only [evalIns, hargs']
    simp only [Machine.withSlot, Option.bind_eq_bind, Option.bind_some, hcall]
    rfl

end Reads

/-! ### The trace without the dead store -/

section Remove
variable {H : Type} {R : Runtime H} {tr : Trace} {s₁ s : ℕ}

def Trace.remove (tr : Trace) (s₁ : ℕ) : Trace := { tr with ir := tr.ir.modify s₁ .setNop }

/-- Two array stores through the same table and key references. -/
structure Overwrites (buf : IrBuf) (s₁ s : ℕ) : Prop where
  lo : REF_BIAS < s₁
  lt : s₁ < s
  stores : ∃ ins fins kv kv', buf.ir s₁ = some ins ∧ ins.op = .astore ∧ buf.ir s = some fins ∧ fins.op = .astore ∧
    fins.op1 = ins.op1 ∧ buf.ir ins.op2 = some kv ∧ buf.ir fins.op2 = some kv' ∧ kv'.op1 = kv.op1

theorem ir_before {buf : IrBuf} {r : ℕ} {ins : IRIns} (h : (buf.before s).ir r = some ins) :
    buf.ir r = some ins := by
  have hk : (buf.before s).k = buf.k := by cases buf; rfl
  have hins : (buf.before s).ins = buf.ins.take (s - REF_BIAS) := by simp only [IrBuf.before]
  rw [IrBuf.ir, hk, hins, List.getElem?_take] at h
  rw [IrBuf.ir]
  split at h
  · rename_i hr
    rw [if_pos hr]
    split at h
    · exact h
    · cases h
  · rename_i hr
    rw [if_neg hr]
    exact h

theorem take_modify {α : Type} (l : List α) {n k : ℕ} (f : α → α) (h : k < n) :
    (l.take n).modify k f ++ l.drop n = l.modify k f := by
  apply List.ext_getElem?
  intro j
  rcases Nat.lt_or_ge j (min n l.length) with hj | hj
  · rw [List.getElem?_append_left (by simpa using hj)]
    simp only [List.getElem?_modify, List.getElem?_take_of_lt (show j < n by omega)]
  · rw [List.getElem?_append_right (by simpa using hj), List.length_modify, List.length_take, List.getElem?_drop]
    rcases Nat.lt_or_ge l.length n with hn | hn
    · rw [List.getElem?_eq_none (by omega), List.getElem?_eq_none (by simp; omega)]
    · rw [List.getElem?_modify_ne _ _ (by omega), Nat.min_eq_left hn]
      congr 1
      omega

/-- What the pass does: nothing, or it removes one store that the one at `s` overwrites. -/
theorem dseAt_cases {tr' : Trace} (h : tr.dseAt s = some tr') :
    tr' = tr ∨ ∃ s₁, Overwrites tr.ir s₁ s ∧ tr' = tr.remove s₁ := by
  simp only [Trace.dseAt, Option.bind_eq_bind, Option.bind_eq_some_iff, Option.some.injEq] at h
  obtain ⟨fins, hf, b, hb, rfl⟩ := h
  have hself : { tr with ir := { tr.ir with
      ins := (tr.ir.before s).ins ++ tr.ir.ins.drop (s - REF_BIAS) } } = tr := by
    rw [IrBuf.before, List.take_append_drop]
  rw [IrBuf.tryDse] at hb
  split at hb
  · rename_i hop
    simp only [Option.bind_eq_bind, Option.bind_eq_some_iff] at hb
    obtain ⟨kv', hkv', o, ho, hb⟩ := hb
    cases o with
    | none =>
      obtain rfl : tr.ir.before s = b := Option.some.inj hb
      exact .inl hself
    | some fwd =>
      have hfound := findMatchingStoreFrom_spec ho
      obtain ⟨ins, kv, hi, hop', h1, hkv, hkey, -⟩ := hfound.store
      simp only [Option.bind_eq_some_iff] at hb
      obtain ⟨between, -, hb⟩ := hb
      split at hb
      · obtain rfl : tr.ir.before s = b := Option.some.inj hb
        exact .inl hself
      · obtain rfl : (tr.ir.before s).modify fwd.storeIns .setNop = b := Option.some.inj hb
        have hlo := hfound.lo
        have hlen := hfound.hi
        simp only [IrBuf.before, List.length_take] at hlen
        have hlt : fwd.storeIns < s := by omega
        refine .inr ⟨fwd.storeIns, ⟨hlo, hlt, ins, fins, kv, kv', ir_before hi, hop', hf, hop, h1.symm, ir_before hkv,
          ir_before hkv', hkey.symm⟩, ?_⟩
        simp only [Trace.remove, IrBuf.modify, IrBuf.before]
        rw [take_modify _ _ (by omega)]
  · obtain rfl : tr.ir.before s = b := Option.some.inj hb
    exact .inl hself

theorem remove_ir : (tr.remove s₁).ir = tr.ir.modify s₁ .setNop := rfl

variable (h : Overwrites tr.ir s₁ s)
include h

theorem carg_remove (r : ℕ) : carg (tr.remove s₁).ir r = carg tr.ir r := by
  obtain ⟨ins, -, -, -, hi, hop, -⟩ := h.stores
  rw [carg, carg, remove_ir, IrBuf.ir_modify _ _ _ _ h.lo.le]
  by_cases hr : r = s₁
  · subst hr
    simp [hi, hop, IRIns.setNop, IRIns.new]
  · rw [if_neg hr]

theorem phis_remove (l : ℕ) : (tr.remove s₁).phis l = tr.phis l := by
  obtain ⟨ins, -, -, -, hi, hop, -⟩ := h.stores
  have hfrom : ∀ k, (tr.remove s₁).phisFrom l k = tr.phisFrom l k := by
    intro k
    induction k with
    | zero => rw [Trace.phisFrom, Trace.phisFrom]
    | succ k ih =>
      simp only [Trace.phisFrom, ih, remove_ir, IrBuf.ir_modify _ _ _ _ h.lo.le]
      by_cases hr : REF_BIAS + k = s₁
      · simp [hr, hi, hop, IRIns.setNop, IRIns.new]
      · rw [if_neg hr]
  rw [Trace.phis, Trace.phis, hfrom, remove_ir, IrBuf.ins_modify, List.length_modify]

/-- Away from the removed store the two traces take the same step. -/
theorem step_remove {c : Machine H} (hr : c.r ≠ s₁) : (tr.remove s₁).step R c = tr.step R c := by
  have hk : ∀ r, (tr.ir.modify s₁ .setNop).constBits r = tr.ir.constBits r :=
    fun r => IrBuf.constBits_modify tr.ir s₁ r .setNop
  have heval : evalIns R (tr.ir.modify s₁ .setNop) c = evalIns R tr.ir c := by
    funext ins
    exact evalIns_congr R hk (carg_remove h) c ins
  have hchain := congrFun (IrBuf.chain_modify tr.ir s₁ .setNop) .loop
  have htail : (tr.remove s₁).tail R c = tr.tail R c := Trace.tail_congr hk hchain (phis_remove h) c
  have hexit : ∀ m idx gc, (tr.remove s₁).exitSnapshot R m idx gc = tr.exitSnapshot R m idx gc :=
    Trace.exitSnapshot_congr hk
  have hsnap : (tr.remove s₁).snapFor c.r = tr.snapFor c.r := Trace.snapFor_congr (b := tr.ir.modify s₁ .setNop) c.r
  simp only [Trace.step, remove_ir, IrBuf.nins_modify, IrBuf.ir_modify _ _ _ _ h.lo.le, if_neg hr, heval, htail,
    hexit, hsnap]

end Remove

/-! ### The stale slot -/

section Stale
variable {H : Type} {R : Runtime H} {tr : Trace} {s₁ s : ℕ} {c c' d : Machine H}

/-- The slot that an array store writes. -/
def slotOf (buf : IrBuf) (env : ℕ → LuaValue) (r : ℕ) : Option (ℕ × ℕ) := do
  let ins ← buf.ir r
  let a ← (← readRef buf env ins.op1).asTable
  let kv ← carg buf ins.op2
  let k ← arrayIndex (← readRef buf env kv.1)
  if 0 < k then some (a, k.toNat) else none

/-- The current instruction does not leave the trace. -/
def Stays (R : Runtime H) (buf : IrBuf) (c : Machine H) : Prop :=
  ∀ ins e, buf.ir c.r = some ins → evalIns R buf c ins = some e → e.leave = false

/-- From the removed store on up to the one that overwrites it nothing leaves the trace, and nothing in
between reads the slot. -/
def DseOk (R : Runtime H) (tr : Trace) (s₁ s : ℕ) (c : Machine H) : Prop :=
  s₁ ≤ c.r → c.r ≤ s → Stays R tr.ir c ∧
    (s₁ < c.r → c.r < s → ∀ a i, slotOf tr.ir c.env s₁ = some (a, i) → ¬ Reads R tr.ir c a i)

/-- Between the two stores the optimized run differs in the slot. -/
def Stale (buf : IrBuf) (s₁ s : ℕ) (c c' : Machine H) : Prop :=
  s₁ < c.r ∧ c.r ≤ s ∧ ∃ a i v, slotOf buf c.env s₁ = some (a, i) ∧ (c.world.tables a).isSome ∧ c' = c.withSlot a i v

/-- The slot is determined by operands below the store. -/
theorem slotOf_congr (hs : tr.ir.SSA) (hlo : REF_BIAS ≤ s₁) {env env' : ℕ → LuaValue} (he : ∀ r < s₁, env' r = env r) :
    slotOf tr.ir env' s₁ = slotOf tr.ir env s₁ := by
  rw [slotOf, slotOf]
  cases hi : tr.ir.ir s₁ with
  | none => rfl
  | some ins =>
    have hb := ssa_ir hs hlo hi
    have hread : ∀ r < s₁, readRef tr.ir env' r = readRef tr.ir env r := by
      intro r hr
      rw [readRef, readRef, he r hr]
    simp only [Option.bind_eq_bind, Option.bind_some, hread _ hb.1]
    cases hkv : carg tr.ir ins.op2 with
    | none => rfl
    | some kv =>
      have hbk := ssa_carg hs hkv
      simp only [Option.bind_some, hread kv.1 (by omega)]

/-- An array store that stays on the trace. -/
theorem astore_eq {buf : IrBuf} {ins : IRIns} {e : Effect H} (hop : ins.op = .astore)
    (he : evalIns R buf c ins = some e) (hl : e.leave = false) :
    ∃ a t k kv x, readRef buf c.env ins.op1 = some (.tab a) ∧ carg buf ins.op2 = some kv ∧
      (readRef buf c.env kv.1).bind arrayIndex = some k ∧ readRef buf c.env kv.2 = some x ∧
      c.world.tables a = some t ∧ 0 < k ∧ k.toNat < t.asize ∧ k.toNat < t.array.length ∧
      e = .skip (c.world.setTable a { t with array := t.array.set k.toNat x }) := by
  simp only [evalIns, hop, Option.bind_eq_bind, Option.bind_eq_some_iff] at he
  obtain ⟨kv, hkv, tv, htv, key, hkey, x, hx, he⟩ := he
  obtain ⟨a, t, k, rfl, ht, hk, hpos, hlt, hlen, rfl⟩ := evalAstore_eq he hl
  exact ⟨a, t, k, kv, x, htv, hkv, by rw [hkey]; exact hk, hx, ht, hpos, hlt, hlen, rfl⟩

variable (h : Overwrites tr.ir s₁ s)
include h

/-- At the removed store the optimized run skips the write: its slot is stale. -/
theorem stale_start (hr : c.r = s₁) (hstep : tr.step R c = some (.run d)) :
    ∃ d', (tr.remove s₁).step R c = some (.run d') ∧ Stale tr.ir s₁ s d d' := by
  obtain ⟨ins, -, -, -, hi, hop, -⟩ := h.stores
  have hlt := lt_nins h.lo.le hi
  obtain ⟨ins', e, hi', he, hl, rfl⟩ := step_run (by rw [hr]; exact hlt) hstep
  obtain rfl : ins = ins' := by rwa [hr, hi, Option.some.injEq] at hi'
  obtain ⟨a, t, k, kv, x, htab, hkv, hk, hx, ht, hpos, hlt', hlen, rfl⟩ := astore_eq hop he hl
  have hi₁ : (tr.remove s₁).ir.ir c.r = some (ins.setNop) := by
    rw [remove_ir, IrBuf.ir_modify _ _ _ _ h.lo.le, if_pos hr, hr, hi]
    rfl
  refine ⟨commit c (.skip c.world), ?_, ?_, ?_, a, k.toNat, t.array.get ⟨k.toNat, hlen⟩, ?_, ?_, ?_⟩
  · exact step_of_eval (by rw [remove_ir, IrBuf.nins_modify, hr]; exact hlt) hi₁ rfl rfl
  · rw [commit, hr]
    exact Nat.lt_succ_self _
  · rw [commit, hr]
    exact h.lt
  · obtain ⟨key, hkey, hki⟩ := Option.bind_eq_some_iff.mp hk
    simp [slotOf, hi, commit, Effect.skip, htab, LuaValue.asTable, hkv, hkey, hki, hpos]
  · simp [commit, Effect.skip, World.setTable]
  · have hworld : (c.world.setTable a { t with array := t.array.set k.toNat x }).withSlot a k.toNat
        (t.array.get ⟨k.toNat, hlen⟩) = c.world := by
      have hself : LuaTable.withSlot { t with array := t.array.set k.toNat x } k.toNat (t.array.get ⟨k.toNat, hlen⟩) = t := by
        simp [LuaTable.withSlot]
      rw [setTable_withSlot_self, hself, World.setTable, ← ht, Function.update_eq_self]
    rw [Machine.withSlot]
    simp only [commit, Effect.skip, hworld]

/-- Between the two stores the runs differ in the slot alone. -/
theorem stale_step (hs : tr.ir.SSA) (hst : Stale tr.ir s₁ s c c') (hlt : c.r < s) (hok : DseOk R tr s₁ s c)
    (hstep : tr.step R c = some (.run d)) :
    ∃ d', (tr.remove s₁).step R c' = some (.run d') ∧ Stale tr.ir s₁ s d d' := by
  obtain ⟨hlo, hhi, a, i, v, hslot, ha, rfl⟩ := hst
  obtain ⟨-, fins, -, -, -, -, hfi, -⟩ := h.stores
  have hn : c.r < tr.ir.nins := hlt.trans (lt_nins (h.lo.trans h.lt).le hfi)
  obtain ⟨ins, e, hi, he, hl, rfl⟩ := step_run hn hstep
  have hr := (hok hlo.le hhi).2 hlo hlt a i hslot
  obtain ⟨v', he'⟩ := evalIns_withSlot (v := v) ha hi hr hl he
  have hnext : Next R tr.ir c (commit c e) := ⟨hn, ins, e, hi, he, hl, rfl⟩
  refine ⟨(commit c e).withSlot a i v', ?_, ?_, hlt, a, i, v', ?_, hnext.exists_table ha, rfl⟩
  · have hne : (c.withSlot a i v).r ≠ s₁ := hlo.ne'
    rw [step_remove h hne]
    exact step_of_eval (c := c.withSlot a i v) hn hi he' hl
  · exact hlo.trans (Nat.lt_succ_self _)
  · rw [← hslot]
    exact slotOf_congr hs h.lo.le fun r hr => commit_env_ne e (by omega)

omit h in
theorem carg_eq {buf : IrBuf} {r : ℕ} {kv : ℕ × ℕ} {ins : IRIns} (hi : buf.ir r = some ins)
    (hkv : carg buf r = some kv) : kv = (ins.op1, ins.op2) := by
  rw [carg, hi, Option.bind_eq_bind, Option.bind_some] at hkv
  split at hkv
  · exact (Option.some.inj hkv).symm
  · cases hkv

/-- The overwriting store writes the stale slot. -/
theorem slotOf_end {a i : ℕ} {env : ℕ → LuaValue} {fins : IRIns} {b : ℕ} {k : ℤ} {kv : ℕ × ℕ}
    (hslot : slotOf tr.ir env s₁ = some (a, i)) (hf : tr.ir.ir s = some fins)
    (htab : readRef tr.ir env fins.op1 = some (.tab b)) (hkv : carg tr.ir fins.op2 = some kv)
    (hk : (readRef tr.ir env kv.1).bind arrayIndex = some k) : b = a ∧ k.toNat = i := by
  obtain ⟨ins, fins', j, j', hi, -, hfi, -, h1, hj, hj', hkey⟩ := h.stores
  obtain rfl : fins' = fins := by rwa [hf, Option.some.injEq, eq_comm] at hfi
  simp only [slotOf, hi, Option.bind_eq_bind, Option.bind_some, Option.bind_eq_some_iff] at hslot
  obtain ⟨tv, htv, a', ha', jv, hjv, kv₁, hkv₁, k', hk', hslot⟩ := hslot
  rw [h1, htv, Option.some.injEq] at htab
  subst htab
  obtain rfl : b = a' := Option.some.inj ha'
  rw [carg_eq hj' hkv, hkey, ← show jv.1 = j.op1 by rw [carg_eq hj hjv], hkv₁, Option.bind_some, hk',
    Option.some.injEq] at hk
  subst hk
  split at hslot
  · cases hslot
    exact ⟨rfl, rfl⟩
  · cases hslot

/-- The overwriting store makes the two runs equal again. -/
theorem stale_end (hst : Stale tr.ir s₁ s c c') (hr : c.r = s)
    (hstep : tr.step R c = some (.run d)) : (tr.remove s₁).step R c' = some (.run d) := by
  obtain ⟨hlo, hhi, a, i, v, hslot, ha, rfl⟩ := hst
  obtain ⟨-, fins, -, -, -, -, hfi, hop', -⟩ := h.stores
  have hn : c.r < tr.ir.nins := by rw [hr]; exact lt_nins (h.lo.trans h.lt).le hfi
  obtain ⟨fins', e, hfi', he, hl, rfl⟩ := step_run hn hstep
  obtain rfl : fins = fins' := by rwa [hr, hfi, Option.some.injEq] at hfi'
  obtain ⟨b, t, k, kv, x, htab, hcarg, hk, hx, ht, hpos, hlt, hlen, rfl⟩ := astore_eq hop' he hl
  obtain ⟨rfl, rfl⟩ := slotOf_end h hslot hfi htab hcarg hk
  obtain ⟨key, hkey, hki⟩ := Option.bind_eq_some_iff.mp hk
  have hself := withSlot_tables_self c.world b k.toNat v ht
  have hstore := evalAstore_stays (m := c.withSlot b k.toNat v) (v := x) hself hki hpos hlt
    (by simpa [LuaTable.withSlot] using hlen)
  have heval : evalIns R tr.ir (c.withSlot b k.toNat v) fins =
      some (.skip (c.world.setTable b { t with array := t.array.set k.toNat x })) := by
    simp only [evalIns, hop', Machine.withSlot, hcarg, htab, hkey, hx, Option.bind_eq_bind, Option.bind_some]
    refine hstore.trans ?_
    simp only [Machine.withSlot, LuaTable.withSlot, List.set_set, withSlot_setTable_self]
  have hne : (c.withSlot b k.toNat v).r ≠ s₁ := hlo.ne'
  rw [step_remove h hne]
  exact step_of_eval (c := c.withSlot b k.toNat v) hn (by rw [← hfi, ← hr]; rfl) heval rfl

/-- A step of the trace and the step of the optimized one. -/
theorem stale_or_eq_step (hs : tr.ir.SSA) (hst : c' = c ∨ Stale tr.ir s₁ s c c') (hok : DseOk R tr s₁ s c)
    (hstep : tr.step R c = some (.run d)) :
    ∃ d', (tr.remove s₁).step R c' = some (.run d') ∧ (d' = d ∨ Stale tr.ir s₁ s d d') := by
  rcases hst with rfl | hst
  · by_cases hr : c'.r = s₁
    · obtain ⟨d', hd', hst'⟩ := stale_start h hr hstep
      exact ⟨d', hd', .inr hst'⟩
    · exact ⟨d, by rw [step_remove h hr, hstep], .inl rfl⟩
  · rcases Nat.lt_or_ge c.r s with hlt | hge
    · obtain ⟨d', hd', hst'⟩ := stale_step h hs hst hlt hok hstep
      exact ⟨d', hd', .inr hst'⟩
    · exact ⟨d, stale_end h hst (le_antisymm hst.2.1 hge) hstep, .inl rfl⟩

/-- Where the trace is left, nothing is stale. -/
theorem not_stale_exit {x : ℕ} {g : Bool} (hst : c' = c ∨ Stale tr.ir s₁ s c c') (hok : DseOk R tr s₁ s c)
    (hstep : tr.step R c = some (.exit x g d)) : (tr.remove s₁).step R c' = some (.exit x g d) := by
  obtain ⟨-, fins, -, -, -, -, hfi, -⟩ := h.stores
  have hin : s₁ ≤ c.r → c.r ≤ s → False := by
    intro hlo hhi
    have hn : c.r < tr.ir.nins := hhi.trans_lt (lt_nins (h.lo.trans h.lt).le hfi)
    rw [Trace.step, if_pos hn] at hstep
    simp only [Option.bind_eq_bind, Option.bind_eq_some_iff] at hstep
    obtain ⟨ins, hi, e, he, hstep⟩ := hstep
    rw [if_neg (by simp [(hok hlo hhi).1 ins e hi he])] at hstep
    cases hstep
  rcases hst with rfl | hst
  · have hr : c'.r ≠ s₁ := by
      intro hr
      exact hin hr.ge (hr.le.trans h.lt.le)
    rw [step_remove h hr, hstep]
  · exact absurd (hin hst.1.le hst.2.1) not_false

end Stale

/-! ### Runs -/

section Runs
variable {H : Type} {R : Runtime H} {tr tr' : Trace} {s : ℕ} {m c : Machine H}

/-- The condition, for the store that the pass has removed. -/
def DseCond (R : Runtime H) (tr tr' : Trace) (s : ℕ) (c : Machine H) : Prop :=
  ∀ s₁, tr'.ir.ir s₁ ≠ tr.ir.ir s₁ → DseOk R tr s₁ s c

/-- A run of the trace all of whose steps meet the condition. -/
def DseRuns (R : Runtime H) (tr tr' : Trace) (s : ℕ) : Machine H → Machine H → Prop :=
  Relation.ReflTransGen fun c d => DseCond R tr tr' s c ∧ tr.step R c = some (.run d)

theorem removed_ne {s₁ : ℕ} (h : Overwrites tr.ir s₁ s) : (tr.remove s₁).ir.ir s₁ ≠ tr.ir.ir s₁ := by
  obtain ⟨ins, -, -, -, hi, hop, -⟩ := h.stores
  rw [remove_ir, IrBuf.ir_modify _ _ _ _ h.lo.le, if_pos rfl, hi]
  intro heq
  have := congrArg IRIns.op (Option.some.inj heq)
  rw [hop] at this
  cases this

theorem dseRuns_remove {s₁ : ℕ} (h : Overwrites tr.ir s₁ s) (hs : tr.ir.SSA)
    (hr : DseRuns R tr (tr.remove s₁) s m c) :
    ∃ c', (tr.remove s₁).Runs R m c' ∧ (c' = c ∨ Stale tr.ir s₁ s c c') := by
  induction hr with
  | refl => exact ⟨m, .refl, .inl rfl⟩
  | tail _ hstep ih =>
    obtain ⟨b', hb', hst⟩ := ih
    obtain ⟨d', hd', hst'⟩ := stale_or_eq_step h hs hst (hstep.1 s₁ (removed_ne h)) hstep.2
    exact ⟨d', hb'.tail hd', hst'⟩

theorem dseRuns_runs (hr : DseRuns R tr tr' s m c) : tr.Runs R m c := by
  induction hr with
  | refl => exact .refl
  | tail _ hstep ih => exact ih.tail hstep.2

/-- When no exit and no read separates the two stores, the optimized trace leaves the heap that the trace
leaves, through the same exit. -/
theorem dseAt_sound (hs : tr.ir.SSA) (hd : tr.dseAt s = some tr') (hr : DseRuns R tr tr' s m c)
    (hc : DseCond R tr tr' s c) {x : ℕ} {g : Bool} {m' : Machine H} (hx : tr.step R c = some (.exit x g m')) :
    ∀ x' g' w, tr'.Exits R m x' g' w ↔ x' = x ∧ g' = g ∧ w = m' := by
  have hexit : tr'.Exits R m x g m' := by
    rcases dseAt_cases hd with rfl | ⟨s₁, h, rfl⟩
    · exact ⟨c, dseRuns_runs hr, hx⟩
    · obtain ⟨c', hc', hst⟩ := dseRuns_remove h hs hr
      exact ⟨c', hc', not_stale_exit h hst (hc s₁ (removed_ne h)) hx⟩
  intro x' g' w
  constructor
  · exact fun h => h.unique R tr' hexit
  · rintro ⟨rfl, rfl, rfl⟩
    exact hexit

/-- The instructions that can read a table slot. -/
def readsTables (op : IROp) : Bool :=
  op = .aload || op = .hload || op = .hstore || op = .tdup || op = .calll || op = .gcstep

theorem not_reads {buf : IrBuf} {a i : ℕ} (hq : ∀ ins, buf.ir c.r = some ins → readsTables ins.op = false) :
    ¬ Reads R buf c a i := by
  rintro ⟨⟨op, t, op1, op2, prev⟩, hi, h⟩
  have := hq _ hi
  cases op <;> first | exact h | cases this

/-- Straight-line execution past instructions that do not read tables meets the condition. -/
theorem dseRuns_of_straight (hq : ∀ s₁ r ins, tr'.ir.ir s₁ ≠ tr.ir.ir s₁ → s₁ < r → r < s → tr.ir.ir r = some ins →
    readsTables ins.op = false) (h : Straight R tr.ir m c) : DseRuns R tr tr' s m c := by
  induction h with
  | refl => exact .refl
  | @tail b d _ hn ih =>
    refine ih.tail ⟨?_, ?_⟩
    · intro s₁ hs₁ _ _
      refine ⟨?_, fun hlo hhi a i _ => not_reads fun ins hi => hq s₁ b.r ins hs₁ hlo hhi hi⟩
      intro ins e hi he
      obtain ⟨-, ins', e', hi', he', hl, -⟩ := hn
      rw [hi, Option.some.injEq] at hi'
      subst hi'
      rw [he, Option.some.injEq] at he'
      rw [he', hl]
    · exact hn.step

end Runs

section Example

/-- `t[1] = 10`, a guarded load of stack slot 3, then `t[1] = 20`. -/
def storeTwice : Trace where
  traceno := 1
  ir :=
    let (buf, one) := (IrBuf.new 0 0).knum (.ofInt 1)
    let (buf, ten) := buf.knum (.ofInt 10)
    let (buf, twenty) := buf.knum (.ofInt 20)
    let (buf, t) := buf.emitIns (.new .sload (guarded .tab) 2 0)
    let (buf, kv) := buf.emitIns (.new .carg (plain .nil) one ten)
    let (buf, _) := buf.emitIns (.new .astore (plain .nil) t kv)
    let (buf, _) := buf.emitIns (.new .sload (guarded .num) 3 0)
    let (buf, kv) := buf.emitIns (.new .carg (plain .nil) one twenty)
    (buf.emitIns (.new .astore (plain .nil) t kv)).1
  snap := [⟨0, REF_FIRST, 0, 2, 2, 0⟩]
  snapmap := []
  linktype := .none
  link := 0

/-- The entry with an empty table in slot 2 and `v` in the others. -/
def entryStore (v : LuaValue) : Machine Unit where
  r := REF_FIRST
  env _ := .num .zero
  world := ⟨fun s => if s = 2 then .tab 0 else v, fun _ => (LuaTable.new 4 0).toOption, ()⟩
  cbase := 2
  clock := 0

/-- What is left in `t[1]` by the exit that `n` instructions lead to. -/
def leftInSlot (tr : Trace) (m : Machine Unit) (n : ℕ) : Option LuaValue :=
  (advance .bare tr.ir n m).bind fun c => (tr.step .bare c).bind fun
    | .exit _ _ m' => content m'.world (.slot 0 1)
    | .run _ => none

theorem leftInSlot_exits {tr : Trace} {m : Machine Unit} {n : ℕ} {v : LuaValue} (h : leftInSlot tr m n = some v) :
    ∃ x g m', tr.Exits .bare m x g m' ∧ content m'.world (.slot 0 1) = some v := by
  simp only [leftInSlot, Option.bind_eq_some_iff] at h
  obtain ⟨c, hc, r, hr, h⟩ := h
  cases r with
  | exit x g m' => exact ⟨x, g, m', ⟨c, (advance_straight hc).runs, hr⟩, h⟩
  | run _ => cases h

theorem storeTwice_dse : storeTwice.dseAt (REF_FIRST + 5) = some (storeTwice.remove (REF_FIRST + 2)) := rfl

/-- A guard between the two stores leaves with the first store missing. -/
theorem dse_exit_loses_store : ∃ tr', storeTwice.dseAt (REF_FIRST + 5) = some tr' ∧
    (∃ x g m', storeTwice.Exits .bare (entryStore .nil) x g m' ∧ content m'.world (.slot 0 1) = some (.num (.ofInt 10))) ∧
    ∃ x g m', tr'.Exits .bare (entryStore .nil) x g m' ∧ content m'.world (.slot 0 1) = some .nil := by
  refine ⟨storeTwice.remove (REF_FIRST + 2), storeTwice_dse, ?_, ?_⟩
  · exact leftInSlot_exits (n := 3) (by decide)
  · exact leftInSlot_exits (n := 3) (by decide)

/-- With a number in slot 3 the run stays on the trace up to its end. -/
theorem dseAt_sound_number : ∃ x g m', storeTwice.Exits .bare (entryStore (.num .zero)) x g m' ∧
    (storeTwice.remove (REF_FIRST + 2)).Exits .bare (entryStore (.num .zero)) x g m' := by
  have hleft : leftInSlot storeTwice (entryStore (.num .zero)) 6 = some (.num (.ofInt 20)) := by decide
  simp only [leftInSlot, Option.bind_eq_some_iff] at hleft
  obtain ⟨c, hc, r, hr, hleft⟩ := hleft
  have hrun := advance_straight hc
  cases r with
  | run _ => cases hleft
  | exit x g m' =>
    refine ⟨x, g, m', ⟨c, hrun.runs, hr⟩, ?_⟩
    refine (dseAt_sound ⟨by decide, by decide⟩ storeTwice_dse (dseRuns_of_straight ?_ hrun) ?_ hr x g m').mpr
      ⟨rfl, rfl, rfl⟩
    · intro s₁ q ins hne hlo hhi hi
      obtain rfl : s₁ = REF_FIRST + 2 := by
        by_contra hs
        exact hne (by rw [remove_ir, IrBuf.ir_modify _ _ _ _ (by decide), if_neg hs])
      have hq : q = REF_FIRST + 3 ∨ q = REF_FIRST + 4 := by omega
      rcases hq with rfl | rfl
      · obtain rfl : (⟨.sload, guarded .num, 3, 0, REF_FIRST⟩ : IRIns) = ins := Option.some.inj hi
        rfl
      · obtain rfl : (⟨.carg, plain .nil, REF_BIAS - 4, REF_BIAS - 6, REF_FIRST + 1⟩ : IRIns) = ins := Option.some.inj hi
        rfl
    · intro s₁ _ _ hhi
      rw [advance_r hc] at hhi
      exact absurd hhi (by decide)

end Example
end LuajitRs.Ir
