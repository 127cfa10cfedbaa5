import LuajitRs.Jit.Opt.Sink.Rewrite

/-! Execution with other operands and without some tables. An instruction that goes through none of the
tables at `A` does the same in a world that lacks them; the rest of the runtime may differ by what the
helpers cannot see. -/
namespace LuajitRs.Ir

section Alike
variable {H : Type}

/-- The second world lacks the tables at `A`, and its rest is related by `G`. -/
structure Alike (G : H → H → Prop) (A : List ℕ) (w w' : World H) : Prop where
  stack : w'.stack = w.stack
  tables : w'.tables = fun a => if a ∈ A then none else w.tables a
  rest : G w.rest w'.rest

/-- The helpers of the runtime do not tell related rests apart. -/
structure Runtime.Blind (R : Runtime H) (G : H → H → Prop) : Prop where
  upval : ∀ h h' v, G h h' → R.upval h' v = R.upval h v
  cnew : ∀ h h' p u, G h h' → (R.cnew p u h').2 = (R.cnew p u h).2 ∧ G (R.cnew p u h).1 (R.cnew p u h').1
  bufStart : ∀ h h' v, G h h' → G (R.bufStart v h) (R.bufStart v h')
  bufAppend : ∀ h h' v, G h h' → G (R.bufAppend v h) (R.bufAppend v h')
  bufStr : ∀ h h', G h h' → (R.bufStr h').2 = (R.bufStr h).2 ∧ G (R.bufStr h).1 (R.bufStr h').1

theorem Runtime.blind_eq (R : Runtime H) : R.Blind Eq := by
  refine ⟨?_, ?_, ?_, ?_, ?_⟩
  · rintro h _ v rfl; rfl
  · rintro h _ p u rfl; exact ⟨rfl, rfl⟩
  · rintro h _ v rfl; rfl
  · rintro h _ v rfl; rfl
  · rintro h _ rfl; exact ⟨rfl, rfl⟩

variable {R : Runtime H} {G : H → H → Prop} {A : List ℕ} {w w' : World H}

theorem Alike.table (h : Alike G A w w') {tv : LuaValue} (hne : ∀ a ∈ A, tv ≠ .tab a) : w'.table tv = w.table tv := by
  cases tv with
  | tab b =>
    have hb : b ∉ A := fun hb => hne b hb rfl
    simp only [World.table, LuaValue.asTable, Option.bind_eq_bind, Option.bind_some, h.tables, if_neg hb]
  | _ => rfl

theorem Alike.setTable (h : Alike G A w w') {b : ℕ} (hb : b ∉ A) (t : LuaTable) :
    Alike G A (w.setTable b t) (w'.setTable b t) := by
  refine ⟨h.stack, ?_, h.rest⟩
  funext a
  simp only [World.setTable, h.tables]
  by_cases hab : a = b
  · subst hab
    rw [Function.update_self, Function.update_self, if_neg hb]
  · rw [Function.update_of_ne hab, Function.update_of_ne hab]

theorem Alike.withRest (h : Alike G A w w') {r r' : H} (hr : G r r') :
    Alike G A { w with rest := r } { w' with rest := r' } :=
  ⟨h.stack, h.tables, hr⟩

/-- One more table to leave out, at an address that the second world does not use. -/
theorem Alike.sink (h : Alike G A w w') {b : ℕ} (hb : w.tables b = none) (t : LuaTable) :
    Alike G (b :: A) (w.setTable b t) w' := by
  refine ⟨h.stack, ?_, h.rest⟩
  funext a
  simp only [World.setTable, h.tables, List.mem_cons]
  by_cases hab : a = b
  · subst hab
    simp [hb]
  · rw [Function.update_of_ne hab]
    simp [hab]

theorem alloc_eq {b : ℕ} {t : LuaTable} {w₁ : World H} (h : w.alloc b t = some w₁) :
    w.tables b = none ∧ w₁ = w.setTable b t := by
  rw [World.alloc] at h
  split at h
  · rename_i hnone
    exact ⟨Option.isNone_iff_eq_none.mp hnone, (Option.some.inj h).symm⟩
  · cases h

theorem Alike.alloc (h : Alike G A w w') (hA : ∀ a ∈ A, (w.tables a).isSome) {b : ℕ} {t : LuaTable} {w₁ : World H}
    (ha : w.alloc b t = some w₁) : b ∉ A ∧ w'.alloc b t = some (w'.setTable b t) ∧ w₁ = w.setTable b t := by
  obtain ⟨hnone, rfl⟩ := alloc_eq ha
  have hb : b ∉ A := by
    intro hb
    have := hA b hb
    rw [hnone] at this
    cases this
  refine ⟨hb, ?_, rfl⟩
  rw [World.alloc, h.tables]
  simp [hb, hnone]

/-- Two effects that agree but for the world, and leave the tables at `A` alone. -/
structure AlikeEffect (G : H → H → Prop) (A : List ℕ) (w : World H) (e e' : Effect H) : Prop where
  val : e'.val = e.val
  leave : e'.leave = e.leave
  gc : e'.gc = e.gc
  world : Alike G A e.world e'.world
  kept : ∀ a ∈ A, e.world.tables a = w.tables a

theorem setTable_kept {b : ℕ} (hb : b ∉ A) (t : LuaTable) : ∀ a ∈ A, (w.setTable b t).tables a = w.tables a := by
  intro a ha
  have hab : a ≠ b := by
    rintro rfl
    exact hb ha
  exact Function.update_of_ne hab _ _

end Alike

/-! ### Instructions that do not go through the missing tables -/

section Avoids
variable {H : Type} (R : Runtime H) (G : H → H → Prop) (buf : IrBuf) (A : List ℕ) (m : Machine H)

/-- What the current instruction does does not depend on the tables at `A`. -/
def Avoids : Prop :=
  ∀ ins, buf.ir m.r = some ins →
    match ins.op with
    | .aload | .hload | .fload | .astore | .hstore | .fstore => ∀ a ∈ A, readRef buf m.env ins.op1 ≠ some (.tab a)
    | .tdup => ∀ a ∈ A, (readRef buf m.env ins.op1).map LuaValue.toBits ≠ some a
    | .calll => ∀ args w', callArgs buf m ins.op2 ins.op1 = some args → Alike G A m.world w' →
        (R.call ins.op2 args w').2 = (R.call ins.op2 args m.world).2 ∧
        G (R.call ins.op2 args m.world).1 (R.call ins.op2 args w').1
    | .gcstep => ∀ w', Alike G A m.world w' → R.shouldCollect w' = R.shouldCollect m.world
    | _ => True

variable {R G buf A m} {w' : World H} {ins : IRIns} {e : Effect H}

/-- An effect that does not look at the tables. -/
theorem AlikeEffect.of_rest {v : Option LuaValue} {l g : Bool} (hw : Alike G A m.world w') {r r' : H} (hr : G r r') :
    AlikeEffect G A m.world ⟨v, { m.world with rest := r }, l, g⟩ ⟨v, { w' with rest := r' }, l, g⟩ :=
  ⟨rfl, rfl, rfl, hw.withRest hr, fun _ _ => rfl⟩

theorem AlikeEffect.same {v : Option LuaValue} {l g : Bool} (hw : Alike G A m.world w') :
    AlikeEffect G A m.world ⟨v, m.world, l, g⟩ ⟨v, w', l, g⟩ :=
  ⟨rfl, rfl, rfl, hw, fun _ _ => rfl⟩

theorem AlikeEffect.store (hw : Alike G A m.world w') {b : ℕ} (hb : b ∉ A) (t : LuaTable) {v : Option LuaValue}
    {l g : Bool} : AlikeEffect G A m.world ⟨v, m.world.setTable b t, l, g⟩ ⟨v, w'.setTable b t, l, g⟩ :=
  ⟨rfl, rfl, rfl, hw.setTable hb t, setTable_kept hb t⟩

theorem table_notMem {w : World H} {tv : LuaValue} {p : ℕ × LuaTable} (hne : ∀ a ∈ A, tv ≠ .tab a)
    (hp : w.table tv = some p) : p.1 ∉ A :=
  fun hmem => hne p.1 hmem (table_eq_some hp).1

/-- The effect of one evaluation has a counterpart in the other world. -/
def Counterpart (G : H → H → Prop) (A : List ℕ) (w : World H) (e : Effect H) (o : Option (Effect H)) : Prop :=
  ∃ e', o = some e' ∧ AlikeEffect G A w e e'

theorem aload_alike (hw : Alike G A m.world w') {tv kv : LuaValue} {t : IRTy} (hne : ∀ a ∈ A, tv ≠ .tab a)
    (h : evalAload m tv kv t = some e) : Counterpart G A m.world e (evalAload { m with world := w' } tv kv t) := by
  simp only [evalAload, hw.table hne, Option.bind_eq_bind, Option.bind_eq_some_iff] at h ⊢
  obtain ⟨p, hp, h⟩ := h
  rw [hp, Option.bind_some]
  split at h
  · split at h
    · rename_i hlt
      simp only [Option.bind_eq_some_iff, Option.pure_def, Option.some.injEq] at h
      obtain ⟨v, hv, rfl⟩ := h
      simp only [if_pos hlt, hv]
      exact ⟨_, rfl, .same hw⟩
    · rename_i hlt
      cases h
      simp only [if_neg hlt]
      exact ⟨_, rfl, .same hw⟩
  · cases h
    exact ⟨_, rfl, .same hw⟩

theorem astore_alike (hw : Alike G A m.world w') {tv kv v : LuaValue} (hne : ∀ a ∈ A, tv ≠ .tab a)
    (h : evalAstore m tv kv v = some e) : Counterpart G A m.world e (evalAstore { m with world := w' } tv kv v) := by
  simp only [evalAstore, hw.table hne, Option.bind_eq_bind, Option.bind_eq_some_iff] at h ⊢
  obtain ⟨p, hp, h⟩ := h
  rw [hp, Option.bind_some]
  split at h
  · split at h
    · rename_i hlt
      simp only [Option.bind_eq_some_iff, Option.pure_def, Option.some.injEq] at h
      obtain ⟨t, ht, rfl⟩ := h
      simp only [if_pos hlt, ht]
      exact ⟨_, rfl, .store hw (table_notMem hne hp) t⟩
    · rename_i hlt
      cases h
      simp only [if_neg hlt]
      exact ⟨_, rfl, .same hw⟩
  · cases h
    exact ⟨_, rfl, .same hw⟩

theorem fload_alike (hw : Alike G A m.world w') {tv : LuaValue} {t : IRTy} (hne : ∀ a ∈ A, tv ≠ .tab a)
    (h : evalFload m tv t = some e) : Counterpart G A m.world e (evalFload { m with world := w' } tv t) := by
  simp only [evalFload, hw.table hne, Option.bind_eq_bind, Option.bind_eq_some_iff] at h ⊢
  obtain ⟨p, hp, h⟩ := h
  rw [hp, Option.bind_some]
  split at h
  · rename_i hty
    cases h
    simp only [if_pos hty]
    exact ⟨_, rfl, .same hw⟩
  · rename_i hty
    cases h
    simp only [if_neg hty]
    exact ⟨_, rfl, .same hw⟩

theorem fstore_alike (hw : Alike G A m.world w') {tv : LuaValue} {mv : Option LuaValue} (hne : ∀ a ∈ A, tv ≠ .tab a)
    (h : evalFstore m tv mv = some e) : Counterpart G A m.world e (evalFstore { m with world := w' } tv mv) := by
  simp only [evalFstore, hw.table hne, Option.bind_eq_bind, Option.bind_eq_some_iff] at h ⊢
  obtain ⟨p, hp, h⟩ := h
  rw [hp, Option.bind_some]
  cases mv with
  | none =>
    cases h
    exact ⟨_, rfl, .store hw (table_notMem hne hp) _⟩
  | some v =>
    simp only [Option.bind_eq_some_iff, Option.pure_def, Option.some.injEq] at h
    obtain ⟨b, hb, rfl⟩ := h
    simp only [hb, Option.bind_some]
    exact ⟨_, rfl, .store hw (table_notMem hne hp) _⟩

theorem hload_alike (hw : Alike G A m.world w') {tv kv : LuaValue} (hne : ∀ a ∈ A, tv ≠ .tab a)
    (h : evalHload R m tv kv ins = some e) : Counterpart G A m.world e (evalHload R { m with world := w' } tv kv ins) := by
  simp only [evalHload, hw.table hne, Option.bind_eq_bind, Option.bind_eq_some_iff, Option.pure_def,
    Option.some.injEq] at h ⊢
  obtain ⟨p, hp, v, hv, rfl⟩ := h
  rw [hp, Option.bind_some, hv, Option.bind_some]
  exact ⟨_, rfl, .same hw⟩

theorem hstore_alike (hw : Alike G A m.world w') {tv kv v : LuaValue} (hne : ∀ a ∈ A, tv ≠ .tab a)
    (h : evalHstore R m tv kv v = some e) : Counterpart G A m.world e (evalHstore R { m with world := w' } tv kv v) := by
  simp only [evalHstore, hw.table hne, Option.bind_eq_bind, Option.bind_eq_some_iff, Option.pure_def,
    Option.some.injEq] at h ⊢
  obtain ⟨p, hp, t, ht, rfl⟩ := h
  rw [hp, Option.bind_some, ht, Option.bind_some]
  exact ⟨_, rfl, .store hw (table_notMem hne hp) t⟩

theorem buf_alike (hR : R.Blind G) (hw : Alike G A m.world w') (start : Bool) (v : LuaValue) :
    AlikeEffect G A m.world (evalBuf R m start v) (evalBuf R { m with world := w' } start v) := by
  simp only [evalBuf]
  split
  · exact .same hw
  · split
    · cases start
      · exact .of_rest hw (hR.bufAppend _ _ v hw.rest)
      · exact .of_rest hw (hR.bufStart _ _ v hw.rest)
    · exact .same hw

theorem conv_alike (hw : Alike G A m.world w') (v : LuaValue) :
    AlikeEffect G A m.world (evalConv m v ins) (evalConv { m with world := w' } v ins) := by
  simp only [evalConv]
  split
  · exact .same hw
  · split
    · split <;> exact .same hw
    · exact .same hw

/-- An instruction that avoids the tables at `A` does the same without them. -/
theorem evalIns_alike (hR : R.Blind G) (hA : ∀ a ∈ A, (m.world.tables a).isSome) (hw : Alike G A m.world w')
    (hi : buf.ir m.r = some ins) (ha : Avoids R G buf A m) (h : evalIns R buf m ins = some e) :
    Counterpart G A m.world e (evalIns R buf { m with world := w' } ins) := by
  have hav := ha ins hi
  rcases ins with ⟨op, t, op1, op2, prev⟩
  -- A table operand is none of those at `A`.
  have hne : ∀ {tv}, readRef buf m.env op1 = some tv → (∀ a ∈ A, readRef buf m.env op1 ≠ some (.tab a)) →
      ∀ a ∈ A, tv ≠ .tab a := by
    rintro tv htv hav a hmem rfl
    exact hav a hmem htv
  cases op
  all_goals first | (cases h; done) | skip
  all_goals
    simp only [evalIns, Option.bind_eq_bind, Option.bind_eq_some_iff, Option.pure_def, Option.some.injEq] at h
  case uload =>
    obtain ⟨c, hc, rfl⟩ := h
    simp only [evalIns, hc, Option.bind_eq_bind, Option.bind_some, Option.pure_def, hR.upval _ _ c hw.rest]
    exact ⟨_, rfl, .same hw⟩
  case sload =>
    cases h
    simp only [evalIns, hw.stack, Option.pure_def]
    exact ⟨_, rfl, .same hw⟩
  case aload =>
    obtain ⟨tv, htv, kv, hkv, h⟩ := h
    simp only [evalIns, htv, hkv, Option.bind_eq_bind, Option.bind_some]
    exact aload_alike hw (hne htv hav) h
  case hload =>
    obtain ⟨tv, htv, kv, hkv, h⟩ := h
    simp only [evalIns, htv, hkv, Option.bind_eq_bind, Option.bind_some]
    exact hload_alike hw (hne htv hav) h
  case fload =>
    obtain ⟨tv, htv, h⟩ := h
    simp only [evalIns, htv, Option.bind_eq_bind, Option.bind_some]
    exact fload_alike hw (hne htv hav) h
  case astore =>
    obtain ⟨kv, hkv, tv, htv, k, hk, x, hx, h⟩ := h
    simp only [evalIns, hkv, htv, hk, hx, Option.bind_eq_bind, Option.bind_some]
    exact astore_alike hw (hne htv hav) h
  case hstore =>
    obtain ⟨kv, hkv, tv, htv, k, hk, x, hx, h⟩ := h
    simp only [evalIns, hkv, htv, hk, hx, Option.bind_eq_bind, Option.bind_some]
    exact hstore_alike hw (hne htv hav) h
  case fstore =>
    split at h
    · rename_i h0
      simp only [Option.bind_eq_some_iff] at h
      obtain ⟨tv, htv, h⟩ := h
      simp only [evalIns, htv, if_pos h0, Option.bind_eq_bind, Option.bind_some]
      exact fstore_alike hw (hne htv hav) h
    · rename_i h0
      simp only [Option.bind_eq_some_iff] at h
      obtain ⟨tv, htv, mv, hmv, h⟩ := h
      simp only [evalIns, htv, hmv, if_neg h0, Option.bind_eq_bind, Option.bind_some]
      exact fstore_alike hw (hne htv hav) h
  case bufhdr =>
    obtain ⟨x, hx, rfl⟩ := h
    simp only [evalIns, hx, Option.bind_eq_bind, Option.bind_some, Option.pure_def]
    exact ⟨_, rfl, buf_alike hR hw true x⟩
  case bufput =>
    obtain ⟨x, hx, rfl⟩ := h
    simp only [evalIns, hx, Option.bind_eq_bind, Option.bind_some, Option.pure_def]
    exact ⟨_, rfl, buf_alike hR hw false x⟩
  case bufstr =>
    cases h
    obtain ⟨hv, hr⟩ := hR.bufStr _ _ hw.rest
    simp only [evalIns, hv, Option.pure_def]
    exact ⟨_, rfl, .of_rest hw hr⟩
  case gcstep =>
    cases h
    simp only [evalIns, Option.pure_def, hav w' hw]
    exact ⟨_, rfl, .same hw⟩
  case tnew =>
    obtain ⟨t', ht', w₁, hw₁, rfl⟩ := h
    obtain ⟨hb, hal, rfl⟩ := hw.alloc hA hw₁
    simp only [evalIns, ht', hal, Option.bind_eq_bind, Option.bind_some, Option.pure_def]
    exact ⟨_, rfl, .store hw hb t'⟩
  case tdup =>
    obtain ⟨tv, htv, t', ht', w₁, hw₁, rfl⟩ := h
    obtain ⟨hb, hal, rfl⟩ := hw.alloc hA hw₁
    have hnot : tv.toBits ∉ A := by
      intro hmem
      exact hav _ hmem (by rw [htv, Option.map_some])
    have ht'' : w'.tables tv.toBits = some t' := by
      rw [hw.tables]
      simp [hnot, ht']
    simp only [evalIns, htv, ht'', hal, Option.bind_eq_bind, Option.bind_some, Option.pure_def]
    exact ⟨_, rfl, .store hw hb _⟩
  case cnew =>
    obtain ⟨p, hp, u, hu, rfl⟩ := h
    obtain ⟨hv, hr⟩ := hR.cnew _ _ p u hw.rest
    simp only [evalIns, hp, hu, hv, Option.bind_eq_bind, Option.bind_some, Option.pure_def]
    exact ⟨_, rfl, .of_rest hw hr⟩
  case calll =>
    obtain ⟨args, hargs, rfl⟩ := h
    obtain ⟨hv, hr⟩ := hav args w' hargs hw
    have hargs' : callArgs buf { m with world := w' } op2 op1 = some args := hargs
    simp only [evalIns, hargs', hv, Option.bind_eq_bind, Option.bind_some, Option.pure_def]
    exact ⟨_, rfl, .of_rest hw hr⟩
  case conv =>
    obtain ⟨x, hx, rfl⟩ := h
    simp only [evalIns, hx, Option.bind_eq_bind, Option.bind_some, Option.pure_def]
    exact ⟨_, rfl, conv_alike hw x⟩
  all_goals first
    | (cases h; exact ⟨_, rfl, .same hw⟩)
    | (obtain ⟨x, hx, rfl⟩ := h
       simp only [evalIns, hx, Option.bind_eq_bind, Option.bind_some, Option.pure_def]
       exact ⟨_, rfl, .same hw⟩)
    | (obtain ⟨x, hx, y, hy, rfl⟩ := h
       simp only [evalIns, hx, hy, Option.bind_eq_bind, Option.bind_some, Option.pure_def]
       exact ⟨_, rfl, .same hw⟩)
    | (obtain ⟨x, hx, y, hy, z, hz, rfl⟩ := h
       simp only [evalIns, hx, hy, hz, Option.bind_eq_bind, Option.bind_some, Option.pure_def]
       exact ⟨_, rfl, .same hw⟩)

end Avoids

/-! ### Instructions with substituted operands -/

/-- What the references `Ok` denote in one buffer their substitutes denote in the other. -/
structure Reading (buf buf' : IrBuf) (env env' : ℕ → LuaValue) (σ : ℕ → ℕ) (Ok : ℕ → Prop) : Prop where
  read : ∀ q v, Ok q → readRef buf env q = some v → readRef buf' env' (σ q) = some v
  carg : ∀ q kv, Ok q → carg buf q = some kv → carg buf' (σ q) = some (σ kv.1, σ kv.2) ∧ Ok kv.1 ∧ Ok kv.2
  const : ∀ q v, buf.constBits q = some v → buf'.constBits (σ q) = some v
  zero : ∀ q, σ q = 0 ↔ q = 0

section Subst
variable {H : Type} {R : Runtime H} {buf buf' : IrBuf} {m : Machine H} {env' : ℕ → LuaValue} {σ : ℕ → ℕ} {Ok : ℕ → Prop}
  {ins ins' : IRIns} {e : Effect H}

/-- Marks and chains do not matter to the executor. -/
theorem evalIns_sameUpTo (h : SameUpTo σ ins ins') : evalIns R buf m ins' = evalIns R buf m (substOps σ ins) := by
  rcases ins with ⟨op, ⟨ty, mark, isphi, guard⟩, op1, op2, prev⟩
  rcases ins' with ⟨op', ⟨ty', mark', isphi', guard'⟩, op1', op2', prev'⟩
  obtain ⟨hop, hty, hguard, hop1, hop2⟩ := h
  simp only at hop hty hguard hop1 hop2
  subst hop hty hguard hop1 hop2
  cases op' <;> rfl

theorem callArgs_subst (hr : Reading buf buf' m.env env' σ Ok) {idx op1 : ℕ} (h1 : Ok op1) {args : List LuaValue}
    (h : callArgs buf m idx op1 = some args) : callArgs buf' { m with env := env' } idx (σ op1) = some args := by
  simp only [callArgs] at h ⊢
  by_cases ha1 : ircallArity idx = 1
  · simp only [if_pos ha1, Option.bind_eq_bind, Option.bind_eq_some_iff, Option.pure_def, Option.some.injEq] at h ⊢
    obtain ⟨x, hx, rfl⟩ := h
    exact ⟨x, hr.read _ _ h1 hx, rfl⟩
  · simp only [if_neg ha1, Option.bind_eq_bind, Option.bind_eq_some_iff] at h ⊢
    obtain ⟨j, hj, h⟩ := h
    obtain ⟨hj', hj1, hj2⟩ := hr.carg _ _ h1 hj
    refine ⟨_, hj', ?_⟩
    by_cases ha2 : ircallArity idx = 2
    · simp only [if_pos ha2, Option.bind_eq_some_iff, Option.pure_def, Option.some.injEq] at h ⊢
      obtain ⟨x, hx, y, hy, rfl⟩ := h
      exact ⟨x, hr.read _ _ hj1 hx, y, hr.read _ _ hj2 hy, rfl⟩
    · simp only [if_neg ha2, Option.bind_eq_some_iff] at h ⊢
      obtain ⟨i, hi, h⟩ := h
      obtain ⟨hi', hi1, hi2⟩ := hr.carg _ _ hj1 hi
      refine ⟨_, hi', ?_⟩
      by_cases ha3 : ircallArity idx = 3
      · simp only [if_pos ha3, Option.bind_eq_some_iff, Option.pure_def, Option.some.injEq] at h ⊢
        obtain ⟨x, hx, y, hy, z, hz, rfl⟩ := h
        exact ⟨x, hr.read _ _ hi1 hx, y, hr.read _ _ hi2 hy, z, hr.read _ _ hj2 hz, rfl⟩
      · simp only [if_neg ha3, Option.bind_eq_some_iff, Option.pure_def, Option.some.injEq] at h ⊢
        obtain ⟨k, hk, x, hx, y, hy, z, hz, u, hu, rfl⟩ := h
        obtain ⟨hk', hk1, hk2⟩ := hr.carg _ _ hi1 hk
        exact ⟨_, hk', x, hr.read _ _ hk1 hx, y, hr.read _ _ hk2 hy, z, hr.read _ _ hi2 hz, u, hr.read _ _ hj2 hu, rfl⟩

/-- An instruction with its operands substituted does the same. -/
theorem evalIns_subst (hr : Reading buf buf' m.env env' σ Ok) (h1 : Ok ins.op1) (h2 : Ok ins.op2)
    (hslot : ins.op = .sload → σ ins.op1 = ins.op1)
    (hlit : ins.op = .calll ∨ ins.op = .fpmath ∨ ins.op = .conv → σ ins.op2 = ins.op2)
    (h : evalIns R buf m ins = some e) : evalIns R buf' { m with env := env' } (substOps σ ins) = some e := by
  rcases ins with ⟨op, t, op1, op2, prev⟩
  cases op
  all_goals first | (cases h; done) | skip
  all_goals
    simp only [evalIns, substOps, Option.bind_eq_bind, Option.bind_eq_some_iff, Option.pure_def,
      Option.some.injEq] at h ⊢
  case sload =>
    rw [hslot rfl]
    exact h
  case uload =>
    obtain ⟨c, hc, h⟩ := h
    exact ⟨c, hr.const _ _ hc, h⟩
  case fstore =>
    split at h
    · rename_i h0
      simp only [Option.bind_eq_some_iff] at h
      obtain ⟨tv, htv, h⟩ := h
      refine (if_pos ((hr.zero op2).mpr h0)).trans ?_
      exact Option.bind_eq_some_iff.mpr ⟨tv, hr.read _ _ h1 htv, h⟩
    · rename_i h0
      simp only [Option.bind_eq_some_iff] at h
      obtain ⟨tv, htv, mv, hmv, h⟩ := h
      refine (if_neg fun h => h0 ((hr.zero op2).mp h)).trans ?_
      simp only [Option.bind_eq_some_iff]
      exact ⟨tv, hr.read _ _ h1 htv, mv, hr.read _ _ h2 hmv, h⟩
  case astore =>
    obtain ⟨kv, hkv, tv, htv, k, hk, x, hx, h⟩ := h
    obtain ⟨hc, hk1, hk2⟩ := hr.carg _ _ h2 hkv
    exact ⟨_, hc, tv, hr.read _ _ h1 htv, k, hr.read _ _ hk1 hk, x, hr.read _ _ hk2 hx, h⟩
  case hstore =>
    obtain ⟨kv, hkv, tv, htv, k, hk, x, hx, h⟩ := h
    obtain ⟨hc, hk1, hk2⟩ := hr.carg _ _ h2 hkv
    exact ⟨_, hc, tv, hr.read _ _ h1 htv, k, hr.read _ _ hk1 hk, x, hr.read _ _ hk2 hx, h⟩
  case calll =>
    obtain ⟨args, hargs, h⟩ := h
    rw [hlit (.inl rfl)]
    exact ⟨args, callArgs_subst hr h1 hargs, h⟩
  case fpmath =>
    obtain ⟨x, hx, y, hy, h⟩ := h
    rw [hlit (.inr (.inl rfl))]
    exact ⟨x, hr.read _ _ h1 hx, y, hy, h⟩
  case conv =>
    obtain ⟨x, hx, h⟩ := h
    refine ⟨x, hr.read _ _ h1 hx, ?_⟩
    rw [← h]
    have hop2 : σ op2 = op2 := hlit (.inr (.inr rfl))
    rw [hop2]
    rfl
  all_goals first
    | exact h
    | (obtain ⟨x, hx, y, hy, h⟩ := h
       exact ⟨x, hr.read _ _ h1 hx, y, hr.read _ _ h2 hy, h⟩)
    | (obtain ⟨x, hx, h⟩ := h
       exact ⟨x, hr.read _ _ h1 hx, h⟩)
    | (obtain ⟨x, hx, h⟩ := h
       exact ⟨x, hr.read _ _ h2 hx, h⟩)

end Subst

/-! ### Restoring slots -/

section Restore
variable {H : Type} {R : Runtime H} {G : H → H → Prop} {A : List ℕ} {tr tr' : Trace} {env env' : ℕ → LuaValue} {base : ℕ}
  {w w' w₁ : World H}

/-- Restoring one slot from a reference that both traces read alike. -/
theorem restoreEntry_alike (hR : R.Blind G) {sn : SnapEntry}
    (hread : sn.norestore = false → ∀ v, readRef tr.ir env sn.ref = some v → readRef tr'.ir env' sn.ref = some v)
    (hw : Alike G A w w') (h : tr.restoreEntry R env base w sn = some w₁) :
    ∃ w₁', tr'.restoreEntry R env' base w' sn = some w₁' ∧ Alike G A w₁ w₁' ∧ w₁.tables = w.tables := by
  rw [Trace.restoreEntry] at h ⊢
  cases hn : sn.norestore with
  | true =>
    rw [hn, if_pos rfl, Option.some.injEq] at h
    subst h
    exact ⟨w', by rw [if_pos rfl], hw, rfl⟩
  | false =>
    rw [hn, if_neg (by decide), Option.bind_eq_bind, Option.bind_eq_some_iff] at h
    obtain ⟨v, hv, h⟩ := h
    rw [if_neg (by decide), hread hn v hv, Option.bind_eq_bind, Option.bind_some]
    by_cases hmark : v = LuaValue.BUF_MARK
    · obtain ⟨hval, hrest⟩ := hR.bufStr _ _ hw.rest
      simp only [if_pos hmark, Option.pure_def, Option.some.injEq] at h ⊢
      subst h
      exact ⟨_, rfl, ⟨by rw [hval, hw.stack], hw.tables, hrest⟩, rfl⟩
    · simp only [if_neg hmark, Option.pure_def, Option.some.injEq] at h ⊢
      subst h
      exact ⟨_, rfl, ⟨by rw [hw.stack], hw.tables, hw.rest⟩, rfl⟩

theorem restoreEntries_alike (hR : R.Blind G) {es : List SnapEntry}
    (hread : ∀ sn ∈ es, sn.norestore = false → ∀ v, readRef tr.ir env sn.ref = some v →
      readRef tr'.ir env' sn.ref = some v)
    (hw : Alike G A w w') (h : es.foldlM (tr.restoreEntry R env base) w = some w₁) :
    ∃ w₁', es.foldlM (tr'.restoreEntry R env' base) w' = some w₁' ∧ Alike G A w₁ w₁' ∧ w₁.tables = w.tables := by
  induction es generalizing w w' with
  | nil =>
    cases h
    exact ⟨w', rfl, hw, rfl⟩
  | cons sn es ih =>
    rw [List.foldlM_cons, Option.bind_eq_bind, Option.bind_eq_some_iff] at h
    obtain ⟨w₂, hone, h⟩ := h
    obtain ⟨w₂', hone', hw₂, ht₂⟩ := restoreEntry_alike hR (hread sn List.mem_cons_self) hw hone
    obtain ⟨w₁', hrest, hw₁, ht₁⟩ := ih (fun s hs => hread s (List.mem_cons_of_mem sn hs)) hw₂ h
    refine ⟨w₁', ?_, hw₁, ht₁.trans ht₂⟩
    rw [List.foldlM_cons, hone', Option.bind_eq_bind, Option.bind_some, hrest]

end Restore

/-! ### Loads from a copy of a template -/

section Template
variable {H : Type} {R : Runtime H} {buf : IrBuf} {m : Machine H} {hash : LuaValue → UInt32} {t : LuaTable}

/-- What copying a template makes of a value. -/
def copied (v : LuaValue) : LuaValue := if v.isTable then .nil else v

theorem nodeSlot_dup (hm : 0 < t.hmask) (n : ℕ) :
    (dup t).nodeSlot n = (t.nodeSlot n).map fun nd => { nd with val := copied nd.val } := by
  have hnode : (dup t).node = t.node.map fun nd => { nd with val := copied nd.val } := if_pos hm
  have hmask : (dup t).hmask = t.hmask := rfl
  rw [LuaTable.nodeSlot, LuaTable.nodeSlot, hmask, if_pos hm, if_pos hm, hnode, List.getElem?_map]
  cases t.node[n]? <;> rfl

/-- The copy has the same keys in the same chains. -/
theorem walk_dup (hm : 0 < t.hmask) (key : LuaValue) (fuel n : ℕ) : (dup t).walk key fuel n = t.walk key fuel n := by
  induction fuel generalizing n with
  | zero => rfl
  | succ fuel ih =>
    rw [LuaTable.walk, LuaTable.walk, nodeSlot_dup hm]
    cases t.nodeSlot n with
    | error f => rfl
    | ok nd =>
      show (if nd.key = key then _ else if nd.next = NIL_NODE then _ else (dup t).walk key fuel nd.next) = _
      rw [ih]
      rfl

theorem getChain_dup (hm : 0 < t.hmask) {key v : LuaValue} (h : t.getChain hash key = .ok v) :
    (dup t).getChain hash key = .ok (copied v) := by
  have hlen : (dup t).node.length = t.node.length := by
    show (if 0 < t.hmask then _ else _ : List Node).length = _
    rw [if_pos hm, List.length_map]
  have hfind : (dup t).findKey hash key = t.findKey hash key := by
    rw [LuaTable.findKey, LuaTable.findKey, hlen, walk_dup hm]
    rfl
  rw [LuaTable.getChain, hfind]
  rw [LuaTable.getChain] at h
  cases hf : t.findKey hash key with
  | error f => rw [hf] at h; cases h
  | ok o =>
    rw [hf] at h
    cases o with
    | none =>
      obtain rfl : LuaValue.nil = v := Except.ok.inj h
      rfl
    | some n =>
      have hn := nodeSlot_dup hm n
      cases hs : t.nodeSlot n with
      | error f =>
        change (t.nodeSlot n >>= fun nd => pure nd.val) = _ at h
        rw [hs] at h
        cases h
      | ok nd =>
        change (t.nodeSlot n >>= fun nd => pure nd.val) = _ at h
        rw [hs] at h
        obtain rfl : nd.val = v := Except.ok.inj h
        rw [hs] at hn
        show ((dup t).nodeSlot n >>= fun nd => pure nd.val) = _
        rw [hn]
        rfl

theorem arrayAt_dup {i : ℕ} {v : LuaValue} (h : t.arrayAt i = .ok v) : (dup t).arrayAt i = .ok (copied v) := by
  have harr : (dup t).array = t.array.map copied := rfl
  rw [LuaTable.arrayAt] at h ⊢
  rw [harr, List.getElem?_map]
  cases hi : t.array[i]? with
  | none => rw [hi] at h; cases h
  | some x =>
    rw [hi] at h
    obtain rfl : x = v := Except.ok.inj h
    rfl

/-- An integer field of the copy. -/
theorem getInt_dup {k : ℤ} {v : LuaValue} (h : t.getInt hash k = .ok v) : (dup t).getInt hash k = .ok (copied v) := by
  have hasize : (dup t).asize = t.asize := rfl
  have hidx : ∀ key, (dup t).arrayIdx key = t.arrayIdx key := fun _ => rfl
  have hpart : (dup t).hasHpart = t.hasHpart := rfl
  rw [LuaTable.getInt] at h ⊢
  rw [hasize]
  split at h
  · rename_i hlt
    rw [if_pos hlt]
    exact arrayAt_dup h
  · rename_i hlt
    rw [if_neg hlt]
    rw [LuaTable.get] at h ⊢
    rw [hidx, hpart]
    cases ha : t.arrayIdx (.ofInt k) with
    | some i =>
      rw [ha] at h
      exact arrayAt_dup h
    | none =>
      rw [ha] at h
      simp only at h ⊢
      split at h
      · rename_i hnil
        obtain rfl : LuaValue.nil = v := Except.ok.inj h
        rw [if_pos hnil]
        rfl
      · rename_i hnil
        rw [if_neg hnil]
        refine getChain_dup ?_ h
        rw [Bool.or_eq_true, not_or] at hnil
        have := hnil.2
        simp only [LuaTable.hasHpart, Bool.not_eq_true', decide_eq_false_iff_not, not_not] at this
        exact Nat.pos_of_ne_zero this

/-- The numbers of a template are its fields under the keys from `i` on. -/
theorem templateNumbers_spec {k : ℕ} {i : ℤ} {nums : List (ℤ × F64)} (h : templateNumbers hash t k i = some nums) :
    ∀ n ∈ nums, i ≤ n.1 ∧ n.1 < i + k ∧ t.getInt hash n.1 = .ok (.num n.2) := by
  induction k generalizing i nums with
  | zero =>
    cases h
    simp
  | succ k ih =>
    simp only [templateNumbers, Option.bind_eq_bind, Option.bind_eq_some_iff] at h
    obtain ⟨v, hv, h⟩ := h
    have hget : t.getInt hash i = .ok v := by
      cases hg : t.getInt hash i with
      | error f => rw [hg] at hv; cases hv
      | ok x =>
        rw [hg] at hv
        obtain rfl : x = v := Option.some.inj hv
        rfl
    have hstep : ∀ {rest}, templateNumbers hash t k (i + 1) = some rest → ∀ n ∈ rest,
        i ≤ n.1 ∧ n.1 < i + (k + 1 : ℕ) ∧ t.getInt hash n.1 = .ok (.num n.2) := by
      intro rest hrest n hn
      obtain ⟨hlo, hhi, hval⟩ := ih hrest n hn
      exact ⟨by omega, by omega, hval⟩
    cases v with
    | nil =>
      cases h
      simp
    | num x =>
      rw [Option.map_eq_some_iff] at h
      obtain ⟨rest, hrest, rfl⟩ := h
      intro n hn
      rcases List.mem_cons.mp hn with rfl | hn
      · exact ⟨le_rfl, by omega, hget⟩
      · exact hstep hrest n hn
    | _ => exact hstep h

/-- A load of a number from the copy of a template stays on the trace and yields the number. -/
theorem load_copy {ins : IRIns} {e : Effect H} {a : ℕ} {n : ℤ × F64} (hop : isLoad ins.op = true)
    (htv : readRef buf m.env ins.op1 = some (.tab a)) (ht : m.world.tables a = some (dup t))
    (hkv : readRef buf m.env ins.op2 = some (.num (.ofInt n.1))) (hn : 1 ≤ n.1 ∧ n.1 < 1 + (64 : ℕ))
    (hget : t.getInt R.hash n.1 = .ok (.num n.2)) (harr : ins.op = .aload → n.1.toNat < t.asize)
    (hty : ins.op = .aload ∨ ins.isGuard = true → ins.t.ty = .num ∨ ins.t.ty = .int)
    (h : evalIns R buf m ins = some e) : e = ⟨some (.num n.2), m.world, false, false⟩ := by
  have hcheck : ∀ ty, ty = IRTy.num ∨ ty = .int → typecheck (.num n.2) ty = true := by
    rintro ty (rfl | rfl) <;> rfl
  have hidx : arrayIndex (.num (.ofInt n.1)) = some n.1 := F64.asInt32Exact_ofInt (by omega) (by omega)
  have hdup := getInt_dup hget
  have htab : m.world.table (.tab a) = some (a, dup t) := by
    simp only [World.table, LuaValue.asTable, Option.bind_eq_bind, Option.bind_some, ht]
    rfl
  rw [isLoad, Bool.or_eq_true, decide_eq_true_eq, decide_eq_true_eq] at hop
  rcases hop with hop | hop
  · have hlt : 0 ≤ n.1 ∧ n.1.toNat < (dup t).asize := ⟨by omega, harr hop⟩
    have harrat : (dup t).array[n.1.toNat]? = some (.num n.2) := by
      rw [LuaTable.getInt, if_pos hlt, LuaTable.arrayAt] at hdup
      cases hx : (dup t).array[n.1.toNat]? with
      | none => rw [hx] at hdup; cases hdup
      | some x =>
        rw [hx] at hdup
        exact congrArg some (Except.ok.inj hdup)
    simp only [evalIns, hop, htv, hkv, Option.bind_eq_bind, Option.bind_some, evalAload, htab, hidx, if_pos hlt,
      harrat, Option.pure_def, Option.some.injEq] at h
    rw [← h, Effect.check, hcheck _ (hty (.inl hop))]
    rfl
  · have hnum : tget R.hash (dup t) (.num (.ofInt n.1)) = some (.num n.2) := by
      have h0 : 0 ≤ n.1 := by omega
      have hexact : (LuaValue.num (.ofInt n.1)).asInt32Exact = some n.1 := hidx
      rw [tget, if_neg (by simp [LuaValue.isString]), hexact]
      simp only [if_pos h0, hdup]
      rfl
    simp only [evalIns, hop, htv, hkv, Option.bind_eq_bind, Option.bind_some, evalHload, htab, hnum,
      Option.pure_def, Option.some.injEq] at h
    rw [← h, Effect.check]
    cases hg : ins.isGuard with
    | true => rw [hcheck _ (hty (.inr hg))]; rfl
    | false => rfl

end Template
end LuajitRs.Ir
