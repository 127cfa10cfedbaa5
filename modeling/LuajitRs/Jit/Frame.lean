import LuajitRs.Jit.Run
import LuajitRs.Runtime.Table.Metatable

/-! Straight-line execution and the table locations that it reads and writes. A slot of the machine is
written once, by its own instruction; a table location changes only under a store that touches it. -/
namespace LuajitRs.Ir

section Buffer
variable {buf : IrBuf}

/-- Strict SSA form: both operands of every instruction lie below it. -/
theorem ssa_ir (hs : buf.SSA) {r : ℕ} {ins : IRIns} (hr : REF_BIAS ≤ r) (hi : buf.ir r = some ins) :
    ins.op1 < r ∧ ins.op2 < r := by
  rw [IrBuf.ir, if_pos hr, List.getElem?_eq_some_iff] at hi
  obtain ⟨hlen, hget⟩ := hi
  have h := hs.below (r - REF_BIAS) hlen
  rw [List.get_eq_getElem, hget] at h
  obtain ⟨h1, h2⟩ := h
  exact ⟨by omega, by omega⟩

/-- The operands of a `CARG` lie below it. -/
theorem ssa_carg (hs : buf.SSA) {r : ℕ} {kv : ℕ × ℕ} (hc : carg buf r = some kv) : kv.1 < r ∧ kv.2 < r := by
  simp only [carg, Option.bind_eq_bind, Option.bind_eq_some_iff] at hc
  obtain ⟨ins, hi, hc⟩ := hc
  split at hc
  · rename_i hop
    cases hc
    rcases Nat.lt_or_ge r REF_BIAS with hlt | hge
    · rw [IrBuf.ir, if_neg (by omega)] at hi
      have hk := hs.consts ins (List.mem_of_getElem? hi)
      rw [hop] at hk
      cases hk
    · exact ssa_ir hs hge hi
  · cases hc

theorem lt_nins {r : ℕ} {ins : IRIns} (hlo : REF_BIAS ≤ r) (hi : buf.ir r = some ins) : r < buf.nins := by
  rw [IrBuf.ir, if_pos hlo] at hi
  have := (List.getElem?_eq_some_iff.mp hi).1
  rw [IrBuf.nins]
  omega

end Buffer

section Straight
variable {H : Type} (R : Runtime H) (buf : IrBuf)

/-- One instruction that stays on the trace. -/
def Next (m m' : Machine H) : Prop :=
  m.r < buf.nins ∧ ∃ ins e, buf.ir m.r = some ins ∧ evalIns R buf m ins = some e ∧ e.leave = false ∧ m' = commit m e

/-- Straight-line execution. -/
def Straight : Machine H → Machine H → Prop := Relation.ReflTransGen (Next R buf)

variable {R buf} {m m' c : Machine H}

theorem commit_env_ne (e : Effect H) {r : ℕ} (h : r ≠ m.r) : (commit m e).env r = m.env r := by
  rw [commit]
  cases e.val with
  | none => rfl
  | some v => exact Function.update_of_ne h _ _

theorem Next.r (h : Next R buf m m') : m'.r = m.r + 1 := by
  obtain ⟨-, -, -, -, -, -, rfl⟩ := h
  rfl

theorem Next.env (h : Next R buf m m') {r : ℕ} (hr : r ≠ m.r) : m'.env r = m.env r := by
  obtain ⟨-, -, e, -, -, -, rfl⟩ := h
  exact commit_env_ne e hr

theorem Straight.r_le (h : Straight R buf m m') : m.r ≤ m'.r := by
  induction h with
  | refl => exact le_rfl
  | tail _ hs ih => rw [hs.r]; exact ih.trans (Nat.le_succ _)

/-- A slot below the current instruction keeps its value. -/
theorem Straight.env (h : Straight R buf m m') {r : ℕ} (hr : r < m.r) : m'.env r = m.env r := by
  induction h with
  | refl => rfl
  | tail h hs ih =>
    have := Straight.r_le h
    rw [hs.env (by omega), ih]

theorem Straight.readRef_eq (h : Straight R buf m m') {r : ℕ} (hr : r < m.r) :
    readRef buf m'.env r = readRef buf m.env r := by
  rw [readRef, readRef, h.env hr]

/-- Execution passes through every instruction in between. -/
theorem Straight.at (h : Straight R buf m m') {s : ℕ} (hlo : m.r ≤ s) (hhi : s ≤ m'.r) :
    ∃ c, Straight R buf m c ∧ c.r = s ∧ Straight R buf c m' := by
  induction h with
  | refl => exact ⟨m, .refl, by omega, .refl⟩
  | @tail b d hb hs ih =>
    rcases Nat.lt_or_ge b.r s with hlt | hge
    · refine ⟨d, hb.tail hs, ?_, .refl⟩
      rw [hs.r] at hhi ⊢
      omega
    · obtain ⟨c, hc, hr, hcb⟩ := ih hge
      exact ⟨c, hc, hr, hcb.tail hs⟩

/-- A run that is not over starts with an instruction. -/
theorem Straight.head (h : Straight R buf m m') (hr : m.r < m'.r) : ∃ c, Next R buf m c ∧ Straight R buf c m' := by
  rcases Relation.ReflTransGen.cases_head h with rfl | hc
  · exact absurd hr (lt_irrefl _)
  · exact hc

/-- Execution is deterministic. -/
theorem Next.unique {c' : Machine H} (h : Next R buf m c) (h' : Next R buf m c') : c = c' := by
  obtain ⟨-, ins, e, hi, he, -, rfl⟩ := h
  obtain ⟨-, ins', e', hi', he', -, rfl⟩ := h'
  rw [hi, Option.some.injEq] at hi'
  subst hi'
  rw [he, Option.some.injEq] at he'
  rw [he']

variable (R buf) in
/-- Executing `n` instructions that stay on the trace. -/
def advance : ℕ → Machine H → Option (Machine H)
  | 0, m => some m
  | n+1, m =>
    if m.r < buf.nins then do
      let ins ← buf.ir m.r
      let e ← evalIns R buf m ins
      if e.leave then none else advance n (commit m e)
    else none

theorem advance_next {n : ℕ} (h : advance R buf (n+1) m = some m') :
    ∃ c, Next R buf m c ∧ advance R buf n c = some m' := by
  rw [advance] at h
  split at h
  · rename_i hr
    simp only [Option.bind_eq_bind, Option.bind_eq_some_iff] at h
    obtain ⟨ins, hi, e, he, h⟩ := h
    cases hl : e.leave with
    | true => simp [hl] at h
    | false => exact ⟨commit m e, ⟨hr, ins, e, hi, he, hl, rfl⟩, by simpa [hl] using h⟩
  · cases h

theorem advance_straight {n : ℕ} (h : advance R buf n m = some m') : Straight R buf m m' := by
  induction n generalizing m with
  | zero => cases h; exact .refl
  | succ n ih =>
    obtain ⟨c, hn, hc⟩ := advance_next h
    exact Relation.ReflTransGen.head hn (ih hc)

theorem advance_r {n : ℕ} (h : advance R buf n m = some m') : m'.r = m.r + n := by
  induction n generalizing m with
  | zero => cases h; rfl
  | succ n ih =>
    obtain ⟨c, hn, hc⟩ := advance_next h
    rw [ih hc, hn.r]
    omega

/-- A step of the executor that runs on within the instructions. -/
theorem step_run {tr : Trace} {d : Machine H} (hr : c.r < tr.ir.nins) (h : tr.step R c = some (.run d)) :
    ∃ ins e, tr.ir.ir c.r = some ins ∧ evalIns R tr.ir c ins = some e ∧ e.leave = false ∧ d = commit c e := by
  rw [Trace.step, if_pos hr] at h
  simp only [Option.bind_eq_bind, Option.bind_eq_some_iff] at h
  obtain ⟨ins, hi, e, he, h⟩ := h
  cases hl : e.leave with
  | true =>
    rw [if_pos hl, Trace.exitSnapshot, Option.bind_eq_bind, Option.bind_eq_some_iff] at h
    obtain ⟨w, -, h⟩ := h
    cases h
  | false =>
    rw [if_neg (by simp [hl])] at h
    cases h
    exact ⟨ins, e, hi, he, hl, rfl⟩

theorem step_of_eval {tr : Trace} {ins : IRIns} {e : Effect H} (hr : c.r < tr.ir.nins) (hi : tr.ir.ir c.r = some ins)
    (he : evalIns R tr.ir c ins = some e) (hl : e.leave = false) : tr.step R c = some (.run (commit c e)) := by
  rw [Trace.step, if_pos hr]
  simp [hi, he, hl]

theorem Next.step {tr : Trace} (h : Next R tr.ir m c) : tr.step R m = some (.run c) := by
  obtain ⟨hr, ins, e, hi, he, hl, rfl⟩ := h
  exact step_of_eval hr hi he hl

theorem Straight.runs {tr : Trace} (h : Straight R tr.ir m c) : tr.Runs R m c := by
  induction h with
  | refl => exact .refl
  | tail _ hn ih => exact ih.tail hn.step

end Straight

/-- The exit after `n` instructions, with its slot 2 and its runtime. -/
def exitAfter {H : Type} (R : Runtime H) (tr : Trace) (m : Machine H) (n : ℕ) : Option (ℕ × LuaValue × H) := do
  let c ← advance R tr.ir n m
  match ← tr.step R c with
  | .exit x _ d => some (x, d.world.stack 2, d.world.rest)
  | .run _ => none

theorem exitAfter_step {H : Type} {R : Runtime H} {tr : Trace} {m : Machine H} {n x : ℕ} {v : LuaValue} {h : H}
    (hx : exitAfter R tr m n = some (x, v, h)) : ∃ c gc d, advance R tr.ir n m = some c ∧
      tr.step R c = some (.exit x gc d) ∧ d.world.stack 2 = v ∧ d.world.rest = h := by
  simp only [exitAfter, Option.bind_eq_bind, Option.bind_eq_some_iff] at hx
  obtain ⟨c, hc, s, hs, hx⟩ := hx
  cases s with
  | run _ => cases hx
  | exit _ gc d =>
    cases hx
    exact ⟨c, gc, d, hc, hs, rfl, rfl⟩

/-! ### Locations -/

/-- A slot of the array part of a table, or its metatable field. -/
inductive Loc
  | slot (a i : ℕ)
  | metatable (a : ℕ)
  deriving DecidableEq, Repr

def Loc.table : Loc → ℕ
  | slot a _ => a
  | metatable a => a

/-- The array slot `i` of a table, if the array part covers it. -/
def arraySlot (t : LuaTable) (i : ℕ) : Option LuaValue := if i < t.asize then t.array[i]? else none

/-- What a table has in a location. -/
def Loc.read (loc : Loc) (t : LuaTable) : Option LuaValue :=
  match loc with
  | slot _ i => arraySlot t i
  | metatable _ => some (metaValue t)

/-- What is in a location. -/
def content {H : Type} (w : World H) (loc : Loc) : Option LuaValue := (w.tables loc.table).bind (loc.read ·)

section Locations
variable {H : Type} (R : Runtime H) (buf : IrBuf) (m : Machine H)

/-- The store about to be executed may write the location: an array store its own slot, a hash store any
slot of its table. -/
def touches (loc : Loc) : Bool :=
  (buf.ir m.r).any fun ins =>
    match ins.op, loc with
    | .astore, .slot a i => readRef buf m.env ins.op1 = some (.tab a) &&
        (carg buf ins.op2).any fun kv => (readRef buf m.env kv.1).bind arrayIndex = some (i : ℤ)
    | .hstore, .slot a _ => readRef buf m.env ins.op1 = some (.tab a)
    | .fstore, .metatable a => readRef buf m.env ins.op1 = some (.tab a)
    | _, _ => false

/-- What such a store leaves in the location. -/
def stored (loc : Loc) : Option LuaValue := do
  let ins ← buf.ir m.r
  match ins.op, loc with
  | .astore, .slot _ _ =>
    let kv ← carg buf ins.op2
    readRef buf m.env kv.2
  | .hstore, .slot a i =>
    let kv ← carg buf ins.op2
    let t ← m.world.tables a
    let t ← tset R.hash t (← readRef buf m.env kv.1) (← readRef buf m.env kv.2)
    arraySlot t i
  | .fstore, .metatable _ => if ins.op2 = 0 then some .nil else readRef buf m.env ins.op2
  | _, _ => none

/-- The location that a load reads; an array load needs an exact index. -/
def loadLoc (ins : IRIns) : Option Loc := do
  let a ← (← readRef buf m.env ins.op1).asTable
  match ins.op with
  | .aload =>
    let k ← arrayIndex (← readRef buf m.env ins.op2)
    if 0 ≤ k then some (.slot a k.toNat) else none
  | .fload => some (.metatable a)
  | _ => none

end Locations

/-! ### What an instruction does to the tables -/

section Tables
variable {H : Type} {R : Runtime H} {buf : IrBuf} {m : Machine H} {ins : IRIns} {e : Effect H}

theorem evalHload_world {tv kv : LuaValue} (h : evalHload R m tv kv ins = some e) : e.world = m.world := by
  simp only [evalHload, Option.bind_eq_bind, Option.bind_eq_some_iff, Option.pure_def, Option.some.injEq] at h
  obtain ⟨-, -, -, -, rfl⟩ := h
  rfl

theorem evalAload_world {tv kv : LuaValue} {t : IRTy} (h : evalAload m tv kv t = some e) : e.world = m.world := by
  simp only [evalAload, Option.bind_eq_bind, Option.bind_eq_some_iff] at h
  obtain ⟨p, -, h⟩ := h
  split at h
  · split at h
    · simp only [Option.bind_eq_some_iff, Option.pure_def, Option.some.injEq] at h
      obtain ⟨-, -, rfl⟩ := h
      rfl
    · cases h; rfl
  · cases h; rfl

theorem evalFload_world {tv : LuaValue} {t : IRTy} (h : evalFload m tv t = some e) : e.world = m.world := by
  simp only [evalFload, Option.bind_eq_bind, Option.bind_eq_some_iff] at h
  obtain ⟨p, -, h⟩ := h
  split at h <;> cases h <;> rfl

theorem evalBuf_tables (start : Bool) (v : LuaValue) : (evalBuf R m start v).world.tables = m.world.tables := by
  simp only [evalBuf]
  split
  · rfl
  · split <;> rfl

theorem evalConv_world (v : LuaValue) : (evalConv m v ins).world = m.world := by
  simp only [evalConv]
  split
  · rfl
  · split
    · split <;> rfl
    · rfl

/-- The stores and the table allocations. -/
def isTableWrite (op : IROp) : Bool :=
  op = .astore || op = .hstore || op = .fstore || op = .tnew || op = .tdup

theorem evalIns_tables (hop : isTableWrite ins.op = false) (h : evalIns R buf m ins = some e) :
    e.world.tables = m.world.tables := by
  rcases ins with ⟨op, t, op1, op2, prev⟩
  simp only [isTableWrite] at hop
  cases op
  all_goals first | (cases h; done) | (simp at hop; done) | skip
  all_goals
    simp only [evalIns, Option.bind_eq_bind, Option.bind_eq_some_iff, Option.pure_def, Option.some.injEq] at h
  all_goals first
    | (subst h; rfl)
    | (obtain ⟨x, -, rfl⟩ := h
       first | rfl | exact evalBuf_tables _ _ | exact congrArg _ (evalConv_world _))
    | (obtain ⟨x, -, y, -, rfl⟩ := h; rfl)
    | (obtain ⟨x, -, y, -, z, -, rfl⟩ := h; rfl)
    | (obtain ⟨x, -, y, -, h⟩ := h
       first | exact congrArg _ (evalHload_world h) | exact congrArg _ (evalAload_world h))
    | (obtain ⟨x, -, h⟩ := h; exact congrArg _ (evalFload_world h))

theorem table_eq_some {w : World H} {v : LuaValue} {p : ℕ × LuaTable} (h : w.table v = some p) :
    v = .tab p.1 ∧ w.tables p.1 = some p.2 := by
  cases v with
  | tab a =>
    simp only [World.table, LuaValue.asTable, Option.bind_eq_bind, Option.bind_some, Option.bind_eq_some_iff,
      Option.pure_def, Option.some.injEq] at h
    obtain ⟨t, ht, rfl⟩ := h
    exact ⟨rfl, ht⟩
  | _ => cases h

/-- An array store that stays on the trace. -/
theorem evalAstore_eq {tv kv v : LuaValue} (h : evalAstore m tv kv v = some e) (hl : e.leave = false) :
    ∃ a t k, tv = .tab a ∧ m.world.tables a = some t ∧ arrayIndex kv = some k ∧ 0 < k ∧ k.toNat < t.asize ∧
      k.toNat < t.array.length ∧ e = .skip (m.world.setTable a { t with array := t.array.set k.toNat v }) := by
  simp only [evalAstore, Option.bind_eq_bind, Option.bind_eq_some_iff] at h
  obtain ⟨p, hp, h⟩ := h
  obtain ⟨rfl, ht⟩ := table_eq_some hp
  split at h
  · rename_i ki hk
    split at h
    · rename_i hr
      simp only [Option.bind_eq_some_iff, Option.pure_def, Option.some.injEq] at h
      obtain ⟨t', hs, rfl⟩ := h
      rw [LuaTable.setArray] at hs
      split at hs
      · rename_i hlen
        obtain rfl : _ = t' := Option.some.inj hs
        exact ⟨p.1, p.2, ki, rfl, ht, hk, hr.1, hr.2, hlen, rfl⟩
      · cases hs
    · cases h; cases hl
  · cases h; cases hl

theorem evalAstore_stays {a : ℕ} {t : LuaTable} {kv v : LuaValue} {k : ℤ} (ht : m.world.tables a = some t)
    (hk : arrayIndex kv = some k) (hpos : 0 < k) (hlt : k.toNat < t.asize) (hlen : k.toNat < t.array.length) :
    evalAstore m (.tab a) kv v =
      some (.skip (m.world.setTable a { t with array := t.array.set k.toNat v })) := by
  simp [evalAstore, World.table, LuaValue.asTable, ht, hk, hpos, hlt, LuaTable.setArray, hlen, Except.toOption]

theorem evalHstore_eq {tv kv v : LuaValue} (h : evalHstore R m tv kv v = some e) :
    ∃ a t t', tv = .tab a ∧ m.world.tables a = some t ∧ tset R.hash t kv v = some t' ∧
      e = .skip (m.world.setTable a t') := by
  simp only [evalHstore, Option.bind_eq_bind, Option.bind_eq_some_iff, Option.pure_def, Option.some.injEq] at h
  obtain ⟨p, hp, t', ht', rfl⟩ := h
  obtain ⟨rfl, ht⟩ := table_eq_some hp
  exact ⟨p.1, p.2, t', rfl, ht, ht', rfl⟩

theorem evalFstore_eq {tv : LuaValue} {mv : Option LuaValue} (h : evalFstore m tv mv = some e) :
    ∃ a t t', tv = .tab a ∧ m.world.tables a = some t ∧ t' = { t with metatable := t'.metatable } ∧
      metaValue t' = mv.getD .nil ∧ e = .skip (m.world.setTable a t') := by
  simp only [evalFstore, Option.bind_eq_bind, Option.bind_eq_some_iff] at h
  obtain ⟨p, hp, h⟩ := h
  obtain ⟨rfl, ht⟩ := table_eq_some hp
  cases mv with
  | none =>
    cases h
    exact ⟨p.1, p.2, _, rfl, ht, rfl, rfl, rfl⟩
  | some v =>
    cases v with
    | tab b =>
      simp only [LuaValue.asTable, Option.bind_some, Option.pure_def, Option.some.injEq] at h
      subst h
      exact ⟨p.1, p.2, _, rfl, ht, rfl, rfl, rfl⟩
    | _ => cases h

theorem tset_metatable {hash : LuaValue → UInt32} {t t' : LuaTable} {k v : LuaValue}
    (h : tset hash t k v = some t') : t'.metatable = t.metatable := by
  have hok : ∀ r : Except Fault LuaTable, r.toOption = some t' → r = .ok t' := by
    intro r hr
    cases r with
    | error _ => cases hr
    | ok s => rw [Except.toOption, Option.some.injEq] at hr; rw [hr]
  rw [tset] at h
  have h := hok _ h
  split at h
  · exact LuaTable.keepsMeta_setStr k v t' h
  split at h
  · split at h
    · exact LuaTable.keepsMeta_setInt _ v t' h
    · exact LuaTable.keepsMeta_set k v t' h
  · exact LuaTable.keepsMeta_set k v t' h

variable (R buf) in
/-- The array store at the current instruction, with its table, index and value. -/
structure ArrayStore (m : Machine H) (a : ℕ) (t : LuaTable) (i : ℤ) (v : LuaValue) : Prop where
  exists_ins : ∃ ins kv, buf.ir m.r = some ins ∧ ins.op = .astore ∧ readRef buf m.env ins.op1 = some (.tab a) ∧
    carg buf ins.op2 = some kv ∧ (readRef buf m.env kv.1).bind arrayIndex = some i ∧ readRef buf m.env kv.2 = some v
  table : m.world.tables a = some t
  pos : 0 < i
  lt : i.toNat < t.asize
  length : i.toNat < t.array.length

variable (R buf) in
/-- The hash store at the current instruction, with its table before and after. -/
structure HashStore (m : Machine H) (a : ℕ) (t t' : LuaTable) : Prop where
  exists_ins : ∃ ins kv k v, buf.ir m.r = some ins ∧ ins.op = .hstore ∧
    readRef buf m.env ins.op1 = some (.tab a) ∧ carg buf ins.op2 = some kv ∧
    readRef buf m.env kv.1 = some k ∧ readRef buf m.env kv.2 = some v ∧ tset R.hash t k v = some t'
  table : m.world.tables a = some t

variable (R buf) in
/-- The metatable store at the current instruction. -/
structure FieldStore (m : Machine H) (a : ℕ) (t t' : LuaTable) : Prop where
  exists_ins : ∃ ins, buf.ir m.r = some ins ∧ ins.op = .fstore ∧ readRef buf m.env ins.op1 = some (.tab a) ∧
    some (metaValue t') = if ins.op2 = 0 then some .nil else readRef buf m.env ins.op2
  table : m.world.tables a = some t
  rest : t' = { t with metatable := t'.metatable }

/-- The ways an instruction can change the tables. -/
theorem Next.tables {m' : Machine H} (h : Next R buf m m') :
    m'.world.tables = m.world.tables ∨
    (∃ a t, m.world.tables a = none ∧ m'.world.tables = Function.update m.world.tables a (some t)) ∨
    (∃ a t i v, ArrayStore buf m a t i v ∧
      m'.world.tables = Function.update m.world.tables a (some { t with array := t.array.set i.toNat v })) ∨
    (∃ a t t', HashStore R buf m a t t' ∧ m'.world.tables = Function.update m.world.tables a (some t')) ∨
    ∃ a t t', FieldStore buf m a t t' ∧ m'.world.tables = Function.update m.world.tables a (some t') := by
  obtain ⟨-, ins, e, hi, he, hl, rfl⟩ := h
  by_cases hop : isTableWrite ins.op = false
  · exact .inl (evalIns_tables hop he)
  have hcases : ins.op = .astore ∨ ins.op = .hstore ∨ ins.op = .fstore ∨ ins.op = .tnew ∨ ins.op = .tdup := by
    rcases ins with ⟨op, t, op1, op2, prev⟩
    cases op <;> simp [isTableWrite] at hop ⊢
  rcases hcases with hop | hop | hop | hop | hop <;>
    simp only [evalIns, hop, Option.bind_eq_bind, Option.bind_eq_some_iff] at he
  · obtain ⟨kv, hkv, tv, htv, k, hk, v, hv, he⟩ := he
    obtain ⟨a, t, i, rfl, ht, hki, hpos, hlt, hlen, rfl⟩ := evalAstore_eq he hl
    exact .inr (.inr (.inl ⟨a, t, i, v, ⟨⟨ins, kv, hi, hop, htv, hkv, by rw [hk]; exact hki, hv⟩, ht, hpos, hlt,
      hlen⟩, rfl⟩))
  · obtain ⟨kv, hkv, tv, htv, k, hk, v, hv, he⟩ := he
    obtain ⟨a, t, t', rfl, ht, hset, rfl⟩ := evalHstore_eq he
    exact .inr (.inr (.inr (.inl ⟨a, t, t', ⟨⟨ins, kv, k, v, hi, hop, htv, hkv, hk, hv, hset⟩, ht⟩, rfl⟩)))
  · split at he
    · rename_i h0
      simp only [Option.bind_eq_some_iff] at he
      obtain ⟨tv, htv, he⟩ := he
      obtain ⟨a, t, t', rfl, ht, hrest, hmeta, rfl⟩ := evalFstore_eq he
      exact .inr (.inr (.inr (.inr ⟨a, t, t', ⟨⟨ins, hi, hop, htv, by rw [if_pos h0, hmeta]; rfl⟩, ht, hrest⟩,
        rfl⟩)))
    · rename_i h0
      simp only [Option.bind_eq_some_iff] at he
      obtain ⟨tv, htv, mv, hmv, he⟩ := he
      obtain ⟨a, t, t', rfl, ht, hrest, hmeta, rfl⟩ := evalFstore_eq he
      exact .inr (.inr (.inr (.inr ⟨a, t, t', ⟨⟨ins, hi, hop, htv, by rw [if_neg h0, hmeta, hmv]; rfl⟩, ht, hrest⟩,
        rfl⟩)))
  · obtain ⟨t, -, w, hw, he⟩ := he
    rw [World.alloc] at hw
    split at hw
    · rename_i hnone
      cases hw
      cases he
      exact .inr (.inl ⟨_, t, Option.isNone_iff_eq_none.mp hnone, rfl⟩)
    · cases hw
  · obtain ⟨tv, -, t, -, w, hw, he⟩ := he
    rw [World.alloc] at hw
    split at hw
    · rename_i hnone
      cases hw
      cases he
      exact .inr (.inl ⟨_, _, Option.isNone_iff_eq_none.mp hnone, rfl⟩)
    · cases hw

end Tables

/-! ### Frame and store lemmas -/

section Frame
variable {H : Type} {R : Runtime H} {buf : IrBuf} {m m' : Machine H} {loc : Loc}

theorem content_update_ne {w w' : World H} {a : ℕ} {t : Option LuaTable}
    (hw : w'.tables = Function.update w.tables a t) (h : loc.table ≠ a) : content w' loc = content w loc := by
  rw [content, content, hw, Function.update_of_ne h]

theorem content_update {w w' : World H} {a : ℕ} {t : LuaTable}
    (hw : w'.tables = Function.update w.tables a (some t)) (h : loc.table = a) :
    content w' loc = loc.read t := by
  subst h
  rw [content, hw, Function.update_self, Option.bind_some]

/-- A table that exists stays. -/
theorem Next.exists_table (h : Next R buf m m') {a : ℕ} (ha : (m.world.tables a).isSome) :
    (m'.world.tables a).isSome := by
  have hupd : ∀ b (t : LuaTable), ((Function.update m.world.tables b (some t)) a).isSome := by
    intro b t
    by_cases hb : a = b
    · subst hb; simp
    · rwa [Function.update_of_ne hb]
  obtain hw | ⟨b, t, -, hw⟩ | ⟨b, t, i, v, -, hw⟩ | ⟨b, t, t', -, hw⟩ | ⟨b, t, t', -, hw⟩ := h.tables
  · rwa [hw]
  all_goals rw [hw]; exact hupd _ _

/-- The frame rule: an instruction leaves a location alone that it does not touch. -/
theorem Next.frame (h : Next R buf m m') (ha : (m.world.tables loc.table).isSome)
    (ht : touches buf m loc = false) : content m'.world loc = content m.world loc := by
  obtain hw | ⟨b, t, hb, hw⟩ | ⟨b, t, i, v, hs, hw⟩ | ⟨b, t, t', hs, hw⟩ | ⟨b, t, t', hs, hw⟩ := h.tables
  · rw [content, content, hw]
  · refine content_update_ne hw ?_
    rintro rfl
    rw [hb] at ha
    cases ha
  · by_cases hb : loc.table = b
    · subst hb
      obtain ⟨ins, kv, hi, hop, htv, hkv, hk, -⟩ := hs.exists_ins
      rw [content_update hw rfl, content, hs.table, Option.bind_some]
      cases loc with
      | metatable a => rfl
      | slot a j =>
        have hne : i.toNat ≠ j := by
          rintro rfl
          rw [touches, hi] at ht
          simp [hop, htv, hkv, hk, Loc.table] at ht
          have := hs.pos
          omega
        simp only [Loc.read, arraySlot]
        rw [List.getElem?_set_ne hne]
    · exact content_update_ne hw hb
  · by_cases hb : loc.table = b
    · subst hb
      obtain ⟨ins, kv, k, v, hi, hop, htv, -, -, -, hset⟩ := hs.exists_ins
      rw [content_update hw rfl, content, hs.table, Option.bind_some]
      cases loc with
      | metatable a =>
        simp only [Loc.read, metaValue]
        rw [tset_metatable hset]
      | slot a j =>
        rw [touches, hi] at ht
        simp [hop, htv, Loc.table] at ht
    · exact content_update_ne hw hb
  · by_cases hb : loc.table = b
    · subst hb
      obtain ⟨ins, hi, hop, htv, -⟩ := hs.exists_ins
      rw [content_update hw rfl, content, hs.table, Option.bind_some]
      cases loc with
      | metatable a =>
        rw [touches, hi] at ht
        simp [hop, htv, Loc.table] at ht
      | slot a j =>
        rw [hs.rest]
        rfl
    · exact content_update_ne hw hb

/-- A store that touches a location leaves there what it stores. -/
theorem Next.content_stored (h : Next R buf m m') (ht : touches buf m loc = true) :
    content m'.world loc = stored R buf m loc := by
  obtain ⟨-, ins, e, hi, he, hl, hm'⟩ := h
  rw [touches, hi, Option.any_some] at ht
  rw [stored, hi]
  cases loc with
  | slot a j =>
    have hcases : ins.op = .astore ∨ ins.op = .hstore := by
      rcases ins with ⟨op, t, op1, op2, prev⟩
      cases op <;> first | exact .inl rfl | exact .inr rfl | cases ht
    rcases hcases with hop | hop <;> simp only [hop, Bool.and_eq_true, decide_eq_true_eq] at ht <;>
      simp only [evalIns, hop, Option.bind_eq_bind, Option.bind_eq_some_iff] at he
    · obtain ⟨kv, hkv, tv, htv, k, hk, v, hv, he⟩ := he
      obtain ⟨b, t, i, rfl, htab, hki, hpos, hlt, hlen, rfl⟩ := evalAstore_eq he hl
      rw [htv, hkv, Option.any_some, hk, Option.bind_some, hki] at ht
      obtain ⟨hab, hij⟩ := ht
      obtain rfl : b = a := by simpa using hab
      obtain rfl : i = (j : ℤ) := by simpa using hij
      have hw : m'.world.tables = Function.update m.world.tables b (some { t with array := t.array.set j v }) := by
        rw [hm']; rfl
      rw [content_update hw rfl]
      simp only [Option.bind_eq_bind, Option.bind_some, hop, hkv, hv, Loc.read, arraySlot]
      rw [if_pos (by simpa using hlt), List.getElem?_set_self (by simpa using hlen)]
    · obtain ⟨kv, hkv, tv, htv, k, hk, v, hv, he⟩ := he
      obtain ⟨b, t, t', rfl, htab, hset, rfl⟩ := evalHstore_eq he
      rw [htv] at ht
      obtain rfl : b = a := by simpa using ht
      have hw : m'.world.tables = Function.update m.world.tables b (some t') := by rw [hm']; rfl
      rw [content_update hw rfl]
      simp only [Option.bind_eq_bind, Option.bind_some, hop, hkv, hv, hk, htab, hset, Loc.read]
  | metatable a =>
    have hop : ins.op = .fstore := by
      rcases ins with ⟨op, t, op1, op2, prev⟩
      cases op <;> first | rfl | cases ht
    simp only [hop, decide_eq_true_eq] at ht
    simp only [evalIns, hop, ht, Option.bind_eq_bind, Option.bind_some] at he
    simp only [Option.bind_eq_bind, Option.bind_some, hop]
    split at he
    · rename_i h0
      obtain ⟨b, t, t', hb, -, -, hmeta, rfl⟩ := evalFstore_eq he
      have hw : m'.world.tables = Function.update m.world.tables b (some t') := by rw [hm']; rfl
      rw [content_update hw (by cases hb; rfl), if_pos h0, Loc.read, hmeta]
      rfl
    · rename_i h0
      simp only [Option.bind_eq_some_iff] at he
      obtain ⟨mv, hmv, he⟩ := he
      obtain ⟨b, t, t', hb, -, -, hmeta, rfl⟩ := evalFstore_eq he
      have hw : m'.world.tables = Function.update m.world.tables b (some t') := by rw [hm']; rfl
      rw [content_update hw (by cases hb; rfl), if_neg h0, Loc.read, hmeta, hmv]
      rfl

end Frame
end LuajitRs.Ir
