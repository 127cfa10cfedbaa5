import LuajitRs.Jit.Frame

/-! Store-to-load forwarding. A load takes the value of the nearest store through the same table and key
references; nothing looks at stores through other references that denote the same table. A forwarded value
is right exactly when the last store that touches the loaded location left that value there. -/
namespace LuajitRs.Ir

/-- A successful backward scan: the store and the forwarded value. -/
structure FwdStore where
  storeIns : ℕ
  val : ℕ
  deriving DecidableEq, Repr

namespace IrBuf
variable (buf : IrBuf)

/-- The scan for an array store from the `k`-th instruction down; the outer `none` is a panic. -/
def findMatchingStoreFrom (tab key : ℕ) : ℕ → Option (Option FwdStore)
  | 0 => some none
  | k+1 => do
    let r := REF_BIAS + (k+1)
    let ins ← buf.ir r
    match ins.op with
    | .astore =>
      if ins.op1 = tab then
        let carg ← buf.ir ins.op2
        -- Stores to other indices of the same table are passed over.
        if carg.op1 = key then some (some ⟨r, carg.op2⟩) else findMatchingStoreFrom tab key k
      else findMatchingStoreFrom tab key k
    | .hstore => if ins.op1 = tab then some none else findMatchingStoreFrom tab key k
    | .loop => some none
    | .calll => if ins.op1 = tab then some none else findMatchingStoreFrom tab key k
    | _ => findMatchingStoreFrom tab key k

def findMatchingStore (tab key : ℕ) : Option (Option FwdStore) :=
  buf.findMatchingStoreFrom tab key (buf.ins.length - 1)

/-- The scan for a metatable store, which takes the operand for a `CARG` of field and value. -/
def findMatchingFstoreFrom (obj fid : ℕ) : ℕ → Option (Option FwdStore)
  | 0 => some none
  | k+1 => do
    let r := REF_BIAS + (k+1)
    let ins ← buf.ir r
    match ins.op with
    | .fstore =>
      if ins.op1 = obj then
        let carg ← buf.ir ins.op2
        if carg.op1 = fid then some (some ⟨r, carg.op2⟩) else findMatchingFstoreFrom obj fid k
      else findMatchingFstoreFrom obj fid k
    | .loop => some none
    | .calll => if ins.op1 = obj then some none else findMatchingFstoreFrom obj fid k
    | _ => findMatchingFstoreFrom obj fid k

def findMatchingFstore (obj fid : ℕ) : Option (Option FwdStore) :=
  buf.findMatchingFstoreFrom obj fid (buf.ins.length - 1)

/-- Forward a load from a preceding store. -/
def tryFwd (fins : IRIns) : Option (Option FwdStore) :=
  match fins.op with
  | .aload => buf.findMatchingStore fins.op1 fins.op2
  | .fload => buf.findMatchingFstore fins.op1 fins.op2
  | _ => some none

/-- An array load of the same references among the instructions from `r` up, of which there are `k`. -/
def loadBetween (tab key : ℕ) : ℕ → ℕ → Option Bool
  | 0, _ => some false
  | k+1, r => do
    let ins ← buf.ir r
    if ins.op = .aload ∧ ins.op1 = tab ∧ ins.op2 = key then some true else loadBetween tab key k (r + 1)

/-- Remove the store that an array store overwrites. -/
def tryDse (fins : IRIns) : Option IrBuf :=
  if fins.op = .astore then do
    let carg ← buf.ir fins.op2
    match ← buf.findMatchingStore fins.op1 carg.op1 with
    | some fwd =>
      if ← buf.loadBetween fins.op1 carg.op1 (buf.nins - (fwd.storeIns + 1)) (fwd.storeIns + 1) then some buf
      else some (buf.modify fwd.storeIns .setNop)
    | none => some buf
  else some buf

/-- `opt_fold` on an instruction with an effect: the buffer and the resulting reference. -/
def foldMem (fins : IRIns) : Option (IrBuf × ℕ) :=
  match fins.op.kind with
  | .l => do
    match ← buf.tryFwd fins with
    | some fwd =>
      let _ ← buf.ir fwd.val
      pure (buf, fwd.val)
    | none => pure (buf.emitIns fins)
  | .s => do
    let buf ← buf.tryDse fins
    pure (buf.emitIns fins)
  | _ => some (buf.emitIns fins)

end IrBuf

/-! ### What the scans find -/

section Scan
variable {buf : IrBuf} {tab key : ℕ} {fwd : FwdStore}

/-- An instruction that the scan passes over. -/
def Passes (buf : IrBuf) (tab key : ℕ) (ins : IRIns) : Prop :=
  ins.op ≠ .loop ∧ (ins.op = .hstore → ins.op1 ≠ tab) ∧ (ins.op = .calll → ins.op1 ≠ tab) ∧
    ∀ carg, ins.op = .astore → ins.op1 = tab → buf.ir ins.op2 = some carg → carg.op1 ≠ key

/-- The store that the scan finds, and what it passed on the way. -/
structure FoundStore (buf : IrBuf) (tab key k : ℕ) (fwd : FwdStore) : Prop where
  lo : REF_BIAS < fwd.storeIns
  hi : fwd.storeIns ≤ REF_BIAS + k
  store : ∃ ins carg, buf.ir fwd.storeIns = some ins ∧ ins.op = .astore ∧ ins.op1 = tab ∧
    buf.ir ins.op2 = some carg ∧ carg.op1 = key ∧ carg.op2 = fwd.val
  passed : ∀ r ins, fwd.storeIns < r → r ≤ REF_BIAS + k → buf.ir r = some ins → Passes buf tab key ins

theorem findMatchingStoreFrom_spec {k : ℕ} (h : buf.findMatchingStoreFrom tab key k = some (some fwd)) :
    FoundStore buf tab key k fwd := by
  induction k with
  | zero => cases h
  | succ k ih =>
    rw [IrBuf.findMatchingStoreFrom, Option.bind_eq_bind, Option.bind_eq_some_iff] at h
    obtain ⟨ins, hi, h⟩ := h
    -- The scan goes on: the instruction passed is added to those below.
    have next : buf.findMatchingStoreFrom tab key k = some (some fwd) → Passes buf tab key ins →
        FoundStore buf tab key (k+1) fwd := by
      intro hk hp
      have hf := ih hk
      refine ⟨hf.lo, hf.hi.trans (by omega), hf.store, ?_⟩
      intro r ins' hr hr' hi'
      rcases Nat.lt_or_ge r (REF_BIAS + k + 1) with hlt | hge
      · exact hf.passed r ins' hr (by omega) hi'
      · obtain rfl : r = REF_BIAS + (k+1) := by omega
        rw [hi, Option.some.injEq] at hi'
        subst hi'
        exact hp
    split at h
    · rename_i hop
      split at h
      · rename_i h1
        simp only [Option.bind_eq_some_iff] at h
        obtain ⟨carg, hc, h⟩ := h
        split at h
        · rename_i h2
          cases h
          refine ⟨by simp, le_rfl, ⟨ins, carg, hi, hop, h1, hc, h2, rfl⟩, ?_⟩
          intro r _ hr hr'
          simp only at hr
          omega
        · rename_i h2
          refine next h ⟨by simp [hop], by simp [hop], by simp [hop], ?_⟩
          intro carg' _ _ hc'
          rw [hc, Option.some.injEq] at hc'
          rw [← hc']
          exact h2
      · rename_i h1
        exact next h ⟨by simp [hop], by simp [hop], by simp [hop], fun _ _ h' => absurd h' h1⟩
    · rename_i hop
      split at h
      · cases h
      · rename_i h1
        refine next h ⟨by simp [hop], fun _ => h1, by simp [hop], ?_⟩
        intro _ h'
        rw [hop] at h'
        cases h'
    · cases h
    · rename_i hop
      split at h
      · cases h
      · rename_i h1
        refine next h ⟨by simp [hop], by simp [hop], fun _ => h1, ?_⟩
        intro _ h'
        rw [hop] at h'
        cases h'
    · rename_i h1 h2 h3 h4
      exact next h ⟨h3, fun h' => absurd h' h2, fun h' => absurd h' h4, fun _ h' => absurd h' h1⟩

/-- The metatable store that the scan finds. -/
structure FoundFstore (buf : IrBuf) (obj k : ℕ) (fwd : FwdStore) : Prop where
  lo : REF_BIAS < fwd.storeIns
  hi : fwd.storeIns ≤ REF_BIAS + k
  store : ∃ ins, buf.ir fwd.storeIns = some ins ∧ ins.op = .fstore ∧ ins.op1 = obj

theorem findMatchingFstoreFrom_spec {obj fid k : ℕ} (h : buf.findMatchingFstoreFrom obj fid k = some (some fwd)) :
    FoundFstore buf obj k fwd := by
  induction k with
  | zero => cases h
  | succ k ih =>
    rw [IrBuf.findMatchingFstoreFrom, Option.bind_eq_bind, Option.bind_eq_some_iff] at h
    obtain ⟨ins, hi, h⟩ := h
    have next : buf.findMatchingFstoreFrom obj fid k = some (some fwd) → FoundFstore buf obj (k+1) fwd := by
      intro hk
      have hf := ih hk
      exact ⟨hf.lo, hf.hi.trans (by omega), hf.store⟩
    split at h
    · rename_i hop
      split at h
      · rename_i h1
        simp only [Option.bind_eq_some_iff] at h
        obtain ⟨carg, -, h⟩ := h
        split at h
        · cases h
          exact ⟨by simp, le_rfl, ins, hi, hop, h1⟩
        · exact next h
      · exact next h
    · cases h
    · split at h
      · cases h
      · exact next h
    · exact next h

end Scan

/-! ### Forwarding -/

section Forward
variable {H : Type} {R : Runtime H} {buf : IrBuf} {m c : Machine H} {loc : Loc}

/-- No instruction from `c` to the end of the run touches the location. -/
def Untouched (R : Runtime H) (buf : IrBuf) (loc : Loc) (c m : Machine H) : Prop :=
  ∀ d, Straight R buf c d → d.r < m.r → touches buf d loc = false

/-- An untouched location keeps its content. -/
theorem untouched_content (hrun : Straight R buf c m) (ha : (c.world.tables loc.table).isSome)
    (hu : Untouched R buf loc c m) : content m.world loc = content c.world loc := by
  induction hrun using Relation.ReflTransGen.head_induction_on with
  | refl => rfl
  | @head b d hn hd ih =>
    have hlt : b.r < m.r := by
      have := Straight.r_le hd
      rw [hn.r] at this
      omega
    rw [← hn.frame ha (hu b .refl hlt)]
    exact ih (hn.exists_table ha) fun e he hr => hu e (Relation.ReflTransGen.head hn he) hr

/-- The last instruction of a run that touches a location, with the state after it. -/
structure LastTouch (R : Runtime H) (buf : IrBuf) (loc : Loc) (m₀ m c d : Machine H) : Prop where
  reach : Straight R buf m₀ c
  touch : touches buf c loc = true
  step : Next R buf c d
  rest : Straight R buf d m
  untouched : Untouched R buf loc d m

/-- A run either leaves a location untouched or has a last instruction that touches it. -/
theorem lastTouch_or_untouched (hrun : Straight R buf c m) :
    Untouched R buf loc c m ∨ ∃ b d, LastTouch R buf loc c m b d := by
  induction hrun using Relation.ReflTransGen.head_induction_on with
  | refl =>
    refine .inl fun d hd hr => absurd hr (not_lt.mpr (Straight.r_le hd))
  | @head b d hn hd ih =>
    rcases ih with hu | ⟨b', d', hl⟩
    · cases ht : touches buf b loc with
      | true => exact .inr ⟨b, d, .refl, ht, hn, hd, hu⟩
      | false =>
        refine .inl fun e he hr => ?_
        rcases Relation.ReflTransGen.cases_head he with rfl | ⟨f, hf, hfe⟩
        · exact ht
        · rw [hf.unique hn] at hfe
          exact hu e hfe hr
    · exact .inr ⟨b', d', Relation.ReflTransGen.head hn hl.reach, hl.touch, hl.step, hl.rest, hl.untouched⟩

theorem touched_table (hn : Next R buf c m) (ht : touches buf c loc = true) :
    (m.world.tables loc.table).isSome := by
  obtain ⟨-, ins, e, hi, he, hl, rfl⟩ := hn
  have hself : ∀ (w : World H) (t : LuaTable), ((w.setTable loc.table t).tables loc.table).isSome := by
    intro w t
    simp [World.setTable]
  rw [touches, hi, Option.any_some] at ht
  rcases ins with ⟨op, t, op1, op2, prev⟩
  cases loc <;> cases op <;> first | (cases ht; done) | skip
  · simp only [Bool.and_eq_true, decide_eq_true_eq] at ht
    simp only [evalIns, ht.1, Option.bind_eq_bind, Option.bind_some, Option.bind_eq_some_iff] at he
    obtain ⟨kv, -, k, -, v, -, he⟩ := he
    obtain ⟨b, t', i, hb, -, -, -, -, -, rfl⟩ := evalAstore_eq he hl
    cases hb
    exact hself _ _
  · simp only [decide_eq_true_eq] at ht
    simp only [evalIns, ht, Option.bind_eq_bind, Option.bind_some, Option.bind_eq_some_iff] at he
    obtain ⟨kv, -, k, -, v, -, he⟩ := he
    obtain ⟨b, t', t'', hb, -, -, rfl⟩ := evalHstore_eq he
    cases hb
    exact hself _ _
  · simp only [decide_eq_true_eq] at ht
    simp only [evalIns, ht, Option.bind_eq_bind, Option.bind_some] at he
    split at he
    · obtain ⟨b, t', t'', hb, -, -, -, rfl⟩ := evalFstore_eq he
      cases hb
      exact hself _ _
    · simp only [Option.bind_eq_some_iff] at he
      obtain ⟨mv, -, he⟩ := he
      obtain ⟨b, t', t'', hb, -, -, -, rfl⟩ := evalFstore_eq he
      cases hb
      exact hself _ _

/-- The content of a location at the end is what the last touching instruction stored. -/
theorem LastTouch.content {m₀ d : Machine H} (h : LastTouch R buf loc m₀ m c d) :
    Ir.content m.world loc = stored R buf c loc := by
  rw [untouched_content h.rest (touched_table h.step h.touch) h.untouched, h.step.content_stored h.touch]

/-! ### Loads -/

/-- A load that yields a value yields the content of a location. -/
theorem load_val {ins : IRIns} {e : Effect H} {v : LuaValue} (hop : ins.op = .aload ∨ ins.op = .fload)
    (he : evalIns R buf m ins = some e) (hv : e.val = some v) :
    ∃ loc, loadLoc buf m ins = some loc ∧ content m.world loc = some v := by
  rcases hop with hop | hop <;> simp only [evalIns, hop, Option.bind_eq_bind, Option.bind_eq_some_iff] at he
  · obtain ⟨tv, htv, kv, hkv, he⟩ := he
    simp only [evalAload, Option.bind_eq_bind, Option.bind_eq_some_iff] at he
    obtain ⟨p, hp, he⟩ := he
    obtain ⟨rfl, ht⟩ := table_eq_some hp
    split at he
    · rename_i ki hk
      split at he
      · rename_i hr
        simp only [Option.bind_eq_some_iff, Option.pure_def, Option.some.injEq] at he
        obtain ⟨x, hx, rfl⟩ := he
        obtain rfl : x = v := Option.some.inj hv
        refine ⟨.slot p.1 ki.toNat, ?_, ?_⟩
        · simp [loadLoc, htv, hop, hkv, hk, hr.1, LuaValue.asTable]
        · simp [content, Loc.table, ht, Loc.read, arraySlot, hr.2, hx]
      · cases he; cases hv
    · cases he; cases hv
  · obtain ⟨tv, htv, he⟩ := he
    simp only [evalFload, Option.bind_eq_bind, Option.bind_eq_some_iff] at he
    obtain ⟨p, hp, he⟩ := he
    obtain ⟨rfl, ht⟩ := table_eq_some hp
    split at he
    · cases he
      refine ⟨.metatable p.1, ?_, ?_⟩
      · simp [loadLoc, htv, hop, LuaValue.asTable]
      · simpa [content, Loc.table, ht, Loc.read, Effect.check] using hv
    · cases he; cases hv

/-- The found array store writes the slot that the load reads, and it writes the forwarded value. -/
theorem FoundStore.hits {fins : IRIns} {fwd : FwdStore} {k : ℕ} {d : Machine H} (hs : buf.SSA)
    (hf : FoundStore buf fins.op1 fins.op2 k fwd) (hop : fins.op = .aload) (hl : loadLoc buf m fins = some loc)
    (hn : Next R buf c d) (hr : c.r = fwd.storeIns) (hcm : Straight R buf c m) :
    touches buf c loc = true ∧ stored R buf c loc = readRef buf m.env fwd.val := by
  obtain ⟨ins, kv, hi, hop', h1, hc, hkey, hval⟩ := hf.store
  obtain ⟨-, ins', e, hi', he, -⟩ := hn
  have hcr := hi
  rw [← hr] at hcr
  rw [hcr, Option.some.injEq] at hi'
  subst hi'
  simp only [evalIns, hop', Option.bind_eq_bind, Option.bind_eq_some_iff] at he
  obtain ⟨kv', hkv, -⟩ := he
  obtain rfl : kv' = (kv.op1, kv.op2) := by
    rw [carg, hc] at hkv
    have hkv : kv.op = .carg ∧ kv' = (kv.op1, kv.op2) := by simpa [eq_comm] using hkv
    exact hkv.2
  -- The operands lie below the store, so they have at the load the values that the store used.
  have hlo := hf.lo
  have hb := ssa_ir hs (by omega) hi
  have hbk := ssa_carg hs hkv
  have htab := hcm.readRef_eq (r := ins.op1) (by omega)
  have hkey' := hcm.readRef_eq (r := kv.op1) (by omega)
  have hval' := hcm.readRef_eq (r := kv.op2) (by omega)
  rw [h1] at htab
  rw [hkey] at hkey'
  simp only [loadLoc, hop, Option.bind_eq_bind, Option.bind_eq_some_iff] at hl
  obtain ⟨tv, htv, a, ha, kval, hkval, j, hj, hl⟩ := hl
  cases tv <;> first | (cases ha; done) | skip
  obtain rfl : _ = a := Option.some.inj ha
  split at hl
  · rename_i hj0
    cases hl
    refine ⟨?_, ?_⟩
    · rw [touches, hcr]
      simp only [Option.any_some, hop', h1, ← htab, htv, hkv, hkey, ← hkey', hkval, Option.bind_some, hj]
      simp [hj0]
    · rw [stored, hcr]
      rw [hval] at hval'
      simp only [Option.bind_eq_bind, Option.bind_some, hop', hkv, hval, hval']
  · cases hl

/-- The found metatable store writes the field that the load reads. -/
theorem FoundFstore.hits {fins : IRIns} {fwd : FwdStore} {k : ℕ} (hs : buf.SSA)
    (hf : FoundFstore buf fins.op1 k fwd) (hop : fins.op = .fload) (hl : loadLoc buf m fins = some loc)
    (hr : c.r = fwd.storeIns) (hcm : Straight R buf c m) : touches buf c loc = true := by
  obtain ⟨ins, hi, hop', h1⟩ := hf.store
  have hcr := hi
  rw [← hr] at hcr
  have hlo := hf.lo
  have hb := ssa_ir hs (by omega) hi
  have htab := hcm.readRef_eq (r := ins.op1) (by omega)
  rw [h1] at htab
  simp only [loadLoc, hop, Option.bind_eq_bind, Option.bind_eq_some_iff] at hl
  obtain ⟨tv, htv, a, ha, hl⟩ := hl
  cases tv <;> first | (cases ha; done) | skip
  obtain rfl : _ = a := Option.some.inj ha
  cases hl
  rw [touches, hcr]
  simp [hop', h1, ← htab, htv]

/-- The last store to the loaded location is the found array store, or it stores the forwarded value all
the same. -/
def NotOverwritten (R : Runtime H) (buf : IrBuf) (fins : IRIns) (fwd : FwdStore) (m₀ m : Machine H) : Prop :=
  ∀ loc c d, loadLoc buf m fins = some loc → LastTouch R buf loc m₀ m c d →
    (fins.op = .aload ∧ c.r = fwd.storeIns) ∨ stored R buf c loc = readRef buf m.env fwd.val

theorem tryFwd_op {fins : IRIns} {fwd : FwdStore} (hf : buf.tryFwd fins = some (some fwd)) :
    (fins.op = .aload ∧ FoundStore buf fins.op1 fins.op2 (buf.ins.length - 1) fwd) ∨
    (fins.op = .fload ∧ FoundFstore buf fins.op1 (buf.ins.length - 1) fwd) := by
  rw [IrBuf.tryFwd] at hf
  split at hf
  · rename_i hop
    exact .inl ⟨hop, findMatchingStoreFrom_spec hf⟩
  · rename_i hop
    exact .inr ⟨hop, findMatchingFstoreFrom_spec hf⟩
  · cases hf

/-- The found store is executed on the way to the load, and it writes the loaded location. -/
theorem found_touches {fins : IRIns} {fwd : FwdStore} {m₀ : Machine H} (hs : buf.SSA)
    (hf : buf.tryFwd fins = some (some fwd)) (hrun : Straight R buf m₀ m) (h0 : m₀.r = REF_FIRST)
    (hm : m.r = buf.nins) (hl : loadLoc buf m fins = some loc) :
    ∃ c, Straight R buf m₀ c ∧ Straight R buf c m ∧ c.r < m.r ∧ touches buf c loc = true := by
  have hrange : REF_BIAS < fwd.storeIns ∧ fwd.storeIns ≤ REF_BIAS + (buf.ins.length - 1) := by
    rcases tryFwd_op hf with ⟨-, h⟩ | ⟨-, h⟩ <;> exact ⟨h.lo, h.hi⟩
  have hn : buf.nins = REF_BIAS + buf.ins.length := rfl
  have hfirst : REF_FIRST = REF_BIAS + 1 := rfl
  obtain ⟨c, hc, hr, hcm⟩ := hrun.at (s := fwd.storeIns) (by omega) (by omega)
  refine ⟨c, hc, hcm, by omega, ?_⟩
  obtain ⟨d, hd, -⟩ := Straight.head hcm (by omega)
  rcases tryFwd_op hf with ⟨hop, h⟩ | ⟨hop, h⟩
  · exact (h.hits hs hop hl hd hr hcm).1
  · exact h.hits hs hop hl hr hcm

end Forward

section Example

/-- `t1[1] = 10; t2[1] = 20`, for the tables in two stack slots. -/
def twoTables : IrBuf :=
  let (buf, one) := (IrBuf.new 0 0).knum (.ofInt 1)
  let (buf, ten) := buf.knum (.ofInt 10)
  let (buf, twenty) := buf.knum (.ofInt 20)
  let (buf, t1) := buf.emitIns (.new .sload (guarded .tab) 2 0)
  let (buf, t2) := buf.emitIns (.new .sload (guarded .tab) 3 0)
  let (buf, kv) := buf.emitIns (.new .carg (plain .nil) one ten)
  let (buf, _) := buf.emitIns (.new .astore (plain .nil) t1 kv)
  let (buf, kv) := buf.emitIns (.new .carg (plain .nil) one twenty)
  (buf.emitIns (.new .astore (plain .nil) t2 kv)).1

/-- The load `t1[1]`. -/
def loadFirst : IRIns := .new .aload (guarded .num) REF_FIRST (REF_BIAS - 4)

/-- The store to `t1` and its value. -/
def storedFirst : FwdStore := ⟨REF_FIRST + 3, REF_BIAS - 5⟩

/-- The entry with the table `a` in the first slot and table 0 in the others. -/
def entryTables (a : ℕ) : Machine Unit where
  r := REF_FIRST
  env _ := .num .zero
  world := ⟨fun s => .tab (if s = 2 then a else 0), fun _ => (LuaTable.new 4 0).toOption, ()⟩
  cbase := 2
  clock := 0

theorem twoTables_ssa : twoTables.SSA := ⟨by decide, by decide⟩

/-- The run up to the load. -/
theorem twoTables_run (a : ℕ) (h : (advance .bare twoTables 6 (entryTables a)).isSome) :
    ∃ m, advance .bare twoTables 6 (entryTables a) = some m ∧ Straight .bare twoTables (entryTables a) m ∧
      m.r = twoTables.nins := by
  obtain ⟨m, hm⟩ := Option.isSome_iff_exists.mp h
  refine ⟨m, hm, advance_straight hm, ?_⟩
  rw [advance_r hm]
  change REF_FIRST + 6 = twoTables.nins
  decide

end Example
end LuajitRs.Ir
