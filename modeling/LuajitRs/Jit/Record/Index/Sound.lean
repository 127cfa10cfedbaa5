import LuajitRs.Jit.Record.Index.Guards

/-! When a recorded table access is that of the interpreter in every later heap: the recorder's branches, what
each of them emits, and the accesses whose guards pin everything that the interpreter looks at. -/
namespace LuajitRs.Ir
open Vm LuajitRs.LuaTable

/-! ### What is emitted -/

namespace IrBuf
variable {b c : IrBuf} {n : ℕ} {es : List IRIns}

theorem chain_eq_kgc (hb : b.Ready (n + 1)) (v : LuaValue) (ty : IRTy) : (b.kgc v ty).1.chain .eq = b.chain .eq :=
  (intern_spec (.inl rfl) hb.consts (by have := hb.room; omega) ty).2.2.2.2.2.2

theorem nins_kgc (hb : b.Ready (n + 1)) (v : LuaValue) (ty : IRTy) : (b.kgc v ty).1.nins = b.nins :=
  (Grows.intern (.inl rfl) hb v ty).nins

theorem kgc_const (hb : b.Ready (n + 1)) (v : LuaValue) (ty : IRTy) :
    (b.kgc v ty).2 < REF_BIAS ∧ (b.kgc v ty).1.constBits (b.kgc v ty).2 = some v := by
  obtain ⟨-, -, -, hbits, hlt, -⟩ := intern_spec (.inl rfl) (v := v) hb.consts (by have := hb.room; omega) ty
  exact ⟨hlt, hbits⟩

/-- A guarded load, and the comparison of its result with a constant. -/
theorem loadEq_grows (hb : b.Ready (n + 1)) (ins : IRIns) (hop : ins.op ≠ .eq) (hconst : ins.op.isConst = false)
    (hp : ins.prev = 0) (v : LuaValue) (ty : IRTy) :
    let b₁ := (b.emitIns ins).1
    let p := b₁.kgc v ty
    let c := (p.1.emitEq ty b.nins p.2).1
    c.Ready n ∧ ∃ k, k < REF_BIAS ∧ c.constBits k = some v ∧ b.Grows c [ins, .new .eq (guarded ty) b.nins k] := by
  have hb₁ : (b.emitIns ins).1.Ready (n + 1) := hb.emitIns hconst
  have heq : ((b.emitIns ins).1.kgc v ty).1.chain .eq ≤ b.nins := by
    rw [chain_eq_kgc hb₁, chain_eq_emitIns b hop]
    exact hb.eqs.le
  have hg := (Grows.emitIns (b := b) ins hp).trans (Grows.intern (.inl rfl) hb₁ v ty)
  obtain ⟨hlt, hbits⟩ := kgc_const hb₁ v ty
  dsimp only
  rw [emitEq_eq heq]
  have hge := Grows.emitIns (b := ((b.emitIns ins).1.kgc v ty).1)
    (.new .eq (guarded ty) b.nins ((b.emitIns ins).1.kgc v ty).2) rfl
  exact ⟨(Ready.intern (.inl rfl) hb₁ v ty).emitIns rfl, _, hlt, hge.keeps _ _ hbits, hg.trans hge⟩

theorem pinMeta_grows (hb : b.Ready (n + 1)) (tab : TRef) (mt : ℕ) :
    (b.pinMeta tab mt).1.Ready n ∧ (b.pinMeta tab mt).2 = b.nins ∧
      ∃ k, k < REF_BIAS ∧ (b.pinMeta tab mt).1.constBits k = some (.tab mt) ∧
        b.Grows (b.pinMeta tab mt).1
          [.new .fload (guarded .tab) tab.ref IRFL_TAB_META, .new .eq (guarded .tab) b.nins k] := by
  obtain ⟨hr, hk⟩ := loadEq_grows hb (.new .fload (guarded .tab) tab.ref IRFL_TAB_META)
    (by simp [IRIns.new]) rfl rfl (.tab mt) .tab
  exact ⟨hr, rfl, hk⟩

theorem pinMethod_grows (hb : b.Ready (n + 2)) (mtLoad : ℕ) (name mm : LuaValue) :
    (b.pinMethod mtLoad name mm).Ready n ∧
      ∃ kr mr, kr < REF_BIAS ∧ (b.pinMethod mtLoad name mm).constBits kr = some name ∧ mr < REF_BIAS ∧
        (b.pinMethod mtLoad name mm).constBits mr = some mm ∧
        b.Grows (b.pinMethod mtLoad name mm)
          [.new .hload (guarded .func) mtLoad kr, .new .eq (guarded .func) b.nins mr] := by
  obtain ⟨hlt, hbits⟩ := kgc_const (n := n + 1) hb name .str
  have hb₁ : (b.kgc name .str).1.Ready (n + 1) := Ready.intern (.inl rfl) hb name .str
  obtain ⟨hr, mr, hmr, hmbits, hg⟩ := loadEq_grows hb₁ (.new .hload (guarded .func) mtLoad (b.kgc name .str).2)
    (by simp [IRIns.new]) rfl rfl mm .func
  have hg : (b.kgc name .str).1.Grows (b.pinMethod mtLoad name mm)
      [.new .hload (guarded .func) mtLoad (b.kgc name .str).2,
        .new .eq (guarded .func) (b.kgc name .str).1.nins mr] := hg
  have hgk := Grows.intern (n := n + 1) (.inl rfl) hb name .str
  rw [nins_kgc (n := n + 1) hb name .str] at hg
  exact ⟨hr, _, mr, hlt, hg.keeps _ _ hbits, hmr, hmbits, hgk.trans hg⟩

theorem recGcstep_grows (hb : b.Ready (n + 2)) (total threshold : UInt64) :
    (b.recGcstep total threshold).Ready n ∧
      (b.Grows (b.recGcstep total threshold) [] ∨
        ∃ k k', b.Grows (b.recGcstep total threshold) [.new .gcstep (guarded .nil) k k']) := by
  unfold recGcstep
  split
  · exact ⟨hb.weaken (by omega), .inl (.refl b)⟩
  · have h₁ : (b.kint64 total).1.Ready (n + 1) := Ready.intern (.inr rfl) hb _ _
    have h₂ : ((b.kint64 total).1.kint64 threshold).1.Ready n := Ready.intern (.inr rfl) h₁ _ _
    have hg := (Grows.intern (n := n + 1) (.inr rfl) hb (.num ⟨total⟩) .i64).trans
      (Grows.intern (.inr rfl) h₁ (.num ⟨threshold⟩) .i64)
    exact ⟨h₂.emitIns rfl, .inr ⟨_, _, hg.trans (Grows.emitIns _ rfl)⟩⟩

theorem metaGuard_grows (tab : TRef) :
    b.Grows (b.metaGuard tab) [.new .fload (guarded .nil) tab.ref IRFL_TAB_META] := Grows.emitIns _ rfl

end IrBuf

/-! ### Operands -/

section Operands
variable {b c : IrBuf} {m m' : Machine Bool} {tr : TRef} {v : LuaValue} {n : ℕ}

theorem Denotes.lt {env : ℕ → LuaValue} (hd : Denotes b env tr v) : tr.ref < b.nins := by
  by_cases hr : REF_BIAS ≤ tr.ref
  · obtain ⟨ins, hins, -⟩ := hd.emitted hr
    rw [IrBuf.ir, if_pos hr] at hins
    obtain ⟨hlt, -⟩ := List.getElem?_eq_some_iff.mp hins
    rw [IrBuf.nins]
    omega
  · rw [IrBuf.nins]
    omega

/-- An operand still reads as it did at the start of the instruction. -/
theorem Denotes.read (hd : Denotes b m.env tr v) (hk : b.Keeps c) (hr : m.r = b.nins) (hm : After m m' n) :
    readRef c m'.env tr.ref = some v :=
  hk.readRef hd.reads fun _ => hm.env _ (hr ▸ hd.lt)

theorem valueIrt_num {v : LuaValue} (hv : valueIrt v = .num) : ∃ x, v = .num x := by
  cases v with
  | num x => exact ⟨x, rfl⟩
  | bool b => cases b <;> cases hv
  | _ => cases hv

end Operands
/-! ### The access behind the guards -/

section Access
variable {h : LuaValue → UInt32} {b c : IrBuf} {m m' : Machine Bool} {a : ℕ} {t s : LuaTable} {tab key val : TRef}
  {k keyv v w : LuaValue} {n : ℕ}

/-- What the instructions after the guards do with the machine that the guards left. -/
def finish (h : LuaValue → UInt32) (c : IrBuf) (es : List IRIns) (r : Recorded) (m : Machine Bool) :
    Option (Option (Access × World Bool)) :=
  (runList h c es m).bind fun
    | none => some none
    | some m => (r.outcome c m).map some

/-- The opcode of a recorded load. -/
def loadOp (t : LuaTable) (key : TRef) (keyv : LuaValue) : IROp := if inArray t key keyv 0 then .aload else .hload

def storeOp (t : LuaTable) (key : TRef) (keyv : LuaValue) : IROp := if inArray t key keyv 1 then .astore else .hstore

theorem loadOp_cases (t : LuaTable) (keyv : LuaValue) (hk : key.ty = valueIrt k) :
    loadOp t key keyv = .hload ∨ loadOp t key keyv = .aload ∧ ∃ x, k = .num x := by
  unfold loadOp
  split
  · next hin =>
    simp only [inArray, Bool.and_eq_true, decide_eq_true_eq] at hin
    exact .inr ⟨rfl, valueIrt_num (hk ▸ hin.1)⟩
  · exact .inl rfl

theorem storeOp_cases (t : LuaTable) (keyv : LuaValue) (hk : key.ty = valueIrt k) :
    storeOp t key keyv = .hstore ∨ storeOp t key keyv = .astore ∧ ∃ x, k = .num x := by
  unfold storeOp
  split
  · next hin =>
    simp only [inArray, Bool.and_eq_true, decide_eq_true_eq] at hin
    exact .inr ⟨rfl, valueIrt_num (hk ▸ hin.1)⟩
  · exact .inl rfl

theorem recLoad_grows (b : IrBuf) (t : LuaTable) (tab key : TRef) (keyv v : LuaValue) :
    b.Grows (recLoad b t tab key keyv v).1
      [.new (loadOp t key keyv) (guarded (valueIrt v)) tab.ref key.ref] := IrBuf.Grows.emitIns _ rfl

theorem Ready.recLoad (hb : b.Ready n) : (Ir.recLoad b t tab key keyv v).1.Ready n := by
  refine hb.emitIns ?_
  simp only [IRIns.new]
  split <;> rfl

/-- A recorded load, after its guards: the value of the key, if it has the recorded type. -/
theorem recLoad_outcome (hb : b.Ready n) (hr : m.r = b.nins) {r : Recorded}
    (hrec : (c, r) = recLoad b t tab key keyv v) (htab : readRef c m.env tab.ref = some (.tab a))
    (htt : m.world.tables a = some s) (ch : s.Chained h) (hkey : readRef c m.env key.ref = some k)
    (hty : key.ty = valueIrt k) :
    let es := [IRIns.new (loadOp t key keyv) (guarded (valueIrt v)) tab.ref key.ref]
    (LoadOk (loadOp t key keyv) s k (s.value k.normalizeKey) (valueIrt v) →
        finish h c es r m = some (some (.value (s.value k.normalizeKey), m.world))) ∧
      (¬ LoadOk (loadOp t key keyv) s k (s.value k.normalizeKey) (valueIrt v) → finish h c es r m = some none) := by
  have hfst : c = (recLoad b t tab key keyv v).1 := congrArg Prod.fst hrec
  have hc : c.Ready n := hfst ▸ Ready.recLoad hb
  have hvalue : r = .value (if irtIspri (valueIrt v) then trefPri (valueIrt v) else ⟨b.nins, valueIrt v⟩) :=
    congrArg Prod.snd hrec
  have hge : REF_BIAS ≤ m.r := by
    rw [hr, IrBuf.nins]
    omega
  obtain ⟨m', hm', hpass, hfail⟩ := runList_load htab htt ch hkey (loadOp_cases t keyv hty) (valueIrt v)
  refine ⟨fun hok => ?_, fun hno => by rw [finish, hfail hno]; rfl⟩
  obtain ⟨henv, hrun⟩ := hpass hok
  have hirt := (typecheck_valueIrt _ _).mp hok.1
  have hread : readRef c m'.env
      (if irtIspri (valueIrt v) then trefPri (valueIrt v) else ⟨b.nins, valueIrt v⟩ : TRef).ref =
        some (s.value k.normalizeKey) := by
    split
    · next hp =>
      rw [← hirt] at hp ⊢
      exact readRef_pri hc.consts _ hp
    · rw [← hr, readRef_ins _ hge, henv]
  rw [finish, hrun, runList, runIns, hvalue]
  simp only [Option.bind_some, Recorded.outcome, hm'.world, hread, Option.bind_eq_bind, Option.map_some]

/-- A recorded store: the raw store of the interpreter, unless the collector is due or an array store would not
be one. -/
theorem recStore_outcome (R : Recorder) (hb : b.Ready (n + 2)) {r : Recorded}
    (hrec : (c, r) = R.recStore b t tab key val keyv) :
    ∃ es, b.Grows c es ∧ ∀ m : Machine Bool, m.r = b.nins →
      (∀ m' n', After m m' n' → readRef c m'.env tab.ref = some (.tab a) ∧ readRef c m'.env key.ref = some k ∧
        readRef c m'.env val.ref = some v) →
      m.world.tables a = some s → key.ty = valueIrt k →
      (finish h c es r m = some none ∨ StoreOk (storeOp t key keyv) s k ∧
        finish h c es r m = (rawStore m.world a (tset h s k v)).map some) ∧
      (m.world.rest = false → StoreOk (storeOp t key keyv) s k →
        finish h c es r m = (rawStore m.world a (tset h s k v)).map some) := by
  have hfst : c = (R.recStore b t tab key val keyv).1 := congrArg Prod.fst hrec
  have hsnd : r = .stored := congrArg Prod.snd hrec
  obtain ⟨hb', hgc⟩ := IrBuf.recGcstep_grows hb R.total R.threshold
  let pair : List IRIns := [.new .carg (plain .nil) key.ref val.ref,
    .new (storeOp t key keyv) (plain .nil) tab.ref (b.recGcstep R.total R.threshold).nins]
  have hpair : (b.recGcstep R.total R.threshold).Grows c pair := by
    rw [hfst]
    exact (IrBuf.Grows.emitIns (.new .carg (plain .nil) key.ref val.ref) rfl).trans (IrBuf.Grows.emitIns _ rfl)
  have hcarg := IrBuf.Grows.carg [] hpair
  rw [List.length_nil, Nat.add_zero] at hcarg
  have hstore : ∀ m : Machine Bool, m.r = (b.recGcstep R.total R.threshold).nins →
      readRef c m.env tab.ref = some (.tab a) → readRef c m.env key.ref = some k →
      readRef c m.env val.ref = some v → m.world.tables a = some s → key.ty = valueIrt k →
      (StoreOk (storeOp t key keyv) s k →
          finish h c pair r m = (rawStore m.world a (tset h s k v)).map some) ∧
        (¬ StoreOk (storeOp t key keyv) s k → finish h c pair r m = some none) := by
    intro m hm ht hk hv htt hty
    subst hsnd
    rw [← hm] at hcarg
    have hrun := runList_store (h := h) ht htt hk hv hcarg (storeOp_cases t keyv hty)
    rw [hm] at hrun
    exact hrun
  cases hgc with
  | inl hg =>
    refine ⟨pair, hg.trans hpair, fun m hm hread htt hty => ?_⟩
    obtain ⟨ht, hk, hv⟩ := hread m 0 (.refl m)
    obtain ⟨hpass, hfail⟩ := hstore m (hm.trans (by rw [hg.nins]; rfl)) ht hk hv htt hty
    refine ⟨?_, fun _ hok => hpass hok⟩
    by_cases hok : StoreOk (storeOp t key keyv) s k
    · exact .inr ⟨hok, hpass hok⟩
    · exact .inl (hfail hok)
  | inr hg =>
    obtain ⟨k₁, k₂, hg⟩ := hg
    refine ⟨_, hg.trans hpair, fun m hm hread htt hty => ?_⟩
    obtain ⟨m', hm', hrun⟩ := runList_gcstep (h := h) (c := c) (m := m) k₁ k₂
    obtain ⟨ht, hk, hv⟩ := hread m' 1 hm'
    have hr' : m'.r = (b.recGcstep R.total R.threshold).nins := by
      rw [hm'.r, hm, hg.nins]
      rfl
    obtain ⟨hpass, hfail⟩ := hstore m' hr' ht hk hv (by rw [hm'.world]; exact htt) hty
    rw [hm'.world] at hpass
    have hfin : finish h c ([.new .gcstep (guarded .nil) k₁ k₂] ++ pair) r m =
        if m.world.rest then some none else finish h c pair r m' := by
      rw [finish, List.singleton_append, hrun]
      split <;> rfl
    rw [hfin]
    refine ⟨?_, fun hdue hok => by rw [if_neg (by simp [hdue]), hpass hok]⟩
    by_cases hdue : m.world.rest = true
    · exact .inl (if_pos hdue)
    · rw [if_neg hdue]
      by_cases hok : StoreOk (storeOp t key keyv) s k
      · exact .inr ⟨hok, hpass hok⟩
      · exact .inl (hfail hok)

theorem replay_eq_finish {es : List IRIns} (hg : b.Grows c es) (r : Recorded) :
    replay h b c r m = finish h c es r m := replay_grows hg r

/-- The guard that there is no metatable, in front of other instructions. -/
theorem finish_metaGuard (h : LuaValue → UInt32) (b : IrBuf) (tab : TRef) :
    ∃ es, b.Grows (b.metaGuard tab) es ∧ ∀ (c : IrBuf) (m : Machine Bool) (a : ℕ) (s : LuaTable),
      m.r = b.nins → readRef c m.env tab.ref = some (.tab a) → m.world.tables a = some s →
      ∃ m', After m m' 1 ∧ m'.r = (b.metaGuard tab).nins ∧ ∀ es' r, finish h c (es ++ es') r m =
        if s.metatable = none then finish h c es' r m' else some none := by
  have hg := IrBuf.metaGuard_grows (b := b) tab
  refine ⟨_, hg, fun c m a s hr htab htt => ?_⟩
  obtain ⟨m', hm', hrun⟩ := runList_metaGuard (h := h) htab htt
  refine ⟨m', hm', ?_, fun es' r => ?_⟩
  · rw [hm'.r, hr, hg.nins]
    rfl
  · rw [finish, List.singleton_append, hrun]
    split <;> rfl

/-- The guard that the key has no value, in front of other instructions. -/
theorem finish_nilGuard (h : LuaValue → UInt32) (b : IrBuf) (tab key : TRef) :
    let b₁ := (b.emitIns (.new .hload (guarded .nil) tab.ref key.ref)).1
    ∃ es, b.Grows b₁ es ∧ ∀ (c : IrBuf) (m : Machine Bool) (a : ℕ) (s : LuaTable) (k : LuaValue),
      m.r = b.nins → readRef c m.env tab.ref = some (.tab a) → m.world.tables a = some s → s.Chained h →
      readRef c m.env key.ref = some k →
      ∃ m', After m m' 1 ∧ m'.r = b₁.nins ∧ ∀ es' r, finish h c (es ++ es') r m =
        if s.value k.normalizeKey = .nil then finish h c es' r m' else some none := by
  have hg := IrBuf.Grows.emitIns (b := b) (.new .hload (guarded .nil) tab.ref key.ref) rfl
  refine ⟨_, hg, fun c m a s k hr htab htt ch hkey => ?_⟩
  obtain ⟨m', hm', hpass, hfail⟩ := runList_load htab htt ch hkey (.inl rfl) .nil
  refine ⟨m', hm', ?_, fun es' r => ?_⟩
  · rw [hm'.r, hr, hg.nins]
    rfl
  · have hty : typecheck (s.value k.normalizeKey) .nil = true ↔ s.value k.normalizeKey = .nil := by
      cases s.value k.normalizeKey <;> simp [typecheck]
    rw [finish, List.singleton_append]
    split
    · next hnil =>
      rw [(hpass ⟨hty.mpr hnil, (by rintro ⟨⟩)⟩).2]
      rfl
    · next hnil =>
      rw [hfail fun hok => hnil (hty.mp hok.1)]
      rfl

/-- The guard of the metatable, in front of other instructions. -/
theorem finish_pinMeta (h : LuaValue → UInt32) (hb : b.Ready (n + 1)) (tab : TRef) (mt : ℕ) :
    ∃ es, b.Grows (b.pinMeta tab mt).1 es ∧ ∀ (c : IrBuf) (m : Machine Bool) (a : ℕ) (s : LuaTable),
      (b.pinMeta tab mt).1.Keeps c → m.r = b.nins → readRef c m.env tab.ref = some (.tab a) →
      m.world.tables a = some s → ∃ m', After m m' 2 ∧ m'.r = (b.pinMeta tab mt).1.nins ∧
        readRef c m'.env b.nins = some (metaValue s) ∧ ∀ es' r, finish h c (es ++ es') r m =
          if s.metatable = some mt then finish h c es' r m' else some none := by
  obtain ⟨-, -, k, hk, hbits, hg⟩ := IrBuf.pinMeta_grows hb tab mt
  refine ⟨_, hg, fun c m a s hkeep hr htab htt => ?_⟩
  have hge : REF_BIAS ≤ m.r := hr ▸ b.nins_ge
  obtain ⟨m', hm', henv, hrun⟩ := runList_pinMeta (h := h) htab htt hk (hkeep _ _ hbits) hge
  refine ⟨m', hm', ?_, ?_, fun es' r => ?_⟩
  · rw [hm'.r, hr, hg.nins]
    rfl
  · rw [← hr, readRef_ins _ hge, henv]
  · rw [← hr, finish, List.cons_append, List.singleton_append, hrun]
    split <;> rfl

/-- The guard of the metamethod, in front of other instructions. -/
theorem finish_pinMethod (h : LuaValue → UInt32) (hb : b.Ready (n + 2)) (mtLoad x f : ℕ) :
    ∃ es, b.Grows (b.pinMethod mtLoad (.str x) (.func f)) es ∧ ∀ (c : IrBuf) (m : Machine Bool) (mt : ℕ)
      (mm : LuaTable), (b.pinMethod mtLoad (.str x) (.func f)).Keeps c → m.r = b.nins →
      readRef c m.env mtLoad = some (.tab mt) → m.world.tables mt = some mm → mm.Chained h →
      ∃ m', After m m' 2 ∧ ∀ es' r, finish h c (es ++ es') r m =
        if mm.value (.str x) = .func f then finish h c es' r m' else some none := by
  obtain ⟨-, kr, mr, hkr, hname, hmr, hmm, hg⟩ := IrBuf.pinMethod_grows hb mtLoad (.str x) (.func f)
  refine ⟨_, hg, fun c m mt mm hkeep hr htab htt ch => ?_⟩
  obtain ⟨m', hm', hrun⟩ := runList_pinMethod (h := h) htab htt ch (readRef_const hkr (hkeep _ _ hname)) hmr
    (hkeep _ _ hmm) (hr ▸ b.nins_ge)
  refine ⟨m', hm', fun es' r => ?_⟩
  rw [← hr, finish, List.cons_append, List.singleton_append, hrun]
  split <;> rfl

/-- The recorded metamethod is still the one that the interpreter finds. -/
def Pinned (w : World Bool) (s : LuaTable) (mt x f : ℕ) : Prop :=
  ∃ mm, s.metatable = some mt ∧ w.tables mt = some mm ∧ mm.value (.str x) = .func f

/-- A recorded call, after the guards of its metamethod. -/
theorem recCall_outcome {g : Globals} (hb : b.Ready 4) {mt x f : ℕ} {args : List TRef} {r : Recorded}
    (hrec : (c, r) = recCall ((b.pinMeta tab mt).1.pinMethod (b.pinMeta tab mt).2 (.str x) (.func f)) (.func f) args) :
    ∃ es, b.Grows c es ∧ ∀ (m : Machine Bool) (vs : List LuaValue), m.r = b.nins → HeapOk g m.world →
      m.world.tables a = some s → readRef c m.env tab.ref = some (.tab a) →
      (∀ m' n', After m m' n' → args.mapM (fun tr => readRef c m'.env tr.ref) = some vs) →
      (Pinned m.world s mt x f → finish g.hash c es r m = some (some (.call (.func f) vs, m.world))) ∧
        (¬ Pinned m.world s mt x f → finish g.hash c es r m = some none) := by
  rw [recCall, Prod.mk.injEq] at hrec
  obtain ⟨hfst, hcall⟩ := hrec
  obtain ⟨hb₁, hload, -⟩ := IrBuf.pinMeta_grows (n := 3) hb tab mt
  obtain ⟨hb₂, -⟩ := IrBuf.pinMethod_grows (n := 1) hb₁ (b.pinMeta tab mt).2 (.str x) (.func f)
  obtain ⟨es₁, hg₁, hfin₁⟩ := finish_pinMeta (n := 3) g.hash hb tab mt
  obtain ⟨es₂, hg₂, hfin₂⟩ := finish_pinMethod (n := 1) g.hash hb₁ (b.pinMeta tab mt).2 x f
  generalize b.pinMeta tab mt = p₁ at *
  generalize p₁.1.pinMethod p₁.2 (.str x) (.func f) = b₂ at *
  have hg₃ : b₂.Grows c [] := by
    rw [hfst]
    exact IrBuf.Grows.intern (n := 0) (.inl rfl) hb₂ (.func f) .func
  refine ⟨es₁ ++ es₂ ++ [], (hg₁.trans hg₂).trans hg₃, fun m vs hr hw htt htab hargs => ?_⟩
  obtain ⟨m₁, hm₁, hr₁, hread, hrun₁⟩ := hfin₁ c m a s (hg₂.trans hg₃).keeps hr htab htt
  rw [List.append_nil, hrun₁]
  cases hmt : s.metatable with
  | none =>
    refine ⟨fun hp => ?_, fun _ => if_neg (by simp)⟩
    obtain ⟨mm, hp, -⟩ := hp
    rw [hmt] at hp
    cases hp
  | some mt' =>
    by_cases hsame : mt' = mt
    · subst hsame
      obtain ⟨mm, hmm⟩ := Option.isSome_iff_exists.mp (hw.closed a s mt' htt hmt)
      have hwm : m₁.world.tables mt' = some mm := hm₁.world.symm ▸ hmm
      rw [metaValue, hmt] at hread
      rw [← hload] at hread
      obtain ⟨m₂, hm₂, hrun₂⟩ := hfin₂ c m₁ mt' mm hg₃.keeps hr₁ hread hwm (hw.chained mt' mm hmm)
      have hrun := hrun₂ [] r
      rw [List.append_nil] at hrun
      rw [if_pos rfl, hrun]
      refine ⟨fun hp => ?_, fun hno => if_neg fun hfield => hno ⟨mm, hmt, hmm, hfield⟩⟩
      obtain ⟨mm', -, hmm', hfield⟩ := hp
      rw [hmm] at hmm'
      obtain rfl := Option.some.inj hmm'
      have hafter := hm₁.trans hm₂
      rw [if_pos hfield, finish, runList, runIns, hcall]
      simp only [Option.bind_some, Recorded.outcome, hargs m₂ _ hafter, hafter.world, Option.bind_eq_bind,
        Option.map_some]
    · refine ⟨fun hp => ?_, fun _ => if_neg fun heq => hsame (Option.some.inj heq)⟩
      obtain ⟨mm, hp, -⟩ := hp
      rw [hmt] at hp
      exact absurd (Option.some.inj hp) hsame

end Access
end LuajitRs.Ir
