import LuajitRs.Jit.Record.Index.Pinned

/-! Heaps in which an unpinned access goes wrong. Each one changes a fact that the recorder looked at and did not
guard: all guards still succeed, and the interpreter does something else. -/
namespace LuajitRs.Ir
open Vm LuajitRs.LuaTable

/-! ### Later heaps -/

section Heap
variable {g : Globals} {w : World Bool} {a : ℕ} {t : LuaTable}

/-- The machine at the start of the recorded instruction. -/
def enter (b : IrBuf) (env : ℕ → LuaValue) (w : World Bool) : Machine Bool := ⟨b.nins, env, w, 0, 0⟩

/-- No collection is due. -/
theorem HeapOk.calm (hw : HeapOk g w) : HeapOk g { w with rest := false } := ⟨hw.chained, hw.coherent, hw.closed⟩

/-- Another table at an address, with a metatable that is there. -/
theorem HeapOk.setTable (hw : HeapOk g w) (ch : t.Chained g.hash)
    (hco : ∀ mm : Vm.MM, t.nomm.testBit mm.bit = true → t.value (g.mmname mm) = .nil)
    (hcl : ∀ b, t.metatable = some b → b = a ∨ (w.tables b).isSome) : HeapOk g (w.setTable a t) := by
  refine ⟨fun a' t' ht' => ?_, fun a' t' ht' => ?_, fun a' t' b ht' hb => ?_⟩
  · simp only [World.setTable, Function.update_apply] at ht'
    split at ht'
    · obtain rfl := Option.some.inj ht'
      exact ch
    · exact hw.chained a' t' ht'
  · simp only [World.setTable, Function.update_apply] at ht'
    split at ht'
    · obtain rfl := Option.some.inj ht'
      exact hco
    · exact hw.coherent a' t' ht'
  · simp only [World.setTable, Function.update_apply] at ht' ⊢
    split at ht'
    · obtain rfl := Option.some.inj ht'
      cases hcl b hb with
      | inl heq => rw [if_pos heq]; rfl
      | inr hsome => split <;> simp [hsome]
    · have hsome := hw.closed a' t' b ht' hb
      split <;> simp [hsome]

theorem setTable_self : (w.setTable a t).tables a = some t := Function.update_self _ _ _

theorem setTable_of_ne {a' : ℕ} (hne : a' ≠ a) : (w.setTable a t).tables a' = w.tables a' :=
  Function.update_of_ne hne _ _

end Heap

theorem LuaValue.Permitted.validKey {k : LuaValue} (hk : k.Permitted) : k.normalizeKey.ValidKey := by
  obtain hv | rfl := hk.cases
  · rwa [hv.normalize]
  · exact validKey_zero

section Unsound
variable {R : Recorder} {w : World Bool} {b c : IrBuf} {t : LuaTable} {tab key val : TRef} {keyv v u : LuaValue}
  {r : Recorded} {env : ℕ → LuaValue} {n a mt x f : ℕ}

/-! ### Stores -/

/-- A store is nothing else that the interpreter can do. -/
theorem rawStore_ne {o : Option LuaTable} {acc : Access} {w w' : World Bool} (hacc : acc ≠ .stored) :
    ¬ ((rawStore w a o).map some = some none ∨ (rawStore w a o).map some = (some (acc, w')).map some) := by
  cases o with
  | none => simp [rawStore]
  | some t =>
    simp only [rawStore, Option.map_some, Option.some.injEq, reduceCtorEq, false_or, Prod.mk.injEq, not_and]
    exact fun heq => absurd heq.symm hacc

/-- A table without entries, whose metatable has the function `0` as `__newindex`. -/
theorem exists_newindex (x : ℕ) (hw : HeapOk R.g w) (a asize : ℕ) (ha : asize ≤ LJ_MAX_ASIZE) :
    ∃ w' tt mm, HeapOk R.g w' ∧ w'.rest = false ∧ w'.tables a = some tt ∧ tt.asize = asize ∧ (∀ k, k.Normal → tt.value k = .nil) ∧
      tt.metatable = some (a + 1) ∧ w'.tables (a + 1) = some mm ∧ mm.value (.str x) = .func 0 := by
  obtain ⟨mm, hmc, hmn, hmm, hmv⟩ := exists_table R.g.hash none [.set ⟨.str x, LuaValue.validKey_str x⟩ (.func 0)]
    (by simp [TableOp.Oversized]) (by simp)
  obtain ⟨tt, htc, htn, htm, hta, htv⟩ := exists_empty R.g.hash ha (some (a + 1))
  have hw₁ : HeapOk R.g (World.setTable { w with rest := false } (a + 1) mm) := hw.calm.setTable hmc (by simp [hmn]) (by simp [hmm])
  have hw₂ : HeapOk R.g ((World.setTable { w with rest := false } (a + 1) mm).setTable a tt) := by
    refine hw₁.setTable htc (by simp [htn]) fun b hb => .inr ?_
    rw [htm] at hb
    obtain rfl := Option.some.inj hb
    rw [setTable_self]
    rfl
  refine ⟨_, tt, mm, hw₂, rfl, setTable_self, hta, htv, htm, ?_, ?_⟩
  · rw [setTable_of_ne (by omega), setTable_self]
  · rw [hmv (.str x) rfl]
    simp [TableOp.content, TableOp.apply]

theorem inArray_iff {lo : ℤ} : inArray t key keyv lo = true ↔
    key.ty = .num ∧ ∃ ki, keyv.asInt32Exact = some ki ∧ lo ≤ ki ∧ ki.toNat < t.asize := by
  rw [inArray]
  cases keyv.asInt32Exact <;> simp

theorem storeOk_of_asize {tt : LuaTable} (hta : tt.asize = t.asize) : StoreOk (storeOp t key keyv) tt keyv := by
  intro hop
  unfold storeOp at hop
  split at hop
  · next hin =>
    obtain ⟨-, ki, hki, hlo, hhi⟩ := inArray_iff.mp hin
    exact ⟨ki, hki, by omega, hta ▸ hhi⟩
  · cases hop

section Newindex
variable (hw : HeapOk R.g w) (ha : w.tables a = some t) (hname : R.g.mmname .newindex = .str x)
  (htab : Denotes b env tab (.tab a)) (hkey : Denotes b env key keyv) (hval : Denotes b env val u)
include hw ha hname htab hkey hval

/-- A store whose only guard is that the key has no value is wrong where `__newindex` has appeared. -/
theorem not_soundSet_nilGuard (hb : b.Ready 2)
    (hrec : (c, r) = R.recStore (b.emitIns (.new .hload (guarded .nil) tab.ref key.ref)).1 t tab key val keyv) :
    ¬ SoundSet R.g b tab key val c r := by
  obtain ⟨w', tt, mm, hw', hcalm, htt, hta, hempty, hmt, hmm, hfield⟩ :=
    exists_newindex x hw a t.asize (hw.chained a t ha).asize_le
  intro hsound
  have hnil := hempty _ (normal_normalizeKey keyv)
  obtain ⟨es₁, hg₁, hfin⟩ := finish_nilGuard R.g.hash b tab key
  obtain ⟨es₂, hg₂, hout⟩ := recStore_outcome (h := R.g.hash) (a := a) (s := tt) (k := keyv) (v := u) R
    (n := 0) (hb.emitIns rfl) hrec
  have hg := hg₁.trans hg₂
  obtain ⟨m', hm', hr', hrun⟩ := hfin c (enter b env w') a tt keyv rfl (htab.read hg.keeps rfl (.refl (enter b env w')))
    htt (hw'.chained a tt htt) (hkey.read hg.keeps rfl (.refl (enter b env w')))
  have hstore := (hout m' hr' (fun m'' n'' hm'' => ⟨htab.read hg.keeps rfl (hm'.trans hm''),
    hkey.read hg.keeps rfl (hm'.trans hm''), hval.read hg.keeps rfl (hm'.trans hm'')⟩)
    (by rw [hm'.world]; exact htt) hkey.typed).2 (by rw [hm'.world]; exact hcalm) (storeOk_of_asize hta)
  have hspec := hsound (enter b env w') a keyv u rfl hw' (by simp [enter, htt]) htab hkey hval
  rw [replay_eq_finish hg, hrun, if_pos hnil, hstore, enter, tsetIns_call hw' htt hnil hmt hmm hname hfield] at hspec
  exact rawStore_ne (by simp) hspec

/-- So is a store without any guard. -/
theorem not_soundSet_unguarded (hb : b.Ready 2) (hrec : (c, r) = R.recStore b t tab key val keyv) :
    ¬ SoundSet R.g b tab key val c r := by
  obtain ⟨w', tt, mm, hw', hcalm, htt, hta, hempty, hmt, hmm, hfield⟩ :=
    exists_newindex x hw a t.asize (hw.chained a t ha).asize_le
  intro hsound
  have hnil := hempty _ (normal_normalizeKey keyv)
  obtain ⟨es, hg, hout⟩ := recStore_outcome (h := R.g.hash) (a := a) (s := tt) (k := keyv) (v := u) R (n := 0) hb hrec
  have hstore := (hout (enter b env w') rfl (fun m'' n'' hm'' => ⟨htab.read hg.keeps rfl hm'',
    hkey.read hg.keeps rfl hm'', hval.read hg.keeps rfl hm''⟩) htt hkey.typed).2 hcalm (storeOk_of_asize hta)
  have hspec := hsound (enter b env w') a keyv u rfl hw' (by simp [enter, htt]) htab hkey hval
  rw [replay_eq_finish hg, hstore, enter, tsetIns_call hw' htt hnil hmt hmm hname hfield] at hspec
  exact rawStore_ne (by simp) hspec

end Newindex

/-- A key that is not a constant can be another number in a later run. -/
theorem Denotes.rekey (hkey : Denotes b env key keyv) (hty : key.ty = .num) (href : REF_BIAS ≤ key.ref) (y : F64) :
    Denotes b (Function.update env key.ref (.num y)) key (.num y) ∧ ∀ tr v, Denotes b env tr v →
      ∃ v', Denotes b (Function.update env key.ref (.num y)) tr v' ∧ (tr.ty ≠ .num → v' = v) := by
  have hself : Denotes b (Function.update env key.ref (.num y)) key (.num y) := by
    refine ⟨?_, hty, hkey.emitted⟩
    rw [readRef_ins _ href, Function.update_self]
  refine ⟨hself, fun tr v htr => ?_⟩
  by_cases heq : tr.ref = key.ref
  · obtain ⟨i, hi, hity⟩ := htr.emitted (heq ▸ href)
    obtain ⟨j, hj, hjty⟩ := hkey.emitted href
    rw [heq, hj] at hi
    obtain rfl := Option.some.inj hi
    have hnum : tr.ty = .num := by rw [← hity, hjty, hty]
    refine ⟨.num y, ⟨heq ▸ hself.reads, hnum, htr.emitted⟩, fun hne => absurd hnum hne⟩
  · refine ⟨v, ⟨?_, htr.typed, htr.emitted⟩, fun _ => rfl⟩
    have hread := htr.reads
    unfold Ir.readRef at hread ⊢
    split
    · next hr =>
      rw [if_pos hr] at hread
      rw [Function.update_of_ne heq, hread]
    · next hr =>
      rwa [if_neg hr] at hread

theorem tsetIns_nan {g : Globals} {k : LuaValue} (ha : w.tables a = some t) (hmt : t.metatable = none)
    (hn : isNaNKey k = true) : tsetIns g w (.tab a) k v = some (.error, w) := by
  simp [tsetIns, ha, hmt, hn]

/-- No guard keeps NaN from a store into the hash part. -/
theorem not_soundSet_nan (hw : HeapOk R.g w) (hcalm : w.rest = false) (ha : w.tables a = some t)
    (hmt : t.metatable = none) (htab : Denotes b env tab (.tab a)) (hkey : Denotes b env key v)
    (hval : Denotes b env val u) (hn : isNaNKey v = true) (hb : b.Ready 2)
    (hrec : (c, r) = R.recStore (b.metaGuard tab) t tab key val keyv) (hop : storeOp t key keyv = .hstore) :
    ¬ SoundSet R.g b tab key val c r := by
  intro hsound
  have hstore := (recStore_plain (m := enter b env w) hb hrec rfl ha htab hkey hval).2 hmt hcalm
    fun h => by simp [hop] at h
  have hspec := hsound (enter b env w) a v u rfl hw (by simp [enter, ha]) htab hkey hval
  rw [hstore, enter, tsetIns_nan ha hmt hn] at hspec
  exact rawStore_ne (by simp) hspec

/-! ### Loads -/

/-- What a load of a delegated table does, if its guards succeed. -/
theorem recLoad_delegated {d : ℕ} {dt dt' tt : LuaTable} {p : Machine Bool} {k : LuaValue} (hb : b.Ready 5)
    (hrec : (c, r) = recLoad ((b.pinMeta tab mt).1.kgc (.tab d) .tab).1 dt
      ⟨((b.pinMeta tab mt).1.kgc (.tab d) .tab).2, .tab⟩ key keyv v) (hr : p.r = b.nins)
    (htab : Denotes b p.env tab (.tab a)) (hkey : Denotes b p.env key k) (htt : p.world.tables a = some tt)
    (hmt : tt.metatable = some mt) (hd : p.world.tables d = some dt') (ch : dt'.Chained R.g.hash)
    (hok : LoadOk (loadOp dt key keyv) dt' k (dt'.value k.normalizeKey) (valueIrt v)) :
    replay R.g.hash b c r p = some (some (.value (dt'.value k.normalizeKey), p.world)) := by
  obtain ⟨hb₁, -⟩ := IrBuf.pinMeta_grows (n := 4) hb tab mt
  obtain ⟨es₁, hg₁, hfin⟩ := finish_pinMeta (n := 4) R.g.hash hb tab mt
  have hg₂ : (b.pinMeta tab mt).1.Grows ((b.pinMeta tab mt).1.kgc (.tab d) .tab).1 [] :=
    IrBuf.Grows.intern (n := 3) (.inl rfl) hb₁ (.tab d) .tab
  have hb₂ : ((b.pinMeta tab mt).1.kgc (.tab d) .tab).1.Ready 3 := IrBuf.Ready.intern (n := 3) (.inl rfl) hb₁ (.tab d) .tab
  obtain ⟨hlt, hbits⟩ := IrBuf.kgc_const (n := 3) hb₁ (.tab d) .tab
  have hg₃ : ((b.pinMeta tab mt).1.kgc (.tab d) .tab).1.Grows c _ :=
    congrArg Prod.fst hrec ▸ recLoad_grows _ dt _ key keyv v
  have hnins := IrBuf.nins_kgc (n := 3) hb₁ (.tab d) .tab
  generalize b.pinMeta tab mt = p₁ at *
  generalize hp₂ : p₁.1.kgc (.tab d) .tab = p₂ at *
  have hg := hg₁.trans (hg₂.trans hg₃)
  obtain ⟨q, hq, hr'', -, hrun⟩ := hfin c p a tt (hg₂.trans hg₃).keeps hr (htab.read hg.keeps hr (.refl p)) htt
  have hload := (recLoad_outcome (h := R.g.hash) (a := d) (s := dt') (m := q) hb₂ (hr''.trans hnins.symm) hrec
    (readRef_const hlt (hg₃.keeps _ _ hbits)) (by rw [hq.world]; exact hd) ch (hkey.read hg.keeps hr hq)
    hkey.typed).1 hok
  rw [replay_eq_finish hg, hrun, if_pos hmt, List.nil_append, hload, hq.world]

theorem loadOk_of_asize {dt dt' : LuaTable} {k : LuaValue} (hsize : dt'.asize = dt.asize)
    (hv : dt'.value k.normalizeKey = v) : LoadOk (loadOp dt key k) dt' k (dt'.value k.normalizeKey) (valueIrt v) := by
  refine ⟨?_, fun hop => ?_⟩
  · rw [hv, typecheck_valueIrt]
  · unfold loadOp at hop
    split at hop
    · next hin =>
      obtain ⟨-, ki, hki, hlo, hhi⟩ := inArray_iff.mp hin
      exact ⟨ki, hki, hlo, hsize ▸ hhi⟩
    · cases hop

section Index
variable (hw : HeapOk R.g w) (ha : w.tables a = some t) (hmt : t.metatable = some mt) {m : LuaTable}
  (hm : w.tables mt = some m) (hname : R.g.mmname .index = .str x) (htab : Denotes b env tab (.tab a))
include hw ha hmt hm hname htab

omit ha hmt in
/-- The call of a recorded `__index` is wrong where the key has got a value. -/
theorem not_soundGet_called (hfield : m.value (.str x) = .func f) (hkey : Denotes b env key v) (hv : v.Permitted)
    (hne : v.normalizeKey = .str x → a ≠ mt) (hb : b.Ready 4)
    (hrec : (c, r) = recCall ((b.pinMeta tab mt).1.pinMethod (b.pinMeta tab mt).2 (.str x) (.func f)) (.func f)
      [tab, key]) : ¬ SoundGet R.g b tab key c r := by
  intro hsound
  obtain ⟨tt, htc, htn, htm, htv⟩ := exists_table R.g.hash (some mt)
    [.set ⟨.str x, LuaValue.validKey_str x⟩ (.func f), .set ⟨v.normalizeKey, LuaValue.Permitted.validKey hv⟩ (.bool true)]
    (by simp [TableOp.Oversized]) (by simp)
  have hval : tt.value v.normalizeKey = .bool true := by
    rw [htv _ (normal_normalizeKey v)]
    exact Function.update_self _ _ _
  have hw' : HeapOk R.g (World.setTable { w with rest := false } a tt) := by
    refine hw.calm.setTable htc (by simp [htn]) fun b hb => .inr ?_
    rw [htm] at hb
    obtain rfl := Option.some.inj hb
    simp [hm]
  have hpin : Pinned (World.setTable { w with rest := false } a tt) tt mt x f := by
    by_cases heq : mt = a
    · subst heq
      refine ⟨tt, htm, setTable_self, ?_⟩
      rw [htv (.str x) rfl]
      have hkx : LuaValue.str x ≠ v.normalizeKey := fun h => hne h.symm rfl
      simp [TableOp.content, TableOp.apply, hkx]
    · exact ⟨m, htm, (setTable_of_ne heq).trans hm, hfield⟩
  have htt : (World.setTable { w with rest := false } a tt).tables a = some tt := setTable_self
  obtain ⟨hcall, -⟩ := (recCall_get (m := enter b env (World.setTable { w with rest := false } a tt)) hb hname hrec rfl
    hw' htt htab hkey).1 hpin
  have hspec := hsound (enter b env (World.setTable { w with rest := false } a tt)) a v rfl hw'
    (by simp [enter, htt]) htab hkey
  rw [hcall, enter, tgetIns_value htt htc (.inl (by simp [hval]))] at hspec
  simp at hspec

/-- A load of a delegated table is wrong where `__index` is another one, or where the key has got a value. -/
theorem not_soundGet_delegated {d : ℕ} {dt : LuaTable} (hnames : ∀ mm, ∃ y, R.g.mmname mm = .str y)
    (hfield : m.value (.str x) = .tab d) (hd : w.tables d = some dt) (hkey : Denotes b env key keyv)
    (hnil : t.value keyv.normalizeKey = .nil) (hv : dt.value keyv.normalizeKey = v) (hb : b.Ready 5)
    (hrec : (c, r) = recLoad ((b.pinMeta tab mt).1.kgc (.tab d) .tab).1 dt
      ⟨((b.pinMeta tab mt).1.kgc (.tab d) .tab).2, .tab⟩ key keyv v) : ¬ SoundGet R.g b tab key c r := by
  intro hsound
  have hamt : keyv.normalizeKey = .str x → a ≠ mt := by
    intro hx heq
    rw [hx] at hnil
    rw [← heq, ha] at hm
    obtain rfl := Option.some.inj hm
    rw [hnil] at hfield
    cases hfield
  by_cases hself : d = mt ∧ keyv.normalizeKey = .str x
  · -- The metatable delegates to itself, so that the pinned field is also the loaded one.
    obtain ⟨rfl, hx⟩ := hself
    rw [hd] at hm
    obtain rfl := Option.some.inj hm
    obtain ⟨tt, htc, htn, htm, htv⟩ := exists_table R.g.hash (some d)
      [.set ⟨.str x, LuaValue.validKey_str x⟩ (.bool true)] (by simp [TableOp.Oversized]) (by simp)
    have hval : tt.value keyv.normalizeKey = .bool true := by
      rw [htv _ (normal_normalizeKey keyv), hx]
      simp [TableOp.content, TableOp.apply]
    have hw' : HeapOk R.g (World.setTable { w with rest := false } a tt) := by
      refine hw.calm.setTable htc (by simp [htn]) fun b hb => .inr ?_
      rw [htm] at hb
      obtain rfl := Option.some.inj hb
      simp [hd]
    have htt : (World.setTable { w with rest := false } a tt).tables a = some tt := setTable_self
    have hd' : (World.setTable { w with rest := false } a tt).tables d = some dt :=
      (setTable_of_ne fun h => hamt hx h.symm).trans hd
    have hload := recLoad_delegated (p := enter b env (World.setTable { w with rest := false } a tt)) hb hrec rfl
      htab hkey htt htm hd' (hw.chained d dt hd) (loadOk_of_asize rfl hv)
    have hspec := hsound (enter b env (World.setTable { w with rest := false } a tt)) a keyv rfl hw'
      (by simp [enter, htt]) htab hkey
    rw [hload, enter, tgetIns_value htt htc (.inl (by simp [hval])), hval, hx, hfield] at hspec
    simp at hspec
  · have hxidx : m.arrayIdx (.str x) = none := rfl
    obtain ⟨mm, hmc, hma, hmm, hmn, hmv⟩ := exists_replaced (hw.chained mt m hm) hxidx (by simp [hfield]) (.func 0)
    have hw' : HeapOk R.g (World.setTable { w with rest := false } mt mm) := by
      refine hw.calm.setTable hmc (fun mo hbit => ?_) fun b hb => .inr ?_
      · obtain ⟨y, hy⟩ := hnames mo
        rw [hmn] at hbit
        have hold := hw.coherent mt m hm mo hbit
        rw [hy] at hold ⊢
        rw [hmv (.str y) rfl, if_neg, hold]
        intro heq
        rw [heq, hfield] at hold
        cases hold
      · rw [hmm] at hb
        exact hw.closed mt m b hm hb
    -- Neither the indexed table nor the delegated one sees the change.
    have hother : ∀ a' t', w.tables a' = some t' → (a' = mt → keyv.normalizeKey ≠ .str x) → ∃ t'',
        (World.setTable { w with rest := false } mt mm).tables a' = some t'' ∧ t''.Chained R.g.hash ∧
          t''.asize = t'.asize ∧ t''.metatable = t'.metatable ∧
            t''.value keyv.normalizeKey = t'.value keyv.normalizeKey := by
      intro a' t' ha' hne
      by_cases heq : a' = mt
      · subst heq
        rw [hm] at ha'
        obtain rfl := Option.some.inj ha'
        exact ⟨mm, setTable_self, hmc, hma, hmm, by rw [hmv _ (normal_normalizeKey keyv), if_neg (hne rfl)]⟩
      · exact ⟨t', (setTable_of_ne heq).trans ha', hw.chained a' t' ha', rfl, rfl, rfl⟩
    obtain ⟨tt, htt, htc, -, htm, htv⟩ := hother a t ha fun heq hx => hamt hx heq
    obtain ⟨dt', hd', hdc, hda, -, hdv⟩ := hother d dt hd fun heq hx => hself ⟨heq, hx⟩
    have hload := recLoad_delegated (p := enter b env (World.setTable { w with rest := false } mt mm)) hb hrec rfl
      htab hkey htt (htm.trans hmt) hd' hdc (loadOk_of_asize hda (hdv.trans hv))
    have hspec := hsound (enter b env (World.setTable { w with rest := false } mt mm)) a keyv rfl hw'
      (by simp [enter, htt]) htab hkey
    have hfunc : mm.value (.str x) = .func 0 := by rw [hmv (.str x) rfl, if_pos rfl]
    rw [hload, enter, tgetIns_call hw' htt (htv.trans hnil) (htm.trans hmt) setTable_self hname hfunc] at hspec
    simp at hspec

end Index

end Unsound

/-! ### Exactly the pinned accesses are sound -/

/-- What the recorder looked at for a load is pinned by its guards. -/
def TgetPinned (R : Recorder) (w : World Bool) (a : ℕ) (key : TRef) (keyv : LuaValue) : Prop :=
  ∃ t, w.tables a = some t ∧
    (tget R.g.hash t keyv ≠ some .nil ∨ t.metatable = none ∨
      (∃ mt m f, t.metatable = some mt ∧ w.tables mt = some m ∧
        m.getStr R.g.hash (R.g.mmname .index) = .ok (.func f)) ∧
      (keyv = .nil ∨ isNaNKey keyv = true ∧ key.ref < REF_BIAS))

/-- What the recorder looked at for a store is pinned by its guards. -/
def TsetPinned (R : Recorder) (w : World Bool) (a : ℕ) (key : TRef) (keyv : LuaValue) : Prop :=
  ∃ t, w.tables a = some t ∧
    (t.metatable = none ∧
        (key.ty ≠ .num ∨ inArray t key keyv 1 = true ∨ isNaNKey keyv = false ∧ key.ref < REF_BIAS) ∨
      tget R.g.hash t keyv = some .nil ∧ ∃ mt m f, t.metatable = some mt ∧ w.tables mt = some m ∧
        m.getStr R.g.hash (R.g.mmname .newindex) = .ok (.func f))

section Keys
variable {b : IrBuf} {env env' : ℕ → LuaValue} {key : TRef} {k k' keyv : LuaValue}

/-- A constant key is the same in every run. -/
theorem Denotes.const (hd : Denotes b env key k) (hd' : Denotes b env' key k') (hlt : key.ref < REF_BIAS) : k = k' := by
  have hread := hd.reads
  have hread' := hd'.reads
  rw [readRef, if_neg (by omega)] at hread hread'
  exact Option.some.inj (hread.symm.trans hread')

theorem isNaNKey_unpermitted (hn : isNaNKey k = true) : ¬ k.Permitted := by
  intro hp
  cases k with
  | num x =>
    have hx := hp.2 x rfl
    rw [isNaNKey, hx] at hn
    cases hn
  | _ => cases hn

theorem permitted_of_not (hne : k ≠ .nil) (hn : isNaNKey k = false) : k.Permitted := by
  refine ⟨hne, fun x hx => ?_⟩
  subst hx
  exact hn

theorem isNaNKey_of_asInt32Exact {n : ℤ} (hi : k.asInt32Exact = some n) : isNaNKey k = false := by
  cases k with
  | num x =>
    obtain ⟨hb, hx | hx⟩ := F64.asInt32Exact_eq_some.mp hi
    · rw [hx]
      exact F64.isNaN_ofInt (by omega)
    · rw [hx.2]
      rfl
  | _ => rfl

/-- A NaN key that is not a constant is the number of an instruction. -/
theorem Denotes.nan (hd : Denotes b env key k) (hn : isNaNKey k = true) (href : ¬ key.ref < REF_BIAS) :
    key.ty = .num ∧ REF_BIAS ≤ key.ref := by
  refine ⟨?_, Nat.le_of_not_lt href⟩
  rw [hd.typed]
  cases k with
  | num x => rfl
  | _ => cases hn

/-- A key that the recorder took to be unstorable stays so, if it is nil or a constant. -/
theorem unpermitted_pinned (hkey : Denotes b env key keyv)
    (hpin : keyv = .nil ∨ isNaNKey keyv = true ∧ key.ref < REF_BIAS) (hd : Denotes b env' key k) : ¬ k.Permitted := by
  cases hpin with
  | inl hnil =>
    have hty := hd.typed.symm.trans hkey.typed
    rw [hnil] at hty
    have hk := valueIrt_eq_nil.mp hty
    exact fun hp => hp.1 hk
  | inr hnan => exact isNaNKey_unpermitted (hkey.const hd hnan.2 ▸ hnan.1)

end Keys

section Exact
variable {R : Recorder} {w : World Bool} {b c : IrBuf} {t : LuaTable} {tab key val : TRef} {keyv v u : LuaValue}
  {r : Recorded} {env : ℕ → LuaValue} {a : ℕ} (hnames : ∀ mm, ∃ x, R.g.mmname mm = .str x) (hw : HeapOk R.g w)
  (hb : b.Ready 5) (htab : Denotes b env tab (.tab a)) (hkey : Denotes b env key keyv)
include hnames hw hb htab hkey

theorem soundGet_iff {inlineMm : Bool} (hrec : recTget R w b (.tab a) tab keyv key inlineMm = some (c, r)) :
    SoundGet R.g b tab key c r ↔ TgetPinned R w a key keyv := by
  obtain ⟨x, hname⟩ := hnames .index
  obtain ⟨-, a', t, v, ha', ht, hv, hcase⟩ := recTget_cases hrec
  cases ha'
  have ch := hw.chained a t ht
  generalize hp : (c, r) = p at hcase
  cases hcase with
  | hit hne => exact iff_of_true (soundGet_hit hb hp hne) ⟨t, ht, .inl (by simpa [hv] using hne)⟩
  | miss hnil hmt => exact iff_of_true (soundGet_miss hb hp) ⟨t, ht, .inr (.inl hmt)⟩
  | @delegated mt m d dt v' hnil hmt hm hmo hd hv' =>
    have hget := getStr_name hw hm hname
    rw [hmo, hname] at hget
    have hfield := (Except.ok.inj hget).symm
    rw [tget_eq ch] at hv
    rw [tget_eq (hw.chained d dt hd)] at hv'
    refine iff_of_false (not_soundGet_delegated hw ht hmt hm hname htab hnames hfield hd hkey
      ((Option.some.inj hv).trans hnil) (Option.some.inj hv') hb hp) fun hpin => ?_
    obtain ⟨t', ht', hpin⟩ := hpin
    rw [ht] at ht'
    obtain rfl := Option.some.inj ht'
    obtain hne | hmt' | ⟨⟨mt', m', f, hmt', hm', hmo'⟩, -⟩ := hpin
    · exact hne (by rw [tget_eq ch, hv, hnil])
    · rw [hmt] at hmt'
      cases hmt'
    · rw [hmt] at hmt'
      obtain rfl := Option.some.inj hmt'
      rw [hm] at hm'
      obtain rfl := Option.some.inj hm'
      rw [hmo] at hmo'
      cases hmo'
  | @called mt m f hnil hmt hm hmo =>
    have hget := getStr_name hw hm hname
    rw [hmo, hname] at hget
    have hfield := (Except.ok.inj hget).symm
    rw [hname] at hp
    by_cases hpin : keyv = .nil ∨ isNaNKey keyv = true ∧ key.ref < REF_BIAS
    · exact iff_of_true (soundGet_called (hb.weaken (by omega)) hname hp fun _ _ => unpermitted_pinned hkey hpin)
        ⟨t, ht, .inr (.inr ⟨⟨mt, m, f, hmt, hm, hmo⟩, hpin⟩)⟩
    · refine iff_of_false ?_ fun hpinned => ?_
      · have hkeyv : keyv ≠ .nil := fun heq => hpin (.inl heq)
        by_cases hn : isNaNKey keyv = true
        · obtain ⟨hty, href⟩ := hkey.nan hn fun hlt => hpin (.inr ⟨hn, hlt⟩)
          obtain ⟨hkey', hother⟩ := hkey.rekey hty href (F64.ofInt 1)
          obtain ⟨v', htab', heq⟩ := hother tab _ htab
          obtain rfl := heq (by simp [htab.typed, valueIrt])
          have hone : (LuaValue.num (F64.ofInt 1)).Permitted :=
            permitted_of_not (by simp) (F64.isNaN_ofInt (by decide))
          exact not_soundGet_called hw hm hname htab' hfield hkey' hone (by rintro ⟨⟩) (hb.weaken (by omega)) hp
        · refine not_soundGet_called hw hm hname htab hfield hkey (permitted_of_not hkeyv (by simpa using hn))
            (fun hx heq => ?_) (hb.weaken (by omega)) hp
          rw [tget_eq ch, hx] at hv
          rw [← heq, ht] at hm
          obtain rfl := Option.some.inj hm
          rw [hnil, hfield] at hv
          cases hv
      · obtain ⟨t', ht', hpinned⟩ := hpinned
        rw [ht] at ht'
        obtain rfl := Option.some.inj ht'
        obtain hne | hmt' | ⟨-, hpin'⟩ := hpinned
        · exact hne (by rw [hv, hnil])
        · rw [hmt] at hmt'
          cases hmt'
        · exact hpin hpin'

theorem soundSet_iff {inlineMm : Bool} (hval : Denotes b env val u)
    (hrec : recTset R w b (.tab a) tab keyv key val inlineMm = some (c, r)) :
    SoundSet R.g b tab key val c r ↔ TsetPinned R w a key keyv := by
  obtain ⟨x, hname⟩ := hnames .newindex
  obtain ⟨-, hkeyv, a', t, ha', ht, hcase⟩ := recTset_cases hrec
  cases ha'
  have ch := hw.chained a t ht
  have hb₂ : b.Ready 2 := hb.weaken (by omega)
  generalize hp : (c, r) = p at hcase
  cases hcase with
  | plain hmt =>
    by_cases hpin : key.ty ≠ .num ∨ inArray t key keyv 1 = true ∨ isNaNKey keyv = false ∧ key.ref < REF_BIAS
    · refine iff_of_true (soundSet_plain hb₂ hp fun env' k tt hk hok => ⟨fun hnil => ?_, ?_⟩)
        ⟨t, ht, .inl ⟨hmt, hpin⟩⟩
      · rw [hnil] at hk
        exact hkeyv (valueIrt_eq_nil.mp (hkey.typed.symm.trans hk.typed))
      · obtain hty | hin | ⟨hn, hlt⟩ := hpin
        · cases k with
          | num y => exact absurd hk.typed hty
          | _ => rfl
        · obtain ⟨ki, hki, -⟩ := hok (by rw [storeOp, if_pos hin])
          exact isNaNKey_of_asInt32Exact hki
        · rw [← hkey.const hk hlt, hn]
    · refine iff_of_false ?_ fun hpinned => ?_
      · have hop : storeOp t key keyv = .hstore := if_neg fun hin => hpin (.inr (.inl hin))
        by_cases hn : isNaNKey keyv = true
        · exact not_soundSet_nan (w := { w with rest := false }) hw.calm rfl ht hmt htab hkey hval hn hb₂ hp hop
        · have hty : key.ty = .num := by
            by_contra hty
            exact hpin (.inl hty)
          have href : REF_BIAS ≤ key.ref := by
            by_contra hlt
            exact hpin (.inr (.inr ⟨by simpa using hn, by omega⟩))
          obtain ⟨hkey', hother⟩ := hkey.rekey hty href ⟨0x7ff8000000000000⟩
          obtain ⟨v', htab', heq⟩ := hother tab _ htab
          obtain rfl := heq (by simp [htab.typed, valueIrt])
          obtain ⟨u', hval', -⟩ := hother val _ hval
          exact not_soundSet_nan (w := { w with rest := false }) hw.calm rfl ht hmt htab' hkey' hval' (by decide) hb₂ hp hop
      · obtain ⟨t', ht', hpinned⟩ := hpinned
        rw [ht] at ht'
        obtain rfl := Option.some.inj ht'
        obtain ⟨-, hpin'⟩ | ⟨-, mt, m, f, hmt', -⟩ := hpinned
        · exact hpin hpin'
        · rw [hmt] at hmt'
          cases hmt'
  | @absent mt m hmt hm hmo =>
    refine iff_of_false (not_soundSet_unguarded hw ht hname htab hkey hval hb₂ hp) fun hpinned => ?_
    obtain ⟨t', ht', hpinned⟩ := hpinned
    rw [ht] at ht'
    obtain rfl := Option.some.inj ht'
    obtain ⟨hmt', -⟩ | ⟨-, mt', m', f, hmt', hm', hmo'⟩ := hpinned
    · rw [hmt] at hmt'
      cases hmt'
    · rw [hmt] at hmt'
      obtain rfl := Option.some.inj hmt'
      rw [hm] at hm'
      obtain rfl := Option.some.inj hm'
      rw [hmo] at hmo'
      cases hmo'
  | @existing mt m mo v hmt hm hmo hne hv hvne =>
    refine iff_of_false (not_soundSet_nilGuard hw ht hname htab hkey hval hb₂ hp) fun hpinned => ?_
    obtain ⟨t', ht', hpinned⟩ := hpinned
    rw [ht] at ht'
    obtain rfl := Option.some.inj ht'
    obtain ⟨hmt', -⟩ | ⟨hnil, -⟩ := hpinned
    · rw [hmt] at hmt'
      cases hmt'
    · rw [hv] at hnil
      exact hvne (Option.some.inj hnil)
  | @called mt m f hmt hm hmo hv =>
    rw [hname] at hp
    exact iff_of_true (soundSet_called (hb.weaken (by omega)) hname hp) ⟨t, ht, .inr ⟨hv, mt, m, f, hmt, hm, hmo⟩⟩

/-- A recorded access is that of the interpreter in every later heap exactly if its guards pin what the recorder
looked at. -/
theorem recordedAccess_sound_iff (hval : Denotes b env val u) (inlineMm : Bool) :
    (∀ c r, recTget R w b (.tab a) tab keyv key inlineMm = some (c, r) →
      (SoundGet R.g b tab key c r ↔ TgetPinned R w a key keyv)) ∧
    (∀ c r, recTset R w b (.tab a) tab keyv key val inlineMm = some (c, r) →
      (SoundSet R.g b tab key val c r ↔ TsetPinned R w a key keyv)) :=
  ⟨fun _ _ hrec => soundGet_iff hnames hw hb htab hkey hrec,
    fun _ _ hrec => soundSet_iff hnames hw hb htab hkey hval hrec⟩

end Exact

namespace Counter

/-- A store to a table whose metatable is empty, recorded with the operands in three slots. -/
def recorder : Recorder where
  g := { hash := fun _ => 0, mmname := fun | .index => .str 1 | .newindex => .str 2, basemt := fun _ => none }
  inlines _ := true
  total := 0
  threshold := 8

def world : World Bool where
  stack _ := .nil
  tables
    | 1 => some { blank.emptied 0 0 with nomm := 0, metatable := some 2 }
    | 2 => some { blank.emptied 0 0 with nomm := 0, metatable := none }
    | _ => none
  rest := false

def buf : IrBuf :=
  ((((IrBuf.new 0 0).emitIns (.new .sload (guarded .tab) 2 0)).1.emitIns (.new .sload (guarded .num) 3 0)).1.emitIns
    (.new .sload (guarded .num) 4 0)).1

def slots : ℕ → LuaValue := fun r => if r = REF_BIAS + 1 then .tab 1 else .num (.ofInt 7)

def tab : TRef := ⟨REF_BIAS + 1, .tab⟩
def key : TRef := ⟨REF_BIAS + 2, .num⟩
def val : TRef := ⟨REF_BIAS + 3, .num⟩

theorem heapOk : HeapOk recorder.g world := by
  have hspec := new_spec (h := recorder.g.hash) 0 0
  rw [new_eq (Nat.zero_le _) (Nat.zero_le _)] at hspec
  refine ⟨fun a t ht => ?_, fun a t ht mm hbit => ?_, fun a t b ht hb => ?_⟩ <;> simp only [world] at ht <;>
    split at ht <;> cases ht
  · exact chained_retag hspec.1 0 (some 2)
  · exact chained_retag hspec.1 0 none
  · simp at hbit
  · simp at hbit
  · cases hb
    rfl
  · cases hb

theorem ready : buf.Ready 5 := (((IrBuf.Ready.new 0 0 (by decide)).emitIns rfl).emitIns rfl).emitIns rfl

theorem denotes_tab : Denotes buf slots tab (.tab 1) := ⟨rfl, rfl, fun _ => ⟨_, rfl, rfl⟩⟩
theorem denotes_key : Denotes buf slots key (.num (.ofInt 7)) := ⟨rfl, rfl, fun _ => ⟨_, rfl, rfl⟩⟩
theorem denotes_val : Denotes buf slots val (.num (.ofInt 7)) := ⟨rfl, rfl, fun _ => ⟨_, rfl, rfl⟩⟩

theorem names (mm : Vm.MM) : ∃ x, recorder.g.mmname mm = .str x := by cases mm <;> exact ⟨_, rfl⟩

theorem unpinned : ¬ TsetPinned recorder world 1 key (.num (.ofInt 7)) := by
  intro hpin
  obtain ⟨t, ht, hpin⟩ := hpin
  cases ht
  obtain ⟨hmt, -⟩ | ⟨-, mt, m, f, hmt, hm, hmo⟩ := hpin
  · cases hmt
  · cases hmt
    cases hm
    cases hmo

theorem exists_recTset : ∃ c r,
    recTset recorder world buf (.tab 1) tab (.num (.ofInt 7)) key val true = some (c, r) := ⟨_, _, rfl⟩

theorem recordedAccess_sound_counter : ∃ c r,
    recTset recorder world buf (.tab 1) tab (.num (.ofInt 7)) key val true = some (c, r) ∧
      (SoundSet recorder.g buf tab key val c r ↔ TsetPinned recorder world 1 key (.num (.ofInt 7))) := by
  obtain ⟨c, r, hrec⟩ := exists_recTset
  exact ⟨c, r, hrec, (recordedAccess_sound_iff names heapOk ready denotes_tab denotes_key denotes_val true).2 c r hrec⟩

/-- The recorder accepts the store and guards nothing of the metatable. -/
theorem unguarded_store_unsound : ∃ c r,
    recTset recorder world buf (.tab 1) tab (.num (.ofInt 7)) key val true = some (c, r) ∧
      ¬ SoundSet recorder.g buf tab key val c r := by
  obtain ⟨c, r, hrec⟩ := exists_recTset
  exact ⟨c, r, hrec, fun hsound =>
    unpinned ((soundSet_iff names heapOk ready denotes_tab denotes_key denotes_val hrec).mp hsound)⟩

end Counter
end LuajitRs.Ir
