import LuajitRs.Jit.Record.Index.Sound

/-! The recorded accesses that are sound, and for every other one a later heap in which all its guards succeed and
the interpreter does something else. -/
namespace LuajitRs.Ir
open Vm LuajitRs.LuaTable

/-! ### The recorder's branches -/

/-- What the branches of `rec_tget` saw and emitted. -/
inductive TgetCase (R : Recorder) (w : World Bool) (b : IrBuf) (tab key : TRef) (keyv : LuaValue) (t : LuaTable)
    (v : LuaValue) : IrBuf × Recorded → Prop
  | hit (hv : v ≠ .nil) : TgetCase R w b tab key keyv t v (recLoad b t tab key keyv v)
  | miss (hv : v = .nil) (hmt : t.metatable = none) :
    TgetCase R w b tab key keyv t v (recLoad (b.metaGuard tab) t tab key keyv v)
  | delegated {mt m d dt v'} (hv : v = .nil) (hmt : t.metatable = some mt) (hm : w.tables mt = some m)
    (hmo : m.getStr R.g.hash (R.g.mmname .index) = .ok (.tab d)) (hd : w.tables d = some dt)
    (hv' : tget R.g.hash dt keyv = some v') :
    TgetCase R w b tab key keyv t v (recLoad ((b.pinMeta tab mt).1.kgc (.tab d) .tab).1 dt
      ⟨((b.pinMeta tab mt).1.kgc (.tab d) .tab).2, .tab⟩ key keyv v')
  | called {mt m f} (hv : v = .nil) (hmt : t.metatable = some mt) (hm : w.tables mt = some m)
    (hmo : m.getStr R.g.hash (R.g.mmname .index) = .ok (.func f)) :
    TgetCase R w b tab key keyv t v (recCall ((b.pinMeta tab mt).1.pinMethod (b.pinMeta tab mt).2
      (R.g.mmname .index) (.func f)) (.func f) [tab, key])

theorem toOption_eq_some {α ε : Type} {x : Except ε α} {v : α} (h : x.toOption = some v) : x = .ok v := by
  cases x with
  | error e => cases h
  | ok a => exact congrArg Except.ok (Option.some.inj h)

theorem recTget_cases {R : Recorder} {w : World Bool} {b : IrBuf} {tabv : LuaValue} {tab : TRef} {keyv : LuaValue}
    {key : TRef} {inlineMm : Bool} {p : IrBuf × Recorded}
    (h : recTget R w b tabv tab keyv key inlineMm = some p) :
    tab.ty = .tab ∧ ∃ a t v, tabv = .tab a ∧ w.tables a = some t ∧ tget R.g.hash t keyv = some v ∧
      TgetCase R w b tab key keyv t v p := by
  rw [recTget] at h
  split at h
  · cases h
  next hty =>
  refine ⟨not_not.mp hty, ?_⟩
  simp only [Option.bind_eq_bind, Option.bind_eq_some_iff] at h
  obtain ⟨a, ha, t, ht, v, hv, h⟩ := h
  have htab : tabv = .tab a := by
    cases tabv <;> cases ha
    rfl
  refine ⟨a, t, v, htab, ht, hv, ?_⟩
  split at h
  · next hnil =>
    have hnil : v = .nil := of_decide_eq_true hnil
    split at h
    · next mt hmt =>
      simp only [Option.bind_eq_some_iff] at h
      obtain ⟨m, hm, mo, hmo, h⟩ := h
      have hmo := toOption_eq_some hmo
      split at h
      · next d =>
        simp only [Option.bind_eq_some_iff] at h
        obtain ⟨dt, hd, v', hv', h⟩ := h
        obtain rfl := Option.some.inj h
        exact .delegated hnil hmt hm hmo hd hv'
      · next f =>
        split at h
        · obtain rfl := Option.some.inj h
          exact .called hnil hmt hm hmo
        · cases h
      · cases h
    · next hmt =>
      obtain rfl := Option.some.inj h
      exact .miss hnil hmt
  · next hnil =>
    obtain rfl := Option.some.inj h
    exact .hit fun heq => hnil (decide_eq_true heq)

/-- What the branches of `rec_tset` saw and emitted. -/
inductive TsetCase (R : Recorder) (w : World Bool) (b : IrBuf) (tab key val : TRef) (keyv : LuaValue)
    (t : LuaTable) : IrBuf × Recorded → Prop
  | plain (hmt : t.metatable = none) :
    TsetCase R w b tab key val keyv t (R.recStore (b.metaGuard tab) t tab key val keyv)
  | absent {mt m} (hmt : t.metatable = some mt) (hm : w.tables mt = some m)
    (hmo : m.getStr R.g.hash (R.g.mmname .newindex) = .ok .nil) :
    TsetCase R w b tab key val keyv t (R.recStore b t tab key val keyv)
  | existing {mt m mo v} (hmt : t.metatable = some mt) (hm : w.tables mt = some m)
    (hmo : m.getStr R.g.hash (R.g.mmname .newindex) = .ok mo) (hne : mo ≠ .nil)
    (hv : tget R.g.hash t keyv = some v) (hvne : v ≠ .nil) :
    TsetCase R w b tab key val keyv t
      (R.recStore (b.emitIns (.new .hload (guarded .nil) tab.ref key.ref)).1 t tab key val keyv)
  | called {mt m f} (hmt : t.metatable = some mt) (hm : w.tables mt = some m)
    (hmo : m.getStr R.g.hash (R.g.mmname .newindex) = .ok (.func f)) (hv : tget R.g.hash t keyv = some .nil) :
    TsetCase R w b tab key val keyv t
      (let b₁ := (b.emitIns (.new .hload (guarded .nil) tab.ref key.ref)).1
      recCall ((b₁.pinMeta tab mt).1.pinMethod (b₁.pinMeta tab mt).2 (R.g.mmname .newindex) (.func f)) (.func f)
        [tab, key, val])

theorem recTset_cases {R : Recorder} {w : World Bool} {b : IrBuf} {tabv : LuaValue} {tab : TRef} {keyv : LuaValue}
    {key val : TRef} {inlineMm : Bool} {p : IrBuf × Recorded}
    (h : recTset R w b tabv tab keyv key val inlineMm = some p) :
    tab.ty = .tab ∧ keyv ≠ .nil ∧ ∃ a t, tabv = .tab a ∧ w.tables a = some t ∧
      TsetCase R w b tab key val keyv t p := by
  rw [recTset] at h
  split at h
  · cases h
  next hty =>
  refine ⟨not_not.mp hty, ?_⟩
  simp only [Option.bind_eq_bind, Option.bind_eq_some_iff] at h
  obtain ⟨a, ha, t, ht, h⟩ := h
  have htab : tabv = .tab a := by
    cases tabv <;> cases ha
    rfl
  split at h
  · cases h
  next hkey =>
  refine ⟨fun heq => hkey (decide_eq_true heq), a, t, htab, ht, ?_⟩
  split at h
  · next hmt =>
    obtain rfl := Option.some.inj h
    exact .plain hmt
  · next mt hmt =>
    simp only [Option.bind_eq_some_iff] at h
    obtain ⟨m, hm, mo, hmo, h⟩ := h
    have hmo := toOption_eq_some hmo
    split at h
    · next hnil =>
      obtain rfl := Option.some.inj h
      rw [of_decide_eq_true hnil] at hmo
      exact .absent hmt hm hmo
    · next hnil =>
      have hne : mo ≠ .nil := fun heq => hnil (decide_eq_true heq)
      split at h
      · cases h
      · simp only [Option.bind_eq_some_iff] at h
        obtain ⟨v, hv, h⟩ := h
        split at h
        · next hvn =>
          obtain rfl := Option.some.inj h
          exact .existing hmt hm hmo hne hv fun heq => by simp [heq, LuaValue.isNil] at hvn
        · next hvn =>
          have hvn : v = .nil := by simpa [LuaValue.isNil] using hvn
          subst hvn
          split at h
          · next f =>
            split at h
            · obtain rfl := Option.some.inj h
              exact .called hmt hm hmo hv
            · cases h
          · cases h

/-! ### The interpreter over a table -/

section Interpreter
variable {g : Globals} {w : World Bool} {a : ℕ} {tt : LuaTable} {k v : LuaValue}

theorem tgetIns_value (htt : w.tables a = some tt) (ch : tt.Chained g.hash)
    (hv : tt.value k.normalizeKey ≠ .nil ∨ tt.metatable = none) :
    tgetIns g w (.tab a) k = some (.value (tt.value k.normalizeKey), w) := by
  simp only [tgetIns, htt, Option.bind_eq_bind, Option.bind_some, tget_eq ch]
  rw [if_pos]
  cases hv with
  | inl hne => simp [LuaValue.isNil, hne]
  | inr hmt => simp [hmt]

/-- A metamethod that is there is found, whatever the negative cache says of others. -/
theorem metaFast_found (hw : HeapOk g w) {mt : ℕ} {m : LuaTable} (hm : w.tables mt = some m) {mm : Vm.MM} {mo : LuaValue}
    (hmo : m.getStr g.hash (g.mmname mm) = .ok (m.value (g.mmname mm))) (hval : m.value (g.mmname mm) = mo)
    (hne : mo ≠ .nil) : Vm.metaFast g w (some mt) mm = some (w, some mo) := by
  have hbit : m.nomm.testBit mm.bit = false := by
    by_contra hb
    exact hne (hval ▸ hw.coherent mt m hm mm (by simpa using hb))
  simp only [Vm.metaFast, hm, Option.bind_eq_bind, Option.bind_some, hbit, hmo, hval]
  simp [Except.toOption, LuaValue.isNil, hne]

theorem getStr_name (hw : HeapOk g w) {mt : ℕ} {m : LuaTable} (hm : w.tables mt = some m) {mm : Vm.MM} {x : ℕ}
    (hname : g.mmname mm = .str x) : m.getStr g.hash (g.mmname mm) = .ok (m.value (g.mmname mm)) := by
  have ch := hw.chained mt m hm
  rw [hname]
  exact getStr_spec ch.toWf ch.findable rfl

section Call
variable (hw : HeapOk g w) (htt : w.tables a = some tt) (hv : tt.value k.normalizeKey = .nil) {mt : ℕ}
  (hmt : tt.metatable = some mt) {m : LuaTable} (hm : w.tables mt = some m) {f x : ℕ}
include hw htt hv hmt hm

theorem metaTget_call (hname : g.mmname .index = .str x) (hmo : m.value (.str x) = .func f) (n : ℕ) :
    metaTget g k (n + 1) w (.tab a) = some (.call (.func f) [.tab a, k], w) := by
  have ch := hw.chained a tt htt
  have hfast := metaFast_found hw hm (getStr_name hw hm hname) (by rw [hname, hmo])
    (show LuaValue.func f ≠ .nil by simp)
  have hget : tt.get g.hash k = .ok .nil := by
    rw [get_spec ch.toWf ch.findable, value_nil_of_normalizeKey ch.toWf hv]
  rw [metaTget]
  simp only [htt, Option.bind_eq_bind, Option.bind_some, hget, Except.toOption, hmt, hfast]
  rfl

theorem metaTset_call (hname : g.mmname .newindex = .str x) (hmo : m.value (.str x) = .func f) (n : ℕ) :
    metaTset g k v (n + 1) w (.tab a) = some (.call (.func f) [.tab a, k, v], w) := by
  have ch := hw.chained a tt htt
  have hfast := metaFast_found hw hm (getStr_name hw hm hname) (by rw [hname, hmo])
    (show LuaValue.func f ≠ .nil by simp)
  have hget : tt.get g.hash k = .ok .nil := by
    rw [get_spec ch.toWf ch.findable, value_nil_of_normalizeKey ch.toWf hv]
  rw [metaTset]
  simp only [htt, Option.bind_eq_bind, Option.bind_some, hget, Except.toOption, hmt, hfast]
  rfl

theorem tgetIns_call (hname : g.mmname .index = .str x) (hmo : m.value (.str x) = .func f) :
    tgetIns g w (.tab a) k = some (.call (.func f) [.tab a, k], w) := by
  simp only [tgetIns, htt, Option.bind_eq_bind, Option.bind_some, tget_eq (hw.chained a tt htt), hv, hmt]
  exact metaTget_call hw htt hv hmt hm hname hmo 99

theorem tsetIns_call (hname : g.mmname .newindex = .str x) (hmo : m.value (.str x) = .func f) :
    tsetIns g w (.tab a) k v = some (.call (.func f) [.tab a, k, v], w) := by
  simp only [tsetIns, htt, Option.bind_eq_bind, Option.bind_some, hmt]
  exact metaTset_call hw htt hv hmt hm hname hmo 99

end Call

theorem tsetIns_raw (htt : w.tables a = some tt) (hmt : tt.metatable = none) (hk : k ≠ .nil)
    (hn : isNaNKey k = false) : tsetIns g w (.tab a) k v = rawStore w a (tset g.hash tt k v) := by
  simp [tsetIns, htt, hmt, LuaValue.isNil, hk, hn]

end Interpreter

/-! ### Sound accesses -/

theorem valueIrt_eq_nil {v : LuaValue} : valueIrt v = .nil ↔ v = .nil := by
  cases v with
  | bool b => cases b <;> simp [valueIrt]
  | _ => simp [valueIrt]

section Sound
variable {R : Recorder} {b c : IrBuf} {t : LuaTable} {tab key val : TRef} {keyv v : LuaValue} {r : Recorded}
  {n mt x f : ℕ}

/-- A key with a value needs no guard but that of the load. -/
theorem soundGet_hit (hb : b.Ready n) (hrec : (c, r) = recLoad b t tab key keyv v) (hv : v ≠ .nil) :
    SoundGet R.g b tab key c r := by
  intro m a k hr hw ha htab hkey
  obtain ⟨tt, htt⟩ := Option.isSome_iff_exists.mp ha
  have hg : b.Grows c _ := congrArg Prod.fst hrec ▸ recLoad_grows b t tab key keyv v
  have ch := hw.chained a tt htt
  obtain ⟨hpass, hfail⟩ := recLoad_outcome (h := R.g.hash) hb hr hrec (htab.read hg.keeps hr (.refl m)) htt ch
    (hkey.read hg.keeps hr (.refl m)) hkey.typed
  rw [replay_eq_finish hg]
  by_cases hok : LoadOk (loadOp t key keyv) tt k (tt.value k.normalizeKey) (valueIrt v)
  · have hty := (typecheck_valueIrt _ _).mp hok.1
    have hne : tt.value k.normalizeKey ≠ .nil := by
      intro hnil
      rw [hnil] at hty
      exact hv (valueIrt_eq_nil.mp hty.symm)
    exact .inr (by rw [hpass hok, tgetIns_value htt ch (.inl hne), Option.map_some])
  · exact .inl (hfail hok)

/-- Without a metatable the raw access is the whole access. -/
theorem soundGet_miss (hb : b.Ready n) (hrec : (c, r) = recLoad (b.metaGuard tab) t tab key keyv v) :
    SoundGet R.g b tab key c r := by
  intro m a k hr hw ha htab hkey
  obtain ⟨tt, htt⟩ := Option.isSome_iff_exists.mp ha
  have ch := hw.chained a tt htt
  obtain ⟨es, hg₁, hfin⟩ := finish_metaGuard R.g.hash b tab
  have hg₂ : (b.metaGuard tab).Grows c _ :=
    congrArg Prod.fst hrec ▸ recLoad_grows (b.metaGuard tab) t tab key keyv v
  have hg := hg₁.trans hg₂
  obtain ⟨m', hm', hr', hrun⟩ := hfin c m a tt hr (htab.read hg.keeps hr (.refl m)) htt
  obtain ⟨hpass, hfail⟩ := recLoad_outcome (h := R.g.hash) (hb.emitIns rfl) hr' hrec (htab.read hg.keeps hr hm')
    (hm'.world ▸ htt) ch (hkey.read hg.keeps hr hm') hkey.typed
  rw [replay_eq_finish hg, hrun]
  split
  · next hmt =>
    by_cases hok : LoadOk (loadOp t key keyv) tt k (tt.value k.normalizeKey) (valueIrt v)
    · exact .inr (by rw [hpass hok, tgetIns_value htt ch (.inr hmt), hm'.world, Option.map_some])
    · exact .inl (hfail hok)
  · exact .inl rfl

/-- What the recorded call does in a later heap. -/
theorem recCall_get (hb : b.Ready 4) (hname : R.g.mmname .index = .str x)
    (hrec : (c, r) = recCall ((b.pinMeta tab mt).1.pinMethod (b.pinMeta tab mt).2 (.str x) (.func f)) (.func f)
      [tab, key]) {m : Machine Bool} {a : ℕ} {k : LuaValue} {tt : LuaTable} (hr : m.r = b.nins)
    (hw : HeapOk R.g m.world) (htt : m.world.tables a = some tt) (htab : Denotes b m.env tab (.tab a))
    (hkey : Denotes b m.env key k) :
    (Pinned m.world tt mt x f →
        replay R.g.hash b c r m = some (some (.call (.func f) [.tab a, k], m.world)) ∧
          (tt.value k.normalizeKey = .nil →
            tgetIns R.g m.world (.tab a) k = some (.call (.func f) [.tab a, k], m.world))) ∧
      (¬ Pinned m.world tt mt x f → replay R.g.hash b c r m = some none) := by
  obtain ⟨es, hg, hout⟩ := recCall_outcome (g := R.g) (a := a) (s := tt) hb hrec
  obtain ⟨hpass, hfail⟩ := hout m [.tab a, k] hr hw htt (htab.read hg.keeps hr (.refl m)) fun m' n' hm' => by
    simp [htab.read hg.keeps hr hm', hkey.read hg.keeps hr hm']
  rw [replay_eq_finish hg]
  refine ⟨fun hp => ⟨hpass hp, fun hnil => ?_⟩, hfail⟩
  obtain ⟨mm, hmt, hmm, hfield⟩ := hp
  exact tgetIns_call hw htt hnil hmt hmm hname hfield

/-- The key of a recorded call that no table can store. -/
theorem soundGet_called (hb : b.Ready 4) (hname : R.g.mmname .index = .str x)
    (hrec : (c, r) = recCall ((b.pinMeta tab mt).1.pinMethod (b.pinMeta tab mt).2 (.str x) (.func f)) (.func f)
      [tab, key]) (hkeys : ∀ env k, Denotes b env key k → ¬ k.Permitted) : SoundGet R.g b tab key c r := by
  intro m a k hr hw ha htab hkey
  obtain ⟨tt, htt⟩ := Option.isSome_iff_exists.mp ha
  obtain ⟨hpass, hfail⟩ := recCall_get hb hname hrec hr hw htt htab hkey
  by_cases hp : Pinned m.world tt mt x f
  · obtain ⟨hcall, hint⟩ := hpass hp
    have hnil := value_unstorable (hw.chained a tt htt).toWf (normalizeKey_unpermitted (hkeys _ _ hkey))
    exact .inr (by rw [hcall, hint hnil, Option.map_some])
  · exact .inl (hfail hp)

/-- What the recorded store of a table without a metatable does in a later heap. -/
theorem recStore_plain (hb : b.Ready 2) (hrec : (c, r) = R.recStore (b.metaGuard tab) t tab key val keyv)
    {m : Machine Bool} {a : ℕ} {k u : LuaValue} {tt : LuaTable} (hr : m.r = b.nins)
    (htt : m.world.tables a = some tt) (htab : Denotes b m.env tab (.tab a)) (hkey : Denotes b m.env key k)
    (hval : Denotes b m.env val u) :
    (replay R.g.hash b c r m = some none ∨ tt.metatable = none ∧ StoreOk (storeOp t key keyv) tt k ∧
        replay R.g.hash b c r m = (rawStore m.world a (tset R.g.hash tt k u)).map some) ∧
      (tt.metatable = none → m.world.rest = false → StoreOk (storeOp t key keyv) tt k →
        replay R.g.hash b c r m = (rawStore m.world a (tset R.g.hash tt k u)).map some) := by
  obtain ⟨es₁, hg₁, hfin⟩ := finish_metaGuard R.g.hash b tab
  obtain ⟨es₂, hg₂, hout⟩ := recStore_outcome (h := R.g.hash) (a := a) (s := tt) (k := k) (v := u) R
    (n := 0) (hb.emitIns rfl) hrec
  have hg := hg₁.trans hg₂
  obtain ⟨m', hm', hr', hrun⟩ := hfin c m a tt hr (htab.read hg.keeps hr (.refl m)) htt
  obtain ⟨hcases, hpass⟩ := hout m' hr' (fun m'' n'' hm'' => ⟨htab.read hg.keeps hr (hm'.trans hm''),
    hkey.read hg.keeps hr (hm'.trans hm''), hval.read hg.keeps hr (hm'.trans hm'')⟩) (hm'.world ▸ htt) hkey.typed
  rw [hm'.world] at hcases hpass
  rw [replay_eq_finish hg, hrun]
  refine ⟨?_, fun hmt => by rw [if_pos hmt]; exact hpass⟩
  split
  · next hmt => exact hcases.imp_right fun hs => ⟨hmt, hs⟩
  · exact .inl rfl

/-- Without a metatable the raw store is the whole access, unless the key is NaN. -/
theorem soundSet_plain (hb : b.Ready 2) (hrec : (c, r) = R.recStore (b.metaGuard tab) t tab key val keyv)
    (hkeys : ∀ env k tt, Denotes b env key k → StoreOk (storeOp t key keyv) tt k →
      k ≠ .nil ∧ isNaNKey k = false) : SoundSet R.g b tab key val c r := by
  intro m a k u hr hw ha htab hkey hval
  obtain ⟨tt, htt⟩ := Option.isSome_iff_exists.mp ha
  cases (recStore_plain hb hrec hr htt htab hkey hval).1 with
  | inl hleave => exact .inl hleave
  | inr hstore =>
    obtain ⟨hmt, hok, hrun⟩ := hstore
    obtain ⟨hne, hn⟩ := hkeys _ _ tt hkey hok
    exact .inr (by rw [hrun, tsetIns_raw htt hmt hne hn])

/-- Every guard of an inlined `__newindex` is there. -/
theorem soundSet_called (hb : b.Ready 4) (hname : R.g.mmname .newindex = .str x)
    (hrec : (c, r) = let b₁ := (b.emitIns (.new .hload (guarded .nil) tab.ref key.ref)).1
      recCall ((b₁.pinMeta tab mt).1.pinMethod (b₁.pinMeta tab mt).2 (.str x) (.func f)) (.func f)
        [tab, key, val]) : SoundSet R.g b tab key val c r := by
  intro m a k u hr hw ha htab hkey hval
  obtain ⟨tt, htt⟩ := Option.isSome_iff_exists.mp ha
  obtain ⟨es₁, hg₁, hfin⟩ := finish_nilGuard R.g.hash b tab key
  obtain ⟨es₂, hg₂, hout⟩ := recCall_outcome (g := R.g) (a := a) (s := tt) (hb.emitIns rfl) hrec
  have hg := hg₁.trans hg₂
  obtain ⟨m', hm', hr', hrun⟩ := hfin c m a tt k hr (htab.read hg.keeps hr (.refl m)) htt (hw.chained a tt htt)
    (hkey.read hg.keeps hr (.refl m))
  have hw' : HeapOk R.g m'.world := hm'.world ▸ hw
  obtain ⟨hpass, hfail⟩ := hout m' [.tab a, k, u] hr' hw' (hm'.world ▸ htt) (htab.read hg.keeps hr hm')
    fun m'' n'' hm'' => by
      simp [htab.read hg.keeps hr (hm'.trans hm''), hkey.read hg.keeps hr (hm'.trans hm''),
        hval.read hg.keeps hr (hm'.trans hm'')]
  rw [replay_eq_finish hg, hrun]
  split
  · next hnil =>
    by_cases hp : Pinned m'.world tt mt x f
    · rw [hpass hp, hm'.world]
      rw [hm'.world] at hp
      obtain ⟨mm, hmt, hmm, hfield⟩ := hp
      exact .inr (by rw [tsetIns_call hw htt hnil hmt hmm hname hfield, Option.map_some])
    · exact .inl (hfail hp)
  · exact .inl rfl

end Sound

end LuajitRs.Ir
