import LuajitRs.Jit.Record.Index
import LuajitRs.Runtime.Table.Raw

/-! Executing the emitted guards and accesses over a later heap. Raw reads are as the interpreter and the trace dispatch
them, and for every finite content of a later heap there is a table; each guard passes exactly when the heap has what
the recorder saw, and leaves the world and the older slots alone. -/
namespace LuajitRs
open Vm

namespace LuaTable
variable {h : LuaValue → UInt32} {t : LuaTable} {k v : LuaValue}

/-! ### Raw reads -/

/-- No table stores nil or NaN. -/
theorem value_unstorable (w : t.Wf) (hk : ¬ k.Permitted) : t.value k = .nil := by
  have hidx : t.arrayIdx k = none := by
    by_contra hne
    obtain ⟨i, hi⟩ := Option.ne_none_iff_exists'.mp hne
    have hkey := (arrayIdx_eq_some.mp hi).1
    apply hk
    cases k with
    | num x =>
      simp only [arrayKey] at hkey
      split at hkey
      · next j hj =>
        refine ⟨by simp, fun y hy => ?_⟩
        cases hy
        obtain ⟨hb, hx | hx⟩ := F64.asInt32Exact_eq_some.mp hj
        · rw [hx]
          exact F64.isNaN_ofInt (by omega)
        · rw [hx.2]
          rfl
      · cases hkey
    | _ => cases hkey
  rw [value_of_hash hidx]
  apply hashVal_eq_nil
  intro u hu
  obtain ⟨hne, i, hik, hiu⟩ := hu
  have hl : t.Live i := by rw [Live, hiu]; exact hne
  exact hk (hik ▸ (w.valid i (w.keyed_of_live hl)).permitted)

theorem normalizeKey_unpermitted (hk : ¬ k.Permitted) : ¬ k.normalizeKey.Permitted := by
  intro hp
  apply hk
  cases k with
  | num x =>
    refine ⟨by simp, fun y hy => ?_⟩
    cases hy
    by_contra hn
    have hx := hp.2 x.normalize rfl
    rw [F64.normalize, if_pos (by simpa using hn)] at hx
    exact absurd hx (by decide)
  | _ => exact hp

/-- If the stored form of a key has no value, neither has the key. -/
theorem value_nil_of_normalizeKey (w : t.Wf) (hn : t.value k.normalizeKey = .nil) : t.value k = .nil := by
  by_cases hk : k.Permitted
  · obtain hv | rfl := hk.cases
    · rwa [hv.normalize] at hn
    · have hn : t.value (.num F64.zero) = .nil := hn
      by_cases ha : 0 < t.asize
      · rw [value_of_arrayIdx (arrayIdx_zero (.inl rfl) ha)] at hn
        rw [value_of_arrayIdx (arrayIdx_zero (.inr rfl) ha), hn]
      · exact value_negZero w (Nat.eq_zero_of_not_pos ha)
  · exact value_unstorable w hk

/-- The stored form of a key that is an exact integer. -/
theorem normalizeKey_eq_ofInt {x : F64} {n : ℤ} (hi : x.asInt32Exact = some n) :
    (LuaValue.num x).normalizeKey = .ofInt n := by
  obtain ⟨hb, rfl | ⟨rfl, rfl⟩⟩ := F64.asInt32Exact_eq_some.mp hi
  · rfl
  · rfl

/-- The dispatch of a raw read finds what is stored under the stored form of the key. -/
theorem tget_eq (ch : t.Chained h) (k : LuaValue) : Ir.tget h t k = some (t.value k.normalizeKey) := by
  have hget : k.asInt32Exact = none → k.isString = false → t.value k = t.value k.normalizeKey →
      Ir.tget h t k = some (t.value k.normalizeKey) := by
    intro hi hs hv
    rw [Ir.tget, hs, hi]
    simp only [Bool.false_eq_true, if_false]
    rw [get_spec ch.toWf ch.findable, hv]
    rfl
  cases k with
  | str a =>
    have hs : (LuaValue.str a).isString = true := rfl
    rw [Ir.tget, if_pos hs, getStr_spec ch.toWf ch.findable hs]
    rfl
  | num x =>
    cases hi : x.asInt32Exact with
    | none =>
      refine hget hi rfl ?_
      by_cases hk : (LuaValue.num x).Permitted
      · obtain hv | heq := hk.cases
        · rw [hv.normalize]
        · cases heq
          exact absurd hi (by decide)
      · rw [value_unstorable ch.toWf hk, value_unstorable ch.toWf (normalizeKey_unpermitted hk)]
    | some n =>
      obtain ⟨hb, hx⟩ := F64.asInt32Exact_eq_some.mp hi
      have hnorm := normalizeKey_eq_ofInt hi
      have hi' : (LuaValue.num x).asInt32Exact = some n := hi
      rw [Ir.tget, if_neg (by simp [LuaValue.isString]), hi', hnorm]
      dsimp only
      split
      · rw [getInt_spec ch.toWf ch.findable hb.1 hb.2]
        rfl
      · have hv : (LuaValue.num x) = .ofInt n := by
          obtain rfl | ⟨rfl, rfl⟩ := hx
          · rw [LuaValue.ofInt_eq (by omega)]
          · omega
        rw [get_spec ch.toWf ch.findable, hv]
        rfl
  | _ => exact hget rfl rfl rfl

/-- An array slot holds what is stored under its index. -/
theorem getElem?_array (ch : t.Chained h) {x : F64} {n : ℤ} (hi : x.asInt32Exact = some n) (hlo : 0 ≤ n)
    (hhi : n.toNat < t.asize) : t.array[n.toNat]? = some (t.value (LuaValue.num x).normalizeKey) := by
  have hidx := arrayIdx_ofInt ch.toWf hhi
  rw [show ((n.toNat : ℕ) : ℤ) = n by omega] at hidx
  have hlt : n.toNat < t.array.length := ch.asize_eq ▸ hhi
  rw [normalizeKey_eq_ofInt hi, value_of_arrayIdx hidx, List.getElem?_eq_getElem hlt]
  simp [hlt]

/-! ### Tables of a later heap -/

/-- The metatable and the negative cache do not matter to the content. -/
theorem chained_retag (ch : t.Chained h) (m : ℕ) (mt : Option ℕ) :
    Chained h { t with nomm := m, metatable := mt } :=
  ⟨⟨ch.asize_eq, ch.asize_le, ch.size, ch.freetop_le, ch.next_lt, ch.forest, ch.fresh, ch.top_keyed, ch.valid,
    ch.split⟩, ch.homed, ch.unique, ch.foreign⟩

/-- An array part of nils. -/
theorem exists_empty (h : LuaValue → UInt32) {asize : ℕ} (ha : asize ≤ LJ_MAX_ASIZE) (mt : Option ℕ) :
    ∃ t, Chained h t ∧ t.nomm = 0 ∧ t.metatable = mt ∧ t.asize = asize ∧ ∀ k, k.Normal → t.value k = .nil := by
  have hspec := new_spec (h := h) asize 0
  rw [new_eq ha (Nat.zero_le _)] at hspec
  exact ⟨{ blank.emptied asize 0 with nomm := 0, metatable := mt }, chained_retag hspec.1 0 mt, rfl, rfl, rfl,
    fun k hk => hspec.2.1 ⟨k, hk⟩⟩

/-- A table with at most two entries. -/
theorem exists_table (h : LuaValue → UInt32) (mt : Option ℕ) (ops : List TableOp) (hops : ∀ op ∈ ops, ¬ op.Oversized)
    (hlen : ops.length ≤ 2) :
    ∃ t, Chained h t ∧ t.nomm = 0 ∧ t.metatable = mt ∧ ∀ k, k.Normal → t.value k = TableOp.content ops k := by
  have hspec := start_spec h 0 0 ops
  cases hs : start h 0 0 ops with
  | error e =>
    rw [hs] at hspec
    have hlim : ¬ ExceedsLimits 0 0 ops := by
      intro hl
      obtain ha | hb | ⟨op, hop, hover⟩ | hlong := hl
      · exact absurd ha (by decide)
      · exact absurd hb (by decide)
      · exact hops op hop hover
      · have hmax : 2 < 2^LJ_MAX_HBITS := by decide
        omega
    exact absurd hspec.2 hlim
  | ok t =>
    rw [hs] at hspec
    exact ⟨{ t with nomm := 0, metatable := mt }, chained_retag hspec.1 0 mt, rfl, rfl,
      fun k hk => hspec.2 ⟨k, hk⟩⟩

/-- A stored value of a key outside the array part is replaced in its node. -/
theorem exists_replaced (ch : t.Chained h) (hk : t.arrayIdx k = none) (hv : t.value k ≠ .nil) (v : LuaValue) :
    ∃ t' : LuaTable, t'.Chained h ∧ t'.asize = t.asize ∧ t'.metatable = t.metatable ∧ t'.nomm = t.nomm ∧
      ∀ l, l.Normal → t'.value l = if l = k then v else t.value l := by
  rw [value_of_hash hk] at hv
  obtain ⟨hne, s, hsk, hsv⟩ := (entry_iff ch.toWf ch.findable).mpr ⟨hv, rfl⟩
  have hlive : t.Live s := by rw [Live, hsv]; exact hne
  have hkeyed := ch.toWf.keyed_of_live hlive
  have hvac : Vacant h t k s := by
    refine ⟨hsk, ?_, fun j hj hkey => ?_⟩
    · rw [← hsk]
      exact ch.findable.homed s hlive
    · rw [← hsk] at hj
      exact ch.findable.first s hlive j hj (hkey.trans hsk.symm)
  exact ⟨t.storeVal s v, chained_storeVal ch hkeyed (hsk ▸ hk), rfl, rfl, rfl,
    puts_storeVal ch.toWf ch.findable hkeyed hvac hk⟩

end LuaTable
end LuajitRs

namespace LuajitRs.Ir
open Vm LuajitRs.LuaTable

/-! ### Stepping -/

variable {h : LuaValue → UInt32} {b c : IrBuf} {m m' m'' : Machine Bool} {ins : IRIns} {rest : List IRIns}

theorem runList_cons {e : Effect Bool} (he : evalIns (indexRuntime h) c m ins = some e) :
    runList h c (ins :: rest) m = if e.leave then some none else runList h c rest (commit m e) := runIns_cons he

theorem replay_grows {es : List IRIns} (hg : b.Grows c es) (r : Recorded) :
    replay h b c r m = (runList h c es m).bind fun
      | none => some none
      | some m => (r.outcome c m).map some := by
  rw [replay, runList, runIns_grows hg]
  cases runIns (indexRuntime h) c es m with
  | none => rfl
  | some o => cases o <;> rfl

/-! ### Guards -/

theorem runList_eq (ty : IRTy) {l k : ℕ} {x y : LuaValue} (hl : readRef c m.env l = some x)
    (hk : readRef c m.env k = some y) (hty : ty ≠ .num) :
    ∃ m', After m m' 1 ∧ m'.env = m.env ∧ ∀ rest, runList h c (.new .eq (guarded ty) l k :: rest) m =
      if x = y then runList h c rest m' else some none := runIns_eq ty hl hk hty

theorem runList_check {v : LuaValue} {ok : Prop} [Decidable ok]
    (he : evalIns (indexRuntime h) c m ins = some (.check m.world v (decide ok))) :
    ∃ m', After m m' 1 ∧ m'.env m.r = v ∧ ∀ rest, runList h c (ins :: rest) m =
      if ok then runList h c rest m' else some none := runIns_check he

section Guards
variable {a : ℕ} {tt : LuaTable} {t : ℕ} (ht : readRef c m.env t = some (.tab a)) (htt : m.world.tables a = some tt)
include ht htt

theorem runList_metaGuard :
    ∃ m', After m m' 1 ∧ ∀ rest, runList h c (.new .fload (guarded .nil) t IRFL_TAB_META :: rest) m =
      if tt.metatable = none then runList h c rest m' else some none := by
  have he : evalIns (indexRuntime h) c m (.new .fload (guarded .nil) t IRFL_TAB_META) =
      some (.guard m.world tt.metatable.isNone) := by
    simp [evalIns, IRIns.new, evalFload, ht, World.table, LuaValue.asTable, htt, guarded]
  refine ⟨commit m (.guard m.world tt.metatable.isNone), after_commit rfl, fun rest => ?_⟩
  rw [runList_cons he]
  cases tt.metatable <;> rfl

/-- The metatable is the recorded one. -/
theorem runList_pinMeta {mt k : ℕ} (hlt : k < REF_BIAS) (hk : c.constBits k = some (.tab mt))
    (hr : REF_BIAS ≤ m.r) :
    ∃ m', After m m' 2 ∧ m'.env m.r = metaValue tt ∧ ∀ rest,
      runList h c (.new .fload (guarded .tab) t IRFL_TAB_META :: .new .eq (guarded .tab) m.r k :: rest) m =
        if tt.metatable = some mt then runList h c rest m' else some none := by
  have he : evalIns (indexRuntime h) c m (.new .fload (guarded .tab) t IRFL_TAB_META) =
      some (.check m.world (metaValue tt) (typecheck (metaValue tt) .tab)) := by
    simp [evalIns, IRIns.new, evalFload, ht, World.table, LuaValue.asTable, htt, guarded]
  have hafter : After m (commit m (.check m.world (metaValue tt) (typecheck (metaValue tt) .tab))) 1 :=
    after_commit rfl
  have henv := commit_env (m := m) (e := .check m.world (metaValue tt) (typecheck (metaValue tt) .tab)) rfl
  have hload := readRef_ins (c := c) (commit m (.check m.world (metaValue tt)
    (typecheck (metaValue tt) .tab))).env hr
  rw [henv] at hload
  obtain ⟨m', hm', henv', hrun⟩ := runList_eq (h := h) .tab hload (readRef_const hlt hk) (by decide)
  refine ⟨m', hafter.trans hm', by rw [henv', henv], fun rest => ?_⟩
  rw [runList_cons he, hrun]
  cases hmt : tt.metatable with
  | none => simp [metaValue, hmt, Effect.check, typecheck]
  | some mt' => simp [metaValue, hmt, Effect.check, typecheck]

/-- A load of a type that lies inside the array part, if it is an array load. -/
def LoadOk (op : IROp) (tt : LuaTable) (k v : LuaValue) (ty : IRTy) : Prop :=
  typecheck v ty = true ∧ (op = .aload → ∃ ki, k.asInt32Exact = some ki ∧ 0 ≤ ki ∧ ki.toNat < tt.asize)

theorem runList_load (ch : tt.Chained h) {kr : ℕ} {k : LuaValue} (hkr : readRef c m.env kr = some k) {op : IROp}
    (hop : op = .hload ∨ op = .aload ∧ ∃ x, k = .num x) (ty : IRTy) :
    ∃ m', After m m' 1 ∧
      (LoadOk op tt k (tt.value k.normalizeKey) ty →
        m'.env m.r = tt.value k.normalizeKey ∧
          ∀ rest, runList h c (.new op (guarded ty) t kr :: rest) m = runList h c rest m') ∧
      (¬ LoadOk op tt k (tt.value k.normalizeKey) ty →
        ∀ rest, runList h c (.new op (guarded ty) t kr :: rest) m = some none) := by
  obtain rfl | ⟨rfl, x, rfl⟩ := hop
  · have he : evalIns (indexRuntime h) c m (.new .hload (guarded ty) t kr) =
        some (.check m.world (tt.value k.normalizeKey) (decide (typecheck (tt.value k.normalizeKey) ty = true))) := by
      simp [evalIns, IRIns.new, evalHload, ht, hkr, World.table, LuaValue.asTable, htt, guarded, indexRuntime,
        tget_eq ch, IRIns.isGuard]
    obtain ⟨m', hm', henv, hrun⟩ := runList_check he
    refine ⟨m', hm', fun hok => ⟨henv, fun rest => ?_⟩, fun hno rest => ?_⟩
    · rw [hrun, if_pos hok.1]
    · rw [hrun, if_neg fun htc => hno ⟨htc, (by rintro ⟨⟩)⟩]
  · by_cases hin : ∃ ki, x.asInt32Exact = some ki ∧ 0 ≤ ki ∧ ki.toNat < tt.asize
    · obtain ⟨ki, hki, hlo, hhi⟩ := hin
      have hval := getElem?_array ch hki hlo hhi
      have he : evalIns (indexRuntime h) c m (.new .aload (guarded ty) t kr) =
          some (.check m.world (tt.value (LuaValue.num x).normalizeKey)
            (decide (typecheck (tt.value (LuaValue.num x).normalizeKey) ty = true))) := by
        simp only [evalIns, IRIns.new, ht, hkr, Option.bind_eq_bind, Option.bind_some, evalAload, World.table,
          LuaValue.asTable, htt, arrayIndex, LuaValue.f64, Option.pure_def, hki]
        rw [if_pos ⟨hlo, hhi⟩, hval]
        simp [guarded]
      obtain ⟨m', hm', henv, hrun⟩ := runList_check he
      refine ⟨m', hm', fun hok => ⟨henv, fun rest => ?_⟩, fun hno rest => ?_⟩
      · rw [hrun, if_pos hok.1]
      · rw [hrun, if_neg fun htc => hno ⟨htc, fun _ => ⟨ki, hki, hlo, hhi⟩⟩]
    · have he : evalIns (indexRuntime h) c m (.new .aload (guarded ty) t kr) = some (.exit m.world) := by
        simp only [evalIns, IRIns.new, ht, hkr, Option.bind_eq_bind, Option.bind_some, evalAload, World.table,
          LuaValue.asTable, htt, arrayIndex, LuaValue.f64, Option.pure_def]
        cases hx : x.asInt32Exact with
        | none => rfl
        | some ki =>
          dsimp only
          rw [if_neg fun hb => hin ⟨ki, hx, hb⟩]
      refine ⟨commit m (.exit m.world), after_commit rfl, fun hok => absurd (hok.2 rfl) hin, fun _ rest => ?_⟩
      rw [runList_cons he]
      rfl

/-- The field of the metatable is the recorded metamethod. -/
theorem runList_pinMethod (ch : tt.Chained h) {kr mr x f : ℕ} (hkr : readRef c m.env kr = some (.str x))
    (hlt : mr < REF_BIAS) (hmr : c.constBits mr = some (.func f)) (hr : REF_BIAS ≤ m.r) :
    ∃ m', After m m' 2 ∧ ∀ rest,
      runList h c (.new .hload (guarded .func) t kr :: .new .eq (guarded .func) m.r mr :: rest) m =
        if tt.value (.str x) = .func f then runList h c rest m' else some none := by
  obtain ⟨m₁, hm₁, hpass, hfail⟩ := runList_load ht htt ch hkr (.inl rfl) .func
  have hload := readRef_ins (c := c) m₁.env hr
  obtain ⟨m', hm', -, hrun⟩ := runList_eq (h := h) .func hload (readRef_const hlt hmr) (by decide)
  refine ⟨m', hm₁.trans hm', fun rest => ?_⟩
  have hname : (LuaValue.str x).normalizeKey = .str x := rfl
  rw [hname] at hpass hfail
  by_cases hok : LoadOk .hload tt (.str x) (tt.value (.str x)) .func
  · obtain ⟨henv, hrun'⟩ := hpass hok
    rw [hrun', hrun, henv]
  · rw [hfail hok, if_neg]
    intro heq
    rw [heq] at hok
    exact hok ⟨rfl, nofun⟩

end Guards

/-! ### Stores -/

theorem runList_gcstep (k k' : ℕ) :
    ∃ m', After m m' 1 ∧ ∀ rest, runList h c (.new .gcstep (guarded .nil) k k' :: rest) m =
      if m.world.rest then some none else runList h c rest m' := by
  have he : evalIns (indexRuntime h) c m (.new .gcstep (guarded .nil) k k') =
      some ⟨none, m.world, m.world.rest, true⟩ := rfl
  refine ⟨commit m ⟨none, m.world, m.world.rest, true⟩, after_commit rfl, fun rest => ?_⟩
  rw [runList_cons he]

/-- A store inside the array part, if it is an array store. -/
def StoreOk (op : IROp) (tt : LuaTable) (k : LuaValue) : Prop :=
  op = .astore → ∃ ki, k.asInt32Exact = some ki ∧ 0 < ki ∧ ki.toNat < tt.asize

/-- The raw store of the interpreter, by either instruction. -/
theorem evalIns_store {a : ℕ} {tt : LuaTable} {t kr vr cr : ℕ} {k v : LuaValue}
    (ht : readRef c m.env t = some (.tab a)) (htt : m.world.tables a = some tt) (hk : readRef c m.env kr = some k)
    (hv : readRef c m.env vr = some v) (hcarg : carg c cr = some (kr, vr)) {op : IROp}
    (hop : op = .hstore ∨ op = .astore ∧ ∃ x, k = .num x) :
    (StoreOk op tt k → evalIns (indexRuntime h) c m (.new op (plain .nil) t cr) =
        (tset h tt k v).map fun t' => .skip (m.world.setTable a t')) ∧
      (¬ StoreOk op tt k → evalIns (indexRuntime h) c m (.new op (plain .nil) t cr) = some (.exit m.world)) := by
  obtain rfl | ⟨rfl, x, rfl⟩ := hop
  · refine ⟨fun _ => ?_, fun hno => absurd (fun h => by cases h) hno⟩
    simp only [evalIns, IRIns.new, hcarg, ht, hk, hv, Option.bind_eq_bind, Option.bind_some, evalHstore, World.table,
      LuaValue.asTable, htt, Option.pure_def, indexRuntime]
    cases tset h tt k v <;> rfl
  · have heval : evalIns (indexRuntime h) c m (.new .astore (plain .nil) t cr) =
        evalAstore m (.tab a) (.num x) v := by
      simp only [evalIns, IRIns.new, hcarg, ht, hk, hv, Option.bind_eq_bind, Option.bind_some]
    rw [heval]
    simp only [evalAstore, World.table, LuaValue.asTable, htt, Option.bind_eq_bind, Option.bind_some, arrayIndex,
      LuaValue.f64, Option.pure_def]
    refine ⟨fun hok => ?_, fun hno => ?_⟩
    · obtain ⟨ki, hki, hlo, hhi⟩ := hok rfl
      have hki : x.asInt32Exact = some ki := hki
      have htset : tset h tt (.num x) v = (tt.setArray ki.toNat v).toOption := by
        have hkey : (LuaValue.num x).asInt32Exact = some ki := hki
        rw [tset, if_neg (by simp [LuaValue.isString]), hkey]
        dsimp only
        rw [if_pos (by omega), setInt, if_pos ⟨hlo, hhi⟩]
      rw [hki]
      dsimp only
      rw [if_pos ⟨hlo, hhi⟩, htset]
      cases (tt.setArray ki.toNat v).toOption <;> rfl
    · cases hx : x.asInt32Exact with
      | none => rfl
      | some ki =>
        dsimp only
        rw [if_neg fun hb => hno fun _ => ⟨ki, hx, hb⟩]

/-- The store with the `CARG` before it. -/
theorem runList_store {a : ℕ} {tt : LuaTable} {t kr vr : ℕ} {k v : LuaValue}
    (ht : readRef c m.env t = some (.tab a)) (htt : m.world.tables a = some tt) (hk : readRef c m.env kr = some k)
    (hv : readRef c m.env vr = some v) (hcarg : carg c m.r = some (kr, vr)) {op : IROp}
    (hop : op = .hstore ∨ op = .astore ∧ ∃ x, k = .num x) :
    let run := (runList h c [.new .carg (plain .nil) kr vr, .new op (plain .nil) t m.r] m).bind fun
      | none => some none
      | some m => (Recorded.stored.outcome c m).map some
    (StoreOk op tt k → run = (rawStore m.world a (tset h tt k v)).map some) ∧ (¬ StoreOk op tt k → run = some none) := by
  have hc : evalIns (indexRuntime h) c m (.new .carg (plain .nil) kr vr) = some (.skip m.world) := rfl
  obtain ⟨hpass, hfail⟩ := evalIns_store (h := h) (c := c) (m := commit m (.skip m.world)) ht htt hk hv hcarg hop
  refine ⟨fun hok => ?_, fun hno => ?_⟩
  · rw [runList_cons hc, if_neg (by simp [Effect.skip]), runList, runIns, hpass hok]
    cases tset h tt k v <;> rfl
  · rw [runList_cons hc, if_neg (by simp [Effect.skip]), runList, runIns, hfail hno]
    rfl

end LuajitRs.Ir
