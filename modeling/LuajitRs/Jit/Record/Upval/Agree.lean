import LuajitRs.Jit.Record.Upval.Parts

/-! When a recorded upvalue access hits the cell that the upvalue has in a later run. What was recorded stands for
the place of the upvalue at recording time; a closed upvalue never moves, an open one moves with its stack and
away from it. -/
namespace LuajitRs.Ir
open Vm

variable {s : Site} {b c : IrBuf} {slot slot' : SlotMap} {m : Machine Space} {tr : TRef} {i n p d u : ℕ}
  {v : LuaValue}

/-! ### Reading -/

/-- The last part of a recorded read. -/
structure ReadsTo (b : IrBuf) (slot : SlotMap) (c : IrBuf) (slot' : SlotMap) (tr : TRef) (ok : Machine Space → Prop)
    (value : Machine Space → LuaValue) (es : List IRIns) : Prop where
  grows : b.Grows c es
  pass : ∀ m, Window b m → ok m → ∃ m', After m m' es.length ∧ interpWord c slot' m' = interpWord b slot m ∧
    readRef c m'.env tr.ref = some (value m) ∧ runIns upvalRuntime c es m = some (some m')
  fail : ∀ m, Window b m → ¬ ok m → runIns upvalRuntime c es m = some none

/-- A register that has a reference now. -/
theorem Does.reads {ok : Machine Space → Prop} {es : List IRIns} {abs : ℕ} (h : Does b slot c slot' (Window b) ok es)
    (htr : slot' abs = some tr) :
    ReadsTo b slot c slot' tr ok (fun m => interpWord b slot m (regAddr m abs)) es := by
  refine ⟨h.grows, fun m hm hok => ?_, fun m hm hno => by simpa using h.fail c m (.refl c) hm hno []⟩
  obtain ⟨m', hm', hw, hrun⟩ := h.pass c m (.refl c) hm hok
  obtain ⟨v, hv⟩ := h.slots.reads htr m'.env
  have hval := interpWord_of_some (hm'.cbase ▸ hm.cbase) htr hv
  have haddr : regAddr m' abs = regAddr m abs := by rw [regAddr, regAddr, hm'.world, hm'.cbase]
  refine ⟨m', hm', hw, ?_, ?_⟩
  · rw [hv, ← hval, haddr, hw]
  · rw [← List.append_nil es, hrun []]
    rfl

theorem constify_spec (hb : b.Ready 1) (v : LuaValue) :
    b.Grows (constify b v).1 [] ∧ ∀ env, readRef (constify b v).1 env (constify b v).2.ref = some v := by
  have hword : ∀ op ty, op = IROp.kgc ∨ op = .kint64 ∨ op = .knum → b.Grows (b.intern op ty v).1 [] ∧
      ∀ env, readRef (b.intern op ty v).1 env (b.intern op ty v).2 = some v := by
    intro op ty hop
    obtain ⟨hins, -, hkeeps, hbits, hlt, -⟩ :=
      IrBuf.intern_word hop (v := v) hb.consts (by have := hb.room; omega) ty
    exact ⟨⟨⟨[], by rw [hins, List.append_nil], rfl⟩, hkeeps⟩, fun env => readRef_const hlt hbits⟩
  have hother : irtIspri (valueIrt v) = false → b.Grows (b.kgc v (valueIrt v)).1 [] ∧
      ∀ env, readRef (b.kgc v (valueIrt v)).1 env (b.kgc v (valueIrt v)).2 = some v := fun _ => hword _ _ (.inl rfl)
  cases v with
  | nil => exact ⟨.refl b, fun env => readRef_const (show REF_NIL < REF_BIAS by decide) hb.consts.nil⟩
  | bool x =>
    cases x with
    | false => exact ⟨.refl b, fun env => readRef_const (show REF_FALSE < REF_BIAS by decide) hb.consts.false⟩
    | true => exact ⟨.refl b, fun env => readRef_const (show REF_TRUE < REF_BIAS by decide) hb.consts.true⟩
  | num x => exact hword .knum .num (.inr (.inr rfl))
  | _ => exact hother rfl

theorem pointee_cellPtr (h : 8 * p < 2^64) : pointee (.num ⟨cellPtr p⟩) = p := by
  show (UInt64.ofNat (8 * p)).toNat / 8 = p
  rw [UInt64.toNat_ofNat', Nat.mod_eq_of_lt h]
  omega

/-- The load through the address of the cell. -/
theorem uload_reads (hs : SlotsOk b slot) (hb : b.Ready 1) (hfits : 8 * p < 2^64) (w : LuaValue) :
    let k := b.kint64 (cellPtr p)
    let c := k.1.emitIns (.new .uload (guarded (valueIrt w)) k.2 0)
    ReadsTo b slot c.1 slot (loadedRef (valueIrt w) c.2)
      (fun m => typecheck (m.world.rest.word p) (valueIrt w) = true) (fun m => m.world.rest.word p)
      [.new .uload (guarded (valueIrt w)) k.2 0] := by
  intro k c
  have hg₁ : b.Grows k.1 [] := IrBuf.Grows.intern (n := 0) (.inr rfl) hb (.num ⟨cellPtr p⟩) .i64
  obtain ⟨-, -, -, hbits, hlt, -⟩ :=
    IrBuf.intern_spec (.inr rfl) (v := .num ⟨cellPtr p⟩) hb.consts (by have := hb.room; omega) .i64
  have hg₂ : k.1.Grows c.1 [.new .uload (guarded (valueIrt w)) k.2 0] := IrBuf.Grows.emitIns _ rfl
  have hg : b.Grows c.1 [.new .uload (guarded (valueIrt w)) k.2 0] := hg₁.trans hg₂
  have hready : c.1.Ready 0 := (IrBuf.Ready.intern (n := 0) (.inr rfl) hb (.num ⟨cellPtr p⟩) .i64).emitIns rfl
  have hcell : c.2 = b.nins := hg₁.nins
  have he : ∀ m, evalIns upvalRuntime c.1 m (.new .uload (guarded (valueIrt w)) k.2 0) =
      some (.check m.world (m.world.rest.word p) (decide (typecheck (m.world.rest.word p) (valueIrt w) = true))) := by
    intro m
    have hconst : c.1.constBits k.2 = some (.num ⟨cellPtr p⟩) := hg₂.keeps _ _ hbits
    simp only [evalIns, IRIns.new, hconst, Option.bind_eq_bind, Option.bind_some, upvalRuntime, pointee_cellPtr hfits]
    simp [guarded, IRIns.isGuard]
  refine ⟨hg, fun m hm hok => ?_, fun m hm hno => ?_⟩
  · obtain ⟨m', hm', henv, hrun⟩ := runIns_check (he m)
    refine ⟨m', hm', hm.interpWord hs hg.keeps hm', ?_, by rw [hrun, if_pos hok]; rfl⟩
    exact readRef_loaded hready.consts hok (hcell ▸ b.nins_ge) (by rw [hcell, ← hm.r, henv])
  · obtain ⟨m', -, -, hrun⟩ := runIns_check (he m)
    rw [hrun, if_neg hno]

/-- The register, whether it has a reference already or is loaded. -/
theorem getslotAbs_reads (hs : SlotsOk b slot) (hb : b.Ready n) (abs : ℕ) :
    let p := s.getslotAbs b slot abs
    ∃ es, ReadsTo b slot p.1 p.2.1 p.2.2
      (fun m => slot abs = none → typecheck (m.world.rest.word (regAddr m abs)) (valueIrt (s.slotValue abs)) = true)
      (fun m => interpWord b slot m (regAddr m abs)) es := by
  cases habs : slot abs with
  | some tr =>
    have heq : s.getslotAbs b slot abs = (b, slot, tr) := by simp only [Site.getslotAbs, habs]
    rw [heq]
    refine ⟨[], ((intern_does hs (.refl b)).congr (fun m hm => hm) fun m hm => ?_).reads habs⟩
    exact iff_of_true trivial (by rintro ⟨⟩)
  | none =>
    have heq : s.getslotAbs b slot abs = ((b.emitIns (.new .sload (guarded (valueIrt (s.slotValue abs))) abs
        IRSLOAD_TYPECHECK)).1, Function.update slot abs (some (loadedRef (valueIrt (s.slotValue abs)) b.nins)),
        loadedRef (valueIrt (s.slotValue abs)) b.nins) := by
      simp only [Site.getslotAbs, habs]
      rfl
    rw [heq]
    refine ⟨_, ((sload_does hs hb abs (s.slotValue abs) habs).congr (fun m hm => hm) fun m hm => ?_).reads
      (Function.update_self ..)⟩
    exact ⟨fun h _ => h, fun h => h rfl⟩

/-- The source of a recorded read, after the closure guard. -/
theorem source_reads (hs : SlotsOk b slot) (hb : b.Ready 1) (hfits : 8 * (s.space.upval u).v < 2^64)
    (hrec : (match s.source u with
      | .const v =>
        let (b, tr) := constify b v
        some (b, slot, tr)
      | .slot abs => some (s.getslotAbs b slot abs)
      | .cell p =>
        let t := valueIrt (s.space.get u)
        let (b, cell) := b.kint64 (cellPtr p)
        let (b, r) := b.emitIns (.new .uload (guarded t) cell 0)
        some (b, slot, loadedRef t r)) = some (c, slot', tr)) :
    ∃ es, ReadsTo b slot c slot' tr (fun m => (s.source u).Passes s slot m u) (fun m => (s.source u).value b slot m) es := by
  cases hsrc : s.source u with
  | const v =>
    rw [hsrc] at hrec
    obtain ⟨hg, hread⟩ := constify_spec hb v
    obtain ⟨rfl, rfl, rfl⟩ : (constify b v).1 = c ∧ slot = slot' ∧ (constify b v).2 = tr := by simpa using hrec
    refine ⟨[], hg, fun m hm _ => ?_, fun m hm hno => absurd trivial hno⟩
    exact ⟨m, .refl m, hm.interpWord hs hg.keeps (.refl m), hread m.env, rfl⟩
  | slot abs =>
    rw [hsrc] at hrec
    have heq : s.getslotAbs b slot abs = (c, slot', tr) := Option.some.inj hrec
    have hreads := getslotAbs_reads (s := s) hs hb abs
    rw [heq] at hreads
    exact hreads
  | cell p =>
    rw [hsrc] at hrec
    have hp : p = (s.space.upval u).v := by
      rw [Site.source] at hsrc
      split at hsrc
      · cases hsrc
      · split at hsrc
        · cases hsrc
        · exact (Source.cell.inj hsrc).symm
    obtain ⟨rfl, rfl, rfl⟩ := Prod.mk.injEq .. ▸ Option.some.inj hrec
    exact ⟨_, uload_reads hs hb (hp ▸ hfits) (s.space.get u)⟩

section Uget
variable (hok : s.Ok b slot) (hrec : s.recUget d b slot = some (c, slot', tr))
include hok hrec

/-- What the replay of a recorded read gives. -/
theorem recUget_replay : ∃ u, curUpval s.space s.space.word s.base d = some u ∧ ∀ m, s.Entered b slot m →
    (SameClosure s b slot m → (s.source u).Passes s slot m u →
      replayUget b c slot' tr m = some (some ((s.source u).value b slot m, interpWord b slot m))) ∧
    (¬ SameClosure s b slot m ∨ ¬ (s.source u).Passes s slot m u → replayUget b c slot' tr m = some none) := by
  simp only [Site.recUget, Option.bind_eq_bind, Option.bind_eq_some_iff] at hrec
  obtain ⟨u, hu, hrec⟩ := hrec
  obtain ⟨f, us, hf, hus, hmem⟩ := fnval_of_curUpval hu
  obtain ⟨hr₁, hkeep, hpin, es₁, h₁⟩ := specializeCurfn_does hok ⟨f, hf⟩
  obtain ⟨es₂, h₂⟩ := source_reads h₁.slots hr₁ (hok.fits u) hrec
  refine ⟨u, hu, fun m hm => ?_⟩
  rw [replayUget, runIns_grows (h₁.grows.trans h₂.grows)]
  by_cases hsame : SameClosure s b slot m
  · obtain ⟨m₁, hm₁, hw₁, hrun₁⟩ := h₁.pass c m h₂.grows.keeps hm hsame
    have hwin := hm.window.grows h₁.grows hm₁
    have haddr : ∀ i, regAddr m₁ i = regAddr m i := fun i => by rw [regAddr, regAddr, hm₁.world, hm₁.cbase]
    have hvalue : (s.source u).value (s.specializeCurfn b slot).1 (s.specializeCurfn b slot).2 m₁ =
        (s.source u).value b slot m := by
      cases s.source u with
      | const v => rfl
      | slot abs => simp only [Source.value, hw₁, haddr]
      | cell p => simp only [Source.value, hm₁.world]
    have hpasses : (s.source u).Passes s (s.specializeCurfn b slot).2 m₁ u ↔ (s.source u).Passes s slot m u := by
      cases s.source u with
      | const v => exact Iff.rfl
      | cell p => simp only [Source.Passes, hm₁.world]
      | slot abs =>
        simp only [Source.Passes, hm₁.world, haddr]
        by_cases habs : abs = s.fslot
        · subst habs
          obtain ⟨tr', htr'⟩ := Option.isSome_iff_exists.mp hpin
          refine iff_of_true (fun h => ?_) fun h => ?_
          · rw [htr'] at h
            cases h
          · have hword : m.world.rest.word (regAddr m s.fslot) = s.fnval := by
              have hmem : interpWord b slot m (regAddr m s.fslot) = m.world.rest.word (regAddr m s.fslot) :=
                interpWord_of_none (by rw [named_regAddr hm.cbase, h])
              rw [← hmem]
              exact hsame
            rw [hword, hok.fnval_eq, typecheck_valueIrt]
        · rw [hkeep abs habs]
    rw [hrun₁]
    refine ⟨fun _ hpass => ?_, fun hno => ?_⟩
    · obtain ⟨m₂, hm₂, hw₂, hread, hrun₂⟩ := h₂.pass m₁ hwin (hpasses.mpr hpass)
      rw [hrun₂]
      simp only [Option.bind_eq_bind, Option.bind_some, hread, hw₂, hw₁, hvalue]
    · rw [h₂.fail m₁ hwin fun hpass => hno.elim (fun h => h hsame) fun h => h (hpasses.mp hpass)]
      rfl
  · refine ⟨fun h => absurd h hsame, fun _ => ?_⟩
    rw [h₁.fail c m h₂.grows.keeps hm hsame]
    rfl

end Uget

theorem exists_recUget (hu : curUpval s.space s.space.word s.base d = some u) (b : IrBuf) (slot : SlotMap) :
    ∃ c slot' tr, s.recUget d b slot = some (c, slot', tr) := by
  simp only [Site.recUget, hu, Option.bind_eq_bind, Option.bind_some]
  cases s.source u <;> exact ⟨_, _, _, rfl⟩

theorem uget_agrees_iff (hok : s.Ok b slot) (he : s.Entered b slot m) :
    UgetAgrees s d b slot m ↔ UgetHolds s d b slot m := by
  refine ⟨fun h u hu => ?_, fun h c slot' tr hrec => ?_⟩
  · obtain ⟨c, slot', tr, hrec⟩ := exists_recUget hu b slot
    obtain ⟨u', hu', hreplay⟩ := recUget_replay hok hrec
    obtain rfl : u = u' := Option.some.inj (hu.symm.trans hu')
    obtain ⟨hpass, -⟩ := hreplay m he
    by_cases hsame : SameClosure s b slot m
    · by_cases hpasses : (s.source u).Passes s slot m u
      · have hagrees := h c slot' tr hrec
        rw [hpass hsame hpasses, opUget, curUpval_later he hu hsame] at hagrees
        simp only [Option.some.injEq, reduceCtorEq, Option.bind_eq_bind, Option.bind_some, Option.map_some,
          Prod.mk.injEq, and_true, false_or] at hagrees
        exact .inr (.inr hagrees)
      · exact .inr (.inl hpasses)
    · exact .inl hsame
  · obtain ⟨u, hu, hreplay⟩ := recUget_replay hok hrec
    obtain ⟨hpass, hfail⟩ := hreplay m he
    by_cases hno : ¬ SameClosure s b slot m ∨ ¬ (s.source u).Passes s slot m u
    · exact .inl (hfail hno)
    · have hsame : SameClosure s b slot m := by
        by_contra hc
        exact hno (.inl hc)
      have hpasses : (s.source u).Passes s slot m u := by
        by_contra hc
        exact hno (.inr hc)
      have hval := ((h u hu).resolve_left (not_not.mpr hsame)).resolve_left (not_not.mpr hpasses)
      refine .inr ?_
      rw [hpass hsame hpasses, opUget, curUpval_later he hu hsame, hval]
      rfl

/-! ### Writing -/

section Uset
variable {val : TRef} (hok : s.Ok b slot) (hval : val.ref < b.nins)

/-- A word after a write: registers that keep a reference have their value, the other words are in memory. -/
def written (s : Site) (b : IrBuf) (slot : SlotMap) (m : Machine Space) (uv : Upval) (v : LuaValue) (p : ℕ) :
    LuaValue :=
  if (named (s.invalidate uv (s.specializeCurfn b slot).2) m p).isSome then interpWord b slot m p
  else Function.update m.world.rest.word uv.v v p

theorem invalidate_of_some {uv : Upval} (h : s.invalidate uv slot i = some tr) :
    slot i = some tr ∧ s.invalidated uv ≠ some i := by
  rw [Site.invalidate] at h
  cases hinv : s.invalidated uv with
  | none =>
    rw [hinv] at h
    exact ⟨h, fun hc => nomatch hc⟩
  | some abs =>
    rw [hinv] at h
    by_cases hi : i = abs
    · simp [hi] at h
    · exact ⟨(Function.update_of_ne hi _ _).symm.trans h, fun hc => hi (Option.some.inj hc).symm⟩

theorem invalidate_of_ne {uv : Upval} (h : s.invalidated uv ≠ some i) : s.invalidate uv slot i = slot i := by
  rw [Site.invalidate]
  cases hinv : s.invalidated uv with
  | none => rfl
  | some abs => exact Function.update_of_ne (fun hi => h (hinv.trans (congrArg some hi.symm))) _ _

/-- The call that writes to the address of the cell. -/
theorem runIns_uset {k ref : ℕ} (hcarg : carg c m.r = some (k, ref))
    (hk : readRef c m.env k = some (.num ⟨cellPtr p⟩)) (hv : readRef c m.env ref = some v) (hfits : 8 * p < 2^64) :
    ∃ m', runIns upvalRuntime c [.new .carg (plain .nil) k ref, .new .calll (plain .nil) m.r IRCALL_USET] m =
        some (some m') ∧
      m'.world = { m.world with rest := m.world.rest.set p v } ∧ m'.cbase = m.cbase ∧ ∀ r < m.r, m'.env r = m.env r := by
  have hskip : evalIns upvalRuntime c m (.new .carg (plain .nil) k ref) = some (.skip m.world) := rfl
  obtain ⟨m₁, hm₁, henv, hstep⟩ := runIns_skip hskip
  have hargs : callArgs c m₁ IRCALL_USET m.r = some [.num ⟨cellPtr p⟩, v] := by
    rw [callArgs, if_neg (by decide), hcarg]
    simp only [Option.bind_eq_bind, Option.bind_some]
    rw [if_pos (by decide), henv, hk, hv]
    rfl
  have he : evalIns upvalRuntime c m₁ (.new .calll (plain .nil) m.r IRCALL_USET) =
      some ⟨some v, { m.world with rest := m.world.rest.set p v }, false, false⟩ := by
    simp only [evalIns, IRIns.new, hargs, Option.bind_eq_bind, Option.bind_some, upvalRuntime, if_true,
      pointee_cellPtr hfits, hm₁.world]
    rfl
  refine ⟨commit m₁ ⟨some v, { m.world with rest := m.world.rest.set p v }, false, false⟩, ?_, rfl, hm₁.cbase, ?_⟩
  · rw [hstep, runIns_cons he]
    rfl
  · intro r hr
    have hne : r ≠ m₁.r := by
      rw [hm₁.r]
      omega
    exact (Function.update_of_ne hne _ _).trans (by rw [henv])

include hok hval in
/-- What the replay of a recorded write gives. -/
theorem recUset_replay (hu : curUpval s.space s.space.word s.base d = some u) : ∃ c slot',
    s.recUset d val b slot = some (c, slot') ∧ ∀ m, s.Entered b slot m → ∀ v, readRef b m.env val.ref = some v →
      (SameClosure s b slot m →
        replayUset b c slot' m = some (some (written s b slot m (s.space.upval u) v))) ∧
      (¬ SameClosure s b slot m → replayUset b c slot' m = some none) := by
  obtain ⟨f, us, hf, hus, hmem⟩ := fnval_of_curUpval hu
  obtain ⟨hr₁, -, -, es₁, h₁⟩ := specializeCurfn_does hok ⟨f, hf⟩
  set uv := s.space.upval u with huv
  have hfits : 8 * uv.v < 2^64 := hok.fits u
  have hrec : ∃ c slot', s.recUset d val b slot = some (c, slot') ∧
      slot' = s.invalidate uv (s.specializeCurfn b slot).2 ∧ ∃ k, k < REF_BIAS ∧
        c.constBits k = some (.num ⟨cellPtr uv.v⟩) ∧ (s.specializeCurfn b slot).1.Grows c
          [.new .carg (plain .nil) k val.ref, .new .calll (plain .nil) (s.specializeCurfn b slot).1.nins IRCALL_USET] := by
    simp only [Site.recUset, hu, Option.bind_eq_bind, Option.bind_some]
    refine ⟨_, _, rfl, rfl, ?_⟩
    generalize (s.specializeCurfn b slot).1 = b₁ at hr₁
    have hg₁ : b₁.Grows (b₁.kint64 (cellPtr uv.v)).1 [] := IrBuf.Grows.intern (n := 0) (.inr rfl) hr₁ _ .i64
    obtain ⟨-, -, -, hbits, hlt, -⟩ :=
      IrBuf.intern_spec (.inr rfl) (v := .num ⟨cellPtr uv.v⟩) hr₁.consts (by have := hr₁.room; omega) .i64
    have hg₂ := IrBuf.Grows.emitIns (b := (b₁.kint64 (cellPtr uv.v)).1)
      (.new .carg (plain .nil) (b₁.kint64 (cellPtr uv.v)).2 val.ref) rfl
    have hg₃ := hg₂.trans (IrBuf.Grows.emitIns
      (.new .calll (plain .nil) (b₁.kint64 (cellPtr uv.v)).1.nins IRCALL_USET) rfl)
    refine ⟨(b₁.kint64 (cellPtr uv.v)).2, hlt, hg₃.keeps _ _ hbits, ?_⟩
    rw [show b₁.nins = (b₁.kint64 (cellPtr uv.v)).1.nins from hg₁.nins.symm]
    exact hg₁.trans hg₃
  obtain ⟨c, slot', hrec, hslot', k, hk, hbits, hg⟩ := hrec
  refine ⟨c, slot', hrec, fun m hm v hv => ?_⟩
  rw [replayUset, runIns_grows (h₁.grows.trans hg)]
  by_cases hsame : SameClosure s b slot m
  · refine ⟨fun _ => ?_, fun h => absurd hsame h⟩
    obtain ⟨m₁, hm₁, hw₁, hrun₁⟩ := h₁.pass c m hg.keeps hm hsame
    have hwin := hm.window.grows h₁.grows hm₁
    have hkeeps := h₁.grows.keeps.trans hg.keeps
    have hv₁ : readRef c m₁.env val.ref = some v := hkeeps.readRef hv fun _ => hm₁.env _ (hm.r ▸ hval)
    obtain ⟨m₂, hrun₂, hworld, hcbase, henv⟩ := runIns_uset (hwin.r ▸ IrBuf.Grows.carg [] hg)
      (readRef_const hk hbits) hv₁ hfits
    rw [hrun₁, ← hwin.r, hrun₂]
    simp only [Option.bind_eq_bind, Option.bind_some, Option.some.injEq]
    funext p
    have hn : named slot' m₂ p = named slot' m p := by
      have hcb := hcbase.trans hm₁.cbase
      simp only [named, hworld, hcb, hm₁.world]
      rfl
    have hword : m₂.world.rest.word = Function.update m.world.rest.word uv.v v := by
      rw [hworld, hm₁.world]
      rfl
    rw [written, ← hslot', interpWord, hn, hword]
    cases hname : named slot' m p with
    | none => rfl
    | some tr =>
      obtain ⟨i, hp, hi⟩ := named_eq_some hname
      rw [hslot'] at hi
      have hslot := (invalidate_of_some hi).1
      obtain ⟨w, hw⟩ := h₁.slots.reads hslot m₁.env
      have hlt : tr.ref < m₁.r := hwin.r ▸ (h₁.slots i tr hslot).1
      have hval₁ := interpWord_of_some hwin.cbase hslot hw
      have haddr : regAddr m₁ i = regAddr m i := by rw [regAddr, regAddr, hm₁.world, hm₁.cbase]
      rw [hw₁, haddr, ← hp] at hval₁
      simp only [Option.isSome_some, if_true, hval₁, hg.keeps.readRef hw fun _ => henv _ hlt, Option.getD_some]
  · refine ⟨fun h => absurd h hsame, fun _ => ?_⟩
    rw [h₁.fail c m hg.keeps hm hsame]
    rfl

include hok in
/-- The registers with a reference after a write. -/
theorem named_invalidate (hc : 2 ≤ m.cbase) (hf : ∃ f, s.fnval = .func f) (uv : Upval) (p : ℕ) :
    (named (s.invalidate uv (s.specializeCurfn b slot).2) m p).isSome ↔ Kept s slot m uv p := by
  obtain ⟨-, hkeep, hpin, -⟩ := specializeCurfn_does hok hf
  refine ⟨fun h => ?_, fun h => ?_⟩
  · obtain ⟨tr, htr⟩ := Option.isSome_iff_exists.mp h
    obtain ⟨i, hp, hi⟩ := named_eq_some htr
    obtain ⟨hslot, hinv⟩ := invalidate_of_some hi
    refine ⟨i, hp, hinv, ?_⟩
    by_cases hfs : i = s.fslot
    · exact .inr hfs
    · refine .inl fun hnone => ?_
      rw [hkeep i hfs, hnone] at hslot
      cases hslot
  · obtain ⟨i, rfl, hinv, hi⟩ := h
    rw [named_regAddr hc, invalidate_of_ne hinv]
    by_cases hfs : i = s.fslot
    · exact hfs ▸ hpin
    · rw [hkeep i hfs]
      exact Option.isSome_iff_ne_none.mpr (hi.resolve_right hfs)

theorem written_of_kept {uv : Upval} (h : (named (s.invalidate uv (s.specializeCurfn b slot).2) m p).isSome) :
    written s b slot m uv v p = interpWord b slot m p := by rw [written, if_pos h]

theorem written_of_not_kept {uv : Upval} (h : ¬ (named (s.invalidate uv (s.specializeCurfn b slot).2) m p).isSome) :
    written s b slot m uv v p = Function.update m.world.rest.word uv.v v p := by rw [written, if_neg h]

include hok in
theorem uset_agrees_iff (he : s.Entered b slot m) : UsetAgrees s d b slot m ↔ UsetHolds s d b slot m := by
  have hc := he.cbase
  refine ⟨fun h u hu hsame => ?_, fun h val v hval hv c slot' hrec => ?_⟩
  · obtain ⟨f, us, hf, -⟩ := fnval_of_curUpval hu
    have hkept := named_invalidate hok hc ⟨f, hf⟩ (s.space.upval u)
    set uv := s.space.upval u with huv
    set cell := (m.world.rest.upval u).v with hcell
    -- What nil and false say when they are written.
    have heq : ∀ (ty : IRTy) (v : LuaValue), readRef b m.env (trefPri ty).ref = some v → (trefPri ty).ref < b.nins →
        written s b slot m uv v = Function.update (interpWord b slot m) cell v := by
      intro ty v hv hlt
      obtain ⟨c, slot', hrec, hreplay⟩ := recUset_replay hok hlt hu
      have hagrees := h (trefPri ty) v hlt hv c slot' hrec
      rw [(hreplay m he v hv).1 hsame, opUset, curUpval_later he hu hsame] at hagrees
      simpa using hagrees
    have hnil := heq .nil .nil (readRef_const (by decide) hok.ready.consts.nil) (Nat.lt_of_lt_of_le (by decide) b.nins_ge)
    have hfalse := heq .false (.bool false) (readRef_const (by decide) hok.ready.consts.false)
      (Nat.lt_of_lt_of_le (by decide) b.nins_ge)
    have hncell := congrFun hnil cell
    have hfcell := congrFun hfalse cell
    rw [Function.update_self] at hncell hfcell
    have hnot : ¬ (named (s.invalidate uv (s.specializeCurfn b slot).2) m cell).isSome := by
      intro hk
      rw [written_of_kept hk] at hncell hfcell
      rw [hncell] at hfcell
      cases hfcell
    rw [written_of_not_kept hnot] at hncell hfcell
    have hsamecell : cell = uv.v := by
      by_contra hne
      rw [Function.update_of_ne hne] at hncell hfcell
      rw [hncell] at hfcell
      cases hfcell
    refine ⟨hsamecell, fun hk => hnot (hsamecell ▸ (hkept uv.v).mpr hk), fun abs hinv => ?_⟩
    by_cases hp : regAddr m abs = uv.v
    · exact .inl hp
    · have hfree : ¬ (named (s.invalidate uv (s.specializeCurfn b slot).2) m (regAddr m abs)).isSome := by
        rw [hkept]
        rintro ⟨i, hi, hne, -⟩
        exact hne (regAddr_injective hc hi ▸ hinv)
      have hword := congrFun hnil (regAddr m abs)
      rw [written_of_not_kept hfree, Function.update_of_ne hp, Function.update_of_ne (hsamecell ▸ hp)] at hword
      exact .inr hword.symm
  · obtain ⟨u, hu⟩ : ∃ u, curUpval s.space s.space.word s.base d = some u := by
      cases hu : curUpval s.space s.space.word s.base d with
      | some u => exact ⟨u, rfl⟩
      | none =>
        rw [Site.recUset, hu] at hrec
        cases hrec
    obtain ⟨c', slot'', hrec', hreplay⟩ := recUset_replay hok hval hu
    obtain ⟨rfl, rfl⟩ : c = c' ∧ slot' = slot'' := by simpa using Option.some.inj (hrec.symm.trans hrec')
    obtain ⟨hpass, hfail⟩ := hreplay m he v hv
    by_cases hsame : SameClosure s b slot m
    · refine .inr ?_
      obtain ⟨f, us, hf, -⟩ := fnval_of_curUpval hu
      obtain ⟨hcell, hnot, hinval⟩ := h u hu hsame
      have hkept := named_invalidate hok hc ⟨f, hf⟩ (s.space.upval u)
      rw [hpass hsame, opUset, curUpval_later he hu hsame]
      simp only [Option.bind_eq_bind, Option.bind_some, Option.map_some, Option.some.injEq]
      rw [hcell]
      funext p
      by_cases hk : (named (s.invalidate (s.space.upval u) (s.specializeCurfn b slot).2) m p).isSome
      · have hp : p ≠ (s.space.upval u).v := fun hp => hnot (hp ▸ (hkept p).mp hk)
        rw [written_of_kept hk, Function.update_of_ne hp]
      · rw [written_of_not_kept hk]
        by_cases hp : p = (s.space.upval u).v
        · rw [hp, Function.update_self, Function.update_self]
        · rw [Function.update_of_ne hp, Function.update_of_ne hp]
          cases hname : named slot m p with
          | none => exact (interpWord_of_none hname).symm
          | some tr =>
            -- It lost its reference.
            obtain ⟨i, rfl, hi⟩ := named_eq_some hname
            have hinv : s.invalidated (s.space.upval u) = some i := by
              by_contra hne
              exact hk ((hkept _).mpr ⟨i, rfl, hne, .inl (by rw [hi]; simp)⟩)
            exact ((hinval i hinv).resolve_left hp).symm
    · exact .inl (hfail hsame)

end Uset

/-! ### Over runs -/

section Runs
variable (hok : s.Ok b slot) (he : s.Entered b slot m) (hu : curUpval s.space s.space.word s.base d = some u)
include hok he hu

/-- What was closed at recording time is where it was, outside of every stack. -/
theorem closed_later (hc : (s.space.upval u).isOpen = false) :
    (m.world.rest.upval u).v = (s.space.upval u).v ∧ ∀ x, ¬ (m.world.rest.thread x).Holds (s.space.upval u).v := by
  obtain ⟨f, us, -, hus, hmem⟩ := fnval_of_curUpval hu
  obtain ⟨hv, ho⟩ := Space.Runs.closed hok.apart he.runs hus hmem hc
  refine ⟨hv, fun x => ?_⟩
  have htv : (m.world.rest.upval u).v = (m.world.rest.upval u).tv := by simpa [Upval.isOpen] using ho
  rw [← hv, htv]
  exact ((hok.apart.runs he.runs) x).1 u

theorem closed_uget (hc : (s.space.upval u).isOpen = false) (himm : (s.space.upval u).immutable = false) :
    UgetHolds s d b slot m := by
  intro u' hu'
  obtain rfl : u = u' := Option.some.inj (hu.symm.trans hu')
  obtain ⟨hv, hout⟩ := closed_later hok he hu hc
  have hsrc : s.source u = .cell (s.space.upval u).v := by
    rw [Site.source, himm, Bool.false_and, if_neg Bool.false_ne_true, Site.forwarded, hc, if_neg (fun h => nomatch h.1)]
  refine .inr (.inr ?_)
  rw [hsrc, hv, Source.value, interpWord_of_none]
  cases hname : named slot m (s.space.upval u).v with
  | none => rfl
  | some tr =>
    obtain ⟨i, hp, hi⟩ := named_eq_some hname
    exact absurd (hp ▸ he.inside i (.inl (by rw [hi]; simp))) (hout _)

theorem closed_uset (hc : (s.space.upval u).isOpen = false) : UsetHolds s d b slot m := by
  intro u' hu' _
  obtain rfl : u = u' := Option.some.inj (hu.symm.trans hu')
  obtain ⟨hv, hout⟩ := closed_later hok he hu hc
  have hinv : s.invalidated (s.space.upval u) = none := by
    have htv : (s.space.upval u).v = (s.space.upval u).tv := by simpa [Upval.isOpen] using hc
    rw [Site.invalidated, if_neg (htv ▸ (hok.apart s.space.cur).1 u)]
  refine ⟨hv, ?_, fun abs habs => by rw [hinv] at habs; cases habs⟩
  rintro ⟨i, hp, -, hi⟩
  exact hout _ (hp ▸ he.inside i hi)

/-- A forwarded register is the upvalue while it is open and the trace is entered at the recorded depth. -/
theorem forwarded_uget {abs : ℕ} (hsrc : s.source u = .slot abs) (hcur : m.world.rest.cur = s.space.cur)
    (hbase : m.cbase = s.frame0) (ho : (m.world.rest.upval u).isOpen = true) : UgetHolds s d b slot m := by
  intro u' hu'
  obtain rfl : u = u' := Option.some.inj (hu.symm.trans hu')
  obtain ⟨f, us, -, hus, hmem⟩ := fnval_of_curUpval hu
  have hforw : s.forwarded (s.space.upval u) = some abs := by
    rw [Site.source] at hsrc
    split at hsrc
    · cases hsrc
    · cases hf : s.forwarded (s.space.upval u) with
      | none =>
        rw [hf] at hsrc
        cases hsrc
      | some x =>
        rw [hf] at hsrc
        exact congrArg some (Source.slot.inj hsrc)
  rw [Site.forwarded] at hforw
  split at hforw
  · next hopen =>
    dsimp only at hforw
    split at hforw
    · next hframe =>
      obtain rfl := Option.some.inj hforw
      obtain ⟨hsp, hlen⟩ := hopen.2
      have hat : s.space.At u s.space.cur ((s.space.upval u).v - s.space.stack.sp) := by
        constructor
        · show _ = s.space.stack.sp + _
          omega
        · show _ < s.space.stack.len
          omega
      have hlater := (Space.Runs.at hok.apart he.runs hus hmem hat ho).v
      have hstack : m.world.rest.thread s.space.cur = m.world.rest.stack := by rw [Space.stack, hcur]
      refine .inr (.inr ?_)
      rw [hsrc, Source.value, regAddr, hlater, hstack, hbase]
      congr 1
      omega
    · cases hforw
  · cases hforw

end Runs

namespace ClosedLater

/-- A function whose upvalue is open in the frame of its caller. -/
def site : Site where
  space :=
    { word := fun p => if p = 20 then .func 7 else if p = 18 then .num ⟨1⟩ else .nil
      thread := fun t => if t = 0 then ⟨16, 10⟩ else ⟨0, 0⟩
      cur := 0
      upval := fun u => ⟨if u = 0 then 18 else 100, 100 + u, false⟩
      closure := fun f => if f = 7 then some [0] else none }
  base := 6
  baseslot := 2

def noSlots : SlotMap := fun _ => none

/-- The caller has returned, and its register has another value. -/
def later : Machine Space where
  r := (IrBuf.new 0 0).nins
  env _ := .nil
  world :=
    { stack := fun i => ((site.space.close 0).set 18 (.num ⟨5⟩)).word (16 + i)
      tables := fun _ => none
      rest := (site.space.close 0).set 18 (.num ⟨5⟩) }
  cbase := 6
  clock := 0

theorem apart : site.space.Apart := by
  intro t
  refine ⟨fun u h => ?_, fun t' p ht h h' => ?_⟩
  · simp only [site, Extent.Holds] at h
    split at h <;> simp at h
    omega
  · simp only [site, Extent.Holds] at h h'
    by_cases hz : t = 0
    · rw [if_neg (hz ▸ ht)] at h'
      simp at h'
    · rw [if_neg hz] at h
      simp at h

theorem ok : site.Ok (IrBuf.new 0 0) noSlots := by
  refine ⟨apart, by decide, by decide, fun u => ?_, .new 0 0 (by decide), (fun i tr h => nomatch h), fun tr h => nomatch h⟩
  simp only [site]
  split <;> decide

theorem entered : site.Entered (IrBuf.new 0 0) noSlots later := by
  refine ⟨rfl, ?_, rfl, by decide, fun i hi => ?_, fun tr r h => nomatch h⟩
  · exact (Relation.ReflTransGen.single (.close 0)).tail (.set 18 (.num ⟨5⟩))
  · obtain rfl : i = site.fslot := hi.resolve_left fun h => h rfl
    exact ⟨by decide, by decide⟩

theorem not_holds : ¬ UgetHolds site 0 (IrBuf.new 0 0) noSlots later := by
  intro h
  cases h 0 rfl with
  | inl hsame => exact hsame rfl
  | inr h =>
    cases h with
    | inl hpass => exact hpass rfl
    | inr hval => exact absurd hval (by decide)

end ClosedLater
end LuajitRs.Ir
