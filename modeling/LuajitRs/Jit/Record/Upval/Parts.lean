import LuajitRs.Jit.Record.Upval

/-! The parts of a recorded upvalue access over a later run: registers whose references stand for memory, the load
of a register, and the closure guard. -/
namespace LuajitRs.Ir
open Vm

variable {s : Site} {b c c' : IrBuf} {slot slot' : SlotMap} {m m' : Machine Space} {tr : TRef} {i n p d u : ℕ}
  {v : LuaValue}

/-! ### Registers and memory -/

theorem named_regAddr (hc : 2 ≤ m.cbase) (i : ℕ) : named slot m (regAddr m i) = slot i := by
  rw [named, regAddr, if_pos (by omega)]
  congr 1
  omega

theorem named_eq_some (h : named slot m p = some tr) : ∃ i, p = regAddr m i ∧ slot i = some tr := by
  rw [named] at h
  split at h
  · next hle => exact ⟨_, by rw [regAddr]; omega, h⟩
  · cases h

theorem regAddr_injective (hc : 2 ≤ m.cbase) {i j : ℕ} (h : regAddr m i = regAddr m j) : i = j := by
  simp only [regAddr] at h
  omega

theorem named_congr (hc : 2 ≤ m.cbase) (h : ∀ i, p = regAddr m i → slot i = slot' i) :
    named slot m p = named slot' m p := by
  rw [named, named]
  split
  · exact h _ (by rw [regAddr]; omega)
  · rfl

theorem interpWord_of_some (hc : 2 ≤ m.cbase) (hs : slot i = some tr) (hv : readRef b m.env tr.ref = some v) :
    interpWord b slot m (regAddr m i) = v := by
  simp only [interpWord, named_regAddr hc, hs, hv, Option.getD_some]

theorem interpWord_of_none (h : named slot m p = none) : interpWord b slot m p = m.world.rest.word p := by
  simp only [interpWord, h]

/-- A register gets a reference that reads as the register did. -/
theorem interpWord_update (hc : 2 ≤ m.cbase) (hv : readRef b m.env tr.ref = some (interpWord b slot m (regAddr m i))) :
    interpWord b (Function.update slot i (some tr)) m = interpWord b slot m := by
  funext p
  by_cases hp : p = regAddr m i
  · rw [hp, interpWord_of_some hc (Function.update_self ..) hv]
  · have hn : named (Function.update slot i (some tr)) m p = named slot m p := by
      apply named_congr hc
      intro j hj
      refine Function.update_of_ne ?_ _ _
      intro hji
      exact hp (hji ▸ hj)
    simp only [interpWord, hn]

theorem SlotsOk.update (h : SlotsOk b slot) (hlt : tr.ref < b.nins)
    (hc : tr.ref < REF_BIAS → (b.constBits tr.ref).isSome) : SlotsOk b (Function.update slot i (some tr)) := by
  intro j tr' hj
  by_cases hji : j = i
  · subst hji
    rw [Function.update_self] at hj
    obtain rfl := Option.some.inj hj
    exact ⟨hlt, hc⟩
  · exact h j tr' (by rwa [Function.update_of_ne hji] at hj)

theorem SlotsOk.mono (h : SlotsOk b slot) (hk : b.Keeps c) (hn : b.nins ≤ c.nins) : SlotsOk c slot := by
  intro j tr hj
  obtain ⟨hlt, hc⟩ := h j tr hj
  refine ⟨by omega, fun hr => ?_⟩
  obtain ⟨v, hv⟩ := Option.isSome_iff_exists.mp (hc hr)
  rw [hk _ v hv]
  rfl

theorem SlotsOk.reads (h : SlotsOk b slot) (hs : slot i = some tr) (env : ℕ → LuaValue) :
    ∃ v, readRef b env tr.ref = some v := by
  by_cases hr : REF_BIAS ≤ tr.ref
  · exact ⟨_, readRef_ins env hr⟩
  · obtain ⟨v, hv⟩ := Option.isSome_iff_exists.mp ((h i tr hs).2 (by omega))
    exact ⟨v, readRef_const (by omega) hv⟩

/-- A machine at the end of the buffer, that sees the memory through its stack. -/
structure Window (b : IrBuf) (m : Machine Space) : Prop where
  r : m.r = b.nins
  stack : m.world.stack = fun i => m.world.rest.word (m.world.rest.stack.sp + i)
  cbase : 2 ≤ m.cbase

theorem Site.Entered.window (he : s.Entered b slot m) : Window b m := ⟨he.r, he.stack, he.cbase⟩

theorem Window.grows {es : List IRIns} (h : Window b m) (hg : b.Grows c es) (hm : After m m' es.length) : Window c m' := by
  refine ⟨by rw [hm.r, h.r, hg.nins], ?_, hm.cbase ▸ h.cbase⟩
  rw [hm.world]
  exact h.stack

theorem Window.load (h : Window b m) (abs : ℕ) :
    m.world.stack (m.cbase + abs - 2) = m.world.rest.word (regAddr m abs) := by
  have hc := h.cbase
  rw [h.stack, regAddr]
  dsimp only
  congr 1
  omega

/-- What was emitted stores nothing: the registers have the same values. -/
theorem Window.interpWord (h : Window b m) (hs : SlotsOk b slot) (hk : b.Keeps c) (hm : After m m' n) :
    interpWord c slot m' = interpWord b slot m := by
  funext p
  have hn : named slot m' p = named slot m p := by simp only [named, hm.world, hm.cbase]
  simp only [Ir.interpWord, hn, hm.world]
  split
  · next tr hname =>
    obtain ⟨i, -, hi⟩ := named_eq_some hname
    obtain ⟨v, hv⟩ := hs.reads hi m.env
    rw [hv, hk.readRef hv fun _ => hm.env _ (h.r ▸ (hs i tr hi).1)]
  · rfl

/-! ### Parts of a recording -/

/-- What a part of the recording does at a later run: under a condition it goes on with the new registers, else it
leaves. -/
structure Does (b : IrBuf) (slot : SlotMap) (c : IrBuf) (slot' : SlotMap) (ent ok : Machine Space → Prop)
    (es : List IRIns) : Prop where
  grows : b.Grows c es
  slots : SlotsOk c slot'
  pass : ∀ c' m, c.Keeps c' → ent m → ok m → ∃ m', After m m' es.length ∧
    interpWord c slot' m' = interpWord b slot m ∧
    ∀ rest, runIns upvalRuntime c' (es ++ rest) m = runIns upvalRuntime c' rest m'
  fail : ∀ c' m, c.Keeps c' → ent m → ¬ ok m → ∀ rest, runIns upvalRuntime c' (es ++ rest) m = some none

theorem readRef_loaded (hc : b.Consts) {w : LuaValue} (ht : typecheck v (valueIrt w) = true) {env : ℕ → LuaValue}
    {r : ℕ} (hr : REF_BIAS ≤ r) (henv : env r = v) : readRef b env (loadedRef (valueIrt w) r).ref = some v := by
  rw [← (typecheck_valueIrt v w).mp ht, loadedRef]
  split
  · next hp => exact readRef_pri hc env hp
  · rw [readRef_ins env hr, henv]

theorem loadedRef_lt (hc : b.Consts) (w : LuaValue) {r : ℕ} (hr : REF_BIAS ≤ r) (hlt : r < b.nins) :
    (loadedRef (valueIrt w) r).ref < b.nins ∧
      ((loadedRef (valueIrt w) r).ref < REF_BIAS → (b.constBits (loadedRef (valueIrt w) r).ref).isSome) := by
  rw [loadedRef]
  split
  · next hp =>
    have hread := readRef_pri hc (fun _ => .nil) hp
    have hbelow : (trefPri (valueIrt w)).ref < REF_BIAS := by
      cases w with
      | nil => decide
      | bool x => cases x <;> decide
      | _ => cases hp
    rw [readRef, if_neg (by omega)] at hread
    exact ⟨by omega, fun _ => by rw [hread]; rfl⟩
  · exact ⟨hlt, fun h => absurd h (by show ¬ r < REF_BIAS; omega)⟩

/-- The load of a register. -/
theorem sload_does (hs : SlotsOk b slot) (hb : b.Ready n) (abs : ℕ) (w : LuaValue) :
    let c := (b.emitIns (.new .sload (guarded (valueIrt w)) abs IRSLOAD_TYPECHECK)).1
    slot abs = none →
    Does b slot c (Function.update slot abs (some (loadedRef (valueIrt w) b.nins))) (Window b)
      (fun m => typecheck (m.world.rest.word (regAddr m abs)) (valueIrt w) = true)
      [.new .sload (guarded (valueIrt w)) abs IRSLOAD_TYPECHECK] := by
  intro c hnone
  have hg : b.Grows c [.new .sload (guarded (valueIrt w)) abs IRSLOAD_TYPECHECK] := IrBuf.Grows.emitIns _ rfl
  have hcn : c.nins = b.nins + 1 := hg.nins
  have hready : c.Ready n := hb.emitIns rfl
  have hnew := loadedRef_lt hready.consts w b.nins_ge (by omega)
  have he : ∀ (c' : IrBuf) m, Window b m →
      evalIns upvalRuntime c' m (.new .sload (guarded (valueIrt w)) abs IRSLOAD_TYPECHECK) =
        some (.check m.world (m.world.rest.word (regAddr m abs))
          (decide (typecheck (m.world.rest.word (regAddr m abs)) (valueIrt w) = true))) := by
    intro c' m hm
    simp only [evalIns, IRIns.new, hm.load abs]
    simp [guarded, IRIns.isGuard]
  refine ⟨hg, (hs.mono hg.keeps (by omega)).update hnew.1 hnew.2, ?_, ?_⟩
  · intro c' m hk hm hok
    obtain ⟨m', hm', henv, hrun⟩ := runIns_check (he c' m hm)
    have hsame := hm.interpWord hs hg.keeps hm'
    refine ⟨m', hm', ?_, fun rest => ?_⟩
    · rw [interpWord_update (hm'.cbase ▸ hm.cbase), hsame]
      have haddr : regAddr m' abs = regAddr m abs := by rw [regAddr, regAddr, hm'.world, hm'.cbase]
      rw [hsame, haddr, interpWord_of_none (by rw [named_regAddr hm.cbase, hnone])]
      exact readRef_loaded hready.consts hok b.nins_ge (hm.r ▸ henv)
    · rw [List.singleton_append, hrun, if_pos hok]
  · intro c' m hk hm hno rest
    obtain ⟨m', -, -, hrun⟩ := runIns_check (he c' m hm)
    rw [List.singleton_append, hrun, if_neg hno]

section Does
variable {d : IrBuf} {slot₁ slot₂ : SlotMap} {ent ent' ok ok' : Machine Space → Prop} {es es' : List IRIns}

theorem Does.trans (ok₁ : Machine Space → Prop) (h : Does b slot c slot₁ ent ok es) (h' : Does c slot₁ d slot₂ (Window c) ok' es')
    (hent : ∀ m, ent m → Window b m)
    (hok : ∀ m m', ent m → After m m' es.length → interpWord c slot₁ m' = interpWord b slot m → (ok' m' ↔ ok₁ m)) :
    Does b slot d slot₂ ent (fun m => ok m ∧ ok₁ m) (es ++ es') := by
  refine ⟨h.grows.trans h'.grows, h'.slots, ?_, ?_⟩
  · intro c' m hk hm hpass
    obtain ⟨m₁, hm₁, hw₁, hrun₁⟩ := h.pass c' m (h'.grows.keeps.trans hk) hm hpass.1
    obtain ⟨m₂, hm₂, hw₂, hrun₂⟩ :=
      h'.pass c' m₁ hk ((hent m hm).grows h.grows hm₁) ((hok m m₁ hm hm₁ hw₁).mpr hpass.2)
    refine ⟨m₂, List.length_append ▸ hm₁.trans hm₂, hw₂.trans hw₁, fun rest => ?_⟩
    rw [List.append_assoc, hrun₁, hrun₂]
  · intro c' m hk hm hno rest
    rw [List.append_assoc]
    by_cases hfirst : ok m
    · obtain ⟨m₁, hm₁, hw₁, hrun₁⟩ := h.pass c' m (h'.grows.keeps.trans hk) hm hfirst
      rw [hrun₁]
      refine h'.fail c' m₁ hk ((hent m hm).grows h.grows hm₁) ?_ rest
      exact fun hsecond => hno ⟨hfirst, (hok m m₁ hm hm₁ hw₁).mp hsecond⟩
    · exact h.fail c' m (h'.grows.keeps.trans hk) hm hfirst _

/-- The condition may be restated for the machines in question. -/
theorem Does.congr (h : Does b slot c slot' ent ok es) (hent : ∀ m, ent' m → ent m)
    (hok : ∀ m, ent' m → (ok m ↔ ok' m)) : Does b slot c slot' ent' ok' es :=
  ⟨h.grows, h.slots, fun c' m hk hm hpass => h.pass c' m hk (hent m hm) ((hok m hm).mpr hpass),
    fun c' m hk hm hno => h.fail c' m hk (hent m hm) fun hpass => hno ((hok m hm).mp hpass)⟩

/-- Only constants are added. -/
theorem intern_does (hs : SlotsOk b slot) (hg : b.Grows c []) : Does b slot c slot (Window b) (fun _ => True) [] := by
  refine ⟨hg, hs.mono hg.keeps (Nat.le_of_eq hg.nins.symm), ?_, fun c' m hk hm hno => absurd trivial hno⟩
  intro c' m hk hm hpass
  exact ⟨m, .refl m, hm.interpWord hs hg.keeps (.refl m), fun _ => rfl⟩

/-- A register is guarded to be a constant, and has the reference of the constant from then on. -/
theorem pin_does (hs : SlotsOk b slot) (hi : slot i = some tr) {k : ℕ} (hlt : k < REF_BIAS) {w : LuaValue}
    (hk : b.constBits k = some w) :
    Does b slot (b.emitIns (.new .eq (guarded .func) tr.ref k)).1 (Function.update slot i (some ⟨k, .func⟩)) (Window b)
      (fun m => interpWord b slot m (regAddr m i) = w) [.new .eq (guarded .func) tr.ref k] := by
  have hg : b.Grows (b.emitIns (.new .eq (guarded .func) tr.ref k)).1 [.new .eq (guarded .func) tr.ref k] :=
    IrBuf.Grows.emitIns _ rfl
  have hrun : ∀ c' m, (b.emitIns (.new .eq (guarded .func) tr.ref k)).1.Keeps c' → Window b m →
      ∃ m', After m m' 1 ∧ m'.env = m.env ∧ ∀ rest,
        runIns upvalRuntime c' (.new .eq (guarded .func) tr.ref k :: rest) m =
          if interpWord b slot m (regAddr m i) = w then runIns upvalRuntime c' rest m' else some none := by
    intro c' m hkeep hm
    obtain ⟨v, hv⟩ := hs.reads hi m.env
    rw [interpWord_of_some hm.cbase hi hv]
    exact runIns_eq .func ((hg.keeps.trans hkeep).readRef hv fun _ => rfl)
      (readRef_const hlt ((hg.keeps.trans hkeep) _ _ hk)) (by decide)
  refine ⟨hg, ?_, ?_, ?_⟩
  · refine (hs.mono hg.keeps (by rw [hg.nins]; exact Nat.le_add_right _ _)).update ?_ fun _ => ?_
    · exact Nat.lt_of_lt_of_le hlt (IrBuf.nins_ge _)
    · rw [hg.keeps _ _ hk]
      rfl
  · intro c' m hkeep hm hpass
    obtain ⟨m', hm', -, hstep⟩ := hrun c' m hkeep hm
    refine ⟨m', hm', ?_, fun rest => by rw [List.singleton_append, hstep, if_pos hpass]⟩
    have hsame := hm.interpWord hs hg.keeps hm'
    have haddr : regAddr m' i = regAddr m i := by rw [regAddr, regAddr, hm'.world, hm'.cbase]
    rw [interpWord_update (hm'.cbase ▸ hm.cbase), hsame]
    rw [hsame, haddr, hpass]
    exact readRef_const hlt (hg.keeps _ _ hk)
  · intro c' m hkeep hm hno rest
    obtain ⟨m', -, -, hstep⟩ := hrun c' m hkeep hm
    rw [List.singleton_append, hstep, if_neg hno]

end Does

/-! ### The closure guard -/

section Specialize
variable (hok : s.Ok b slot) (hf : ∃ f, s.fnval = .func f)
include hok

theorem Site.Ok.fnval_eq : s.slotValue s.fslot = s.fnval := by
  have hbs := hok.baseslot
  have hb := hok.base
  rw [Site.slotValue, Site.fnval, Site.frame0, Site.fslot]
  congr 1
  omega

/-- The function has a reference to itself as a constant. -/
theorem pinned_does (hb : b.Grows c []) {k : ℕ} (hlt : k < REF_BIAS) (hk : c.constBits k = some s.fnval)
    (hpassed : ∀ m, s.Entered b slot m → SameClosure s b slot m) :
    Does b slot c (Function.update slot s.fslot (some ⟨k, .func⟩)) (s.Entered b slot) (SameClosure s b slot) [] := by
  have hs := hok.slots.mono hb.keeps (Nat.le_of_eq hb.nins.symm)
  refine ⟨hb, hs.update ?_ fun _ => by rw [hk]; rfl, ?_, fun c' m hkeep hm hno => absurd (hpassed m hm) hno⟩
  · exact Nat.lt_of_lt_of_le hlt c.nins_ge
  · intro c' m hkeep hm hpass
    have hsame := hm.window.interpWord hok.slots hb.keeps (.refl m)
    refine ⟨m, .refl m, ?_, fun _ => rfl⟩
    rw [interpWord_update hm.cbase, hsame]
    rw [hsame, show interpWord b slot m (regAddr m s.fslot) = s.fnval from hpass]
    exact readRef_const hlt hk

include hf in
theorem specializeCurfn_does : let p := s.specializeCurfn b slot
    p.1.Ready 1 ∧ (∀ i, i ≠ s.fslot → p.2 i = slot i) ∧ (p.2 s.fslot).isSome ∧
      ∃ es, Does b slot p.1 p.2 (s.Entered b slot) (SameClosure s b slot) es := by
  have hr₁ : (b.kgc s.fnval .func).1.Ready 1 := IrBuf.Ready.intern (.inl rfl) hok.ready s.fnval .func
  have hg₁ : b.Grows (b.kgc s.fnval .func).1 [] := IrBuf.Grows.intern (n := 1) (.inl rfl) hok.ready s.fnval .func
  obtain ⟨-, -, -, hbits, hlt, -, heqs⟩ :=
    IrBuf.intern_spec (.inl rfl) (v := s.fnval) hok.ready.consts (by have := hok.ready.room; omega) .func
  have hone := (intern_does hok.slots hg₁).slots
  have hslot : ∀ x, (∀ i, i ≠ s.fslot → Function.update slot s.fslot x i = slot i) :=
    fun x i hi => Function.update_of_ne hi _ _
  cases hcur : slot s.fslot with
  | some cur =>
    by_cases hc : cur.ref < REF_BIAS
    · have heq : s.specializeCurfn b slot = (b, slot) := by simp only [Site.specializeCurfn, hcur, if_pos hc]
      rw [heq]
      refine ⟨hok.ready.weaken (by omega), fun i _ => rfl, Option.isSome_iff_exists.mpr ⟨cur, hcur⟩, [], ?_⟩
      refine (intern_does hok.slots (.refl b)).congr (fun m hm => hm.window) fun m hm => ?_
      refine iff_of_true trivial ?_
      exact interpWord_of_some hm.cbase hcur (readRef_const hc (hok.cur cur hcur hc))
    · have heq : s.specializeCurfn b slot =
          (((b.kgc s.fnval .func).1.emitEq .func cur.ref (b.kgc s.fnval .func).2).1,
            Function.update slot s.fslot (some ⟨(b.kgc s.fnval .func).2, .func⟩)) := by
        simp only [Site.specializeCurfn, hcur, if_neg hc]
      rw [heq]
      cases hfind : (b.kgc s.fnval .func).1.findCse cur.ref (b.kgc s.fnval .func).2 (b.kgc s.fnval .func).1.ins.length
          ((b.kgc s.fnval .func).1.chain .eq) with
      | some r =>
        have hcse : (b.kgc s.fnval .func).1.emitEq .func cur.ref (b.kgc s.fnval .func).2 =
            ((b.kgc s.fnval .func).1, r) := by
          rw [IrBuf.emitEq, IrBuf.optCse]
          simp only [IRIns.new, hfind]
        rw [hcse]
        refine ⟨hr₁, hslot _, by simp, [], pinned_does hok hg₁ hlt hbits fun m hm => ?_⟩
        exact interpWord_of_some hm.cbase hcur (hm.passed cur r hcur (by omega) hfind)
      | none =>
        have hcse : (b.kgc s.fnval .func).1.emitEq .func cur.ref (b.kgc s.fnval .func).2 =
            (b.kgc s.fnval .func).1.emitIns (.new .eq (guarded .func) cur.ref (b.kgc s.fnval .func).2) := by
          rw [IrBuf.emitEq, IrBuf.optCse]
          simp only [IRIns.new, hfind]
        rw [hcse]
        refine ⟨hr₁.emitIns rfl, hslot _, by simp, _, ((intern_does hok.slots hg₁).trans
          (SameClosure s b slot) (pin_does hone hcur hlt hbits) (fun _ hm => hm) ?_).congr
          (fun m hm => hm.window) fun m hm => and_iff_right trivial⟩
        intro m m' hm hm' hw
        rw [hw, SameClosure, regAddr, regAddr, hm'.world, hm'.cbase]
  | none =>
    obtain ⟨f, hf⟩ := hf
    have hval := hok.fnval_eq
    have hty : valueIrt s.fnval = .func := by rw [hf]; rfl
    have hload : loadedRef .func (b.kgc s.fnval .func).1.nins = ⟨(b.kgc s.fnval .func).1.nins, .func⟩ := rfl
    have hsl := sload_does hone hr₁ s.fslot s.fnval hcur
    simp only [hty, hload] at hsl
    have hchain : ((b.kgc s.fnval .func).1.emitIns (.new .sload (guarded .func) s.fslot IRSLOAD_TYPECHECK)).1.chain .eq ≤
        (b.kgc s.fnval .func).1.nins := by
      rw [IrBuf.chain_eq_emitIns _ (by simp [IRIns.new])]
      exact hr₁.eqs.le
    have hnot : ¬ (b.kgc s.fnval .func).1.nins < REF_BIAS := Nat.not_lt.mpr (IrBuf.nins_ge _)
    have hins : ∀ ins, ((b.kgc s.fnval .func).1.emitIns ins).2 = (b.kgc s.fnval .func).1.nins := fun _ => rfl
    have heq : s.specializeCurfn b slot =
        ((((b.kgc s.fnval .func).1.emitIns (.new .sload (guarded .func) s.fslot IRSLOAD_TYPECHECK)).1.emitIns
            (.new .eq (guarded .func) (b.kgc s.fnval .func).1.nins (b.kgc s.fnval .func).2)).1,
          Function.update (Function.update slot s.fslot (some ⟨(b.kgc s.fnval .func).1.nins, .func⟩)) s.fslot
            (some ⟨(b.kgc s.fnval .func).2, .func⟩)) := by
      simp only [Site.specializeCurfn, hcur, Site.getslotAbs, hval, hty, hins, hload, if_neg hnot]
      rw [← IrBuf.emitEq_eq hchain .func]
    rw [heq]
    refine ⟨(hr₁.emitIns rfl).emitIns rfl, fun i hi => ?_, by simp, _, (((intern_does hok.slots hg₁).trans (SameClosure s b slot)
      (hsl.trans (fun m => interpWord (b.kgc s.fnval .func).1 slot m (regAddr m s.fslot) = s.fnval)
        (pin_does hsl.slots (Function.update_self ..) hlt (hsl.grows.keeps _ _ hbits)) (fun _ hm => hm) ?_)
      (fun _ hm => hm) ?_).congr (fun m hm => hm.window)
      fun m hm => and_iff_right trivial)⟩
    · dsimp only
      rw [Function.update_of_ne hi, Function.update_of_ne hi]
    · intro m m' hm hm' hw
      rw [hw, regAddr, regAddr, hm'.world, hm'.cbase]
    · intro m m' hm hm' hw
      have haddr : regAddr m' s.fslot = regAddr m s.fslot := by rw [regAddr, regAddr, hm'.world, hm'.cbase]
      have hword : interpWord b slot m (regAddr m s.fslot) = m'.world.rest.word (regAddr m' s.fslot) := by
        rw [interpWord_of_none (by rw [named_regAddr hm.cbase, hcur]), haddr, hm'.world]
      rw [hw, SameClosure, haddr, hword, haddr]
      refine and_iff_right_of_imp fun hsame => ?_
      rw [hsame, hf]
      rfl

omit hok in
/-- The function of the frame is the recorded closure, and it has the recorded upvalue. -/
theorem curUpval_later (he : s.Entered b slot m) (hu : curUpval s.space s.space.word s.base d = some u)
    (hsame : SameClosure s b slot m) :
    curUpval m.world.rest (interpWord b slot m) (s.laterBase m) d = some u := by
  have hc := he.cbase
  have haddr : m.world.rest.stack.sp + s.laterBase m - 2 = regAddr m s.fslot := by
    rw [Site.laterBase, regAddr, Site.fslot]
    omega
  simp only [curUpval, haddr, show interpWord b slot m (regAddr m s.fslot) = s.fnval from hsame]
  simp only [curUpval, Option.bind_eq_bind, Option.bind_eq_some_iff] at hu ⊢
  obtain ⟨f, hf, us, hus, hd⟩ := hu
  exact ⟨f, hf, us, Space.Runs.closure he.runs hus, hd⟩

omit hok in
theorem fnval_of_curUpval (hu : curUpval s.space s.space.word s.base d = some u) :
    ∃ f us, s.fnval = .func f ∧ s.space.closure f = some us ∧ u ∈ us := by
  simp only [curUpval, Option.bind_eq_bind, Option.bind_eq_some_iff] at hu
  obtain ⟨f, hf, us, hus, hd⟩ := hu
  refine ⟨f, us, ?_, hus, List.mem_of_getElem? hd⟩
  rw [Site.fnval]
  cases hw : s.space.word (s.space.stack.sp + s.base - 2) with
  | func a =>
    rw [hw] at hf
    rw [Option.some.inj hf]
  | _ =>
    rw [hw] at hf
    cases hf

end Specialize

end LuajitRs.Ir
