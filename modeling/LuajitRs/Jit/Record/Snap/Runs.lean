import LuajitRs.Jit.Record.Snap.Covered

/-! The steps of the recorder and whole recordings: inside a bytecode only effects that ask for no snapshot can lie
behind the last one; between bytecodes a snapshot may also be due. -/
namespace LuajitRs.Ir
open Lib.Checkpoint

namespace Recording
variable {N : ℕ → ℕ} {P : ℕ → List ℕ} {k : ℕ} {s s' : Recording} {ins : IRIns}

/-- An effect behind which no snapshot is asked for is an effect. -/
theorem effectful_of_unflagged (h : unflagged ins = true) : effectful ins = true := by
  simp only [unflagged, effectful, Bool.or_eq_true, Bool.and_eq_true, decide_eq_true_eq] at h ⊢
  cases h with
  | inl h => simp [h]
  | inr h => simp [h]

theorem effectful_emit (heff : effectful ins = false) (q : ℕ) :
    (s.emit ins).ir.Has effectful q ↔ s.ir.Has effectful q := by
  refine (IrBuf.has_emitIns (fun _ _ => rfl) ins).trans (or_iff_left ?_)
  simp [heff]

theorem chain_emit {op : IROp} (h : op ≠ ins.op) : (s.emit ins).ir.chain op = s.ir.chain op :=
  Function.update_of_ne h _ _

theorem guardemit_emit : (s.emit ins).ir.guardemit = (s.ir.guardemit || ins.isGuard) := rfl

theorem not_pending (h : Settled (s.ir.Has effectful) s.marks) : ¬ s.Pending := by
  intro hp
  obtain ⟨q, ⟨hr, ins, hi, hu⟩, hq⟩ := hp
  obtain ⟨c, hc, hlt⟩ := h q ⟨hr, ins, hi, effectful_of_unflagged hu⟩
  exact absurd (hq c hc) (Nat.not_le.mpr hlt)

/-! ### Where the last snapshot can be merged -/

/-- The invariant, where without a new guard the last snapshot is not needed. -/
structure Loose (N : ℕ → ℕ) (P : ℕ → List ℕ) (k : ℕ) (s : Recording) : Prop extends Inv N P k s where
  merge : s.ir.guardemit = false → s.snap.length ≠ 1 →
    Covered (s.ir.Has effectful) (s.ir.Has leaver) s.marks.dropLast

theorem Loose.emit (h : Loose N P k s) (hloop : ins.op ≠ .loop) (hclean : isClean ins = true)
    (hleave : leaver ins = true → Settled (s.ir.Has effectful) s.marks)
    (hdrop : leaver ins = true → ins.isGuard = true ∨ s.ir.guardemit = true ∨ s.Mergeable) :
    Loose N P k (s.emit ins) := by
  refine ⟨h.toInv.emit hloop hclean hleave, fun hg hlen => ?_⟩
  rw [guardemit_emit, Bool.or_eq_false_iff] at hg
  have hold := h.merge hg.1 hlen
  have hbound : ∀ c ∈ s.marks.dropLast, c ≤ s.ir.nins := fun c hc => (h.bound c (List.dropLast_subset _ hc)).2
  have ha : ∀ r, (s.emit ins).ir.Has leaver r ↔ s.ir.Has leaver r ∨ (r = s.ir.nins ∧ leaver ins = true) :=
    fun r => IrBuf.has_emitIns (fun _ _ => rfl) ins
  have habort : Covered (s.ir.Has effectful) ((s.emit ins).ir.Has leaver) s.marks.dropLast := by
    by_cases hl : leaver ins = true
    · have hset : Settled (s.ir.Has effectful) s.marks.dropLast := by
        rcases hdrop hl with hgu | hge | hone | hset
        · exact absurd hgu (by simp [hg.2])
        · exact absurd hge (by simp [hg.1])
        · exact absurd hone hlen
        · exact hset
      exact hold.abort (n := s.ir.nins) hset hbound fun r hr => ((ha r).mp hr).imp_right And.left
    · exact hold.congr (fun _ hq => hq) fun r hr => ((ha r).mp hr).resolve_right fun hn => hl hn.2
  refine habort.write (n := s.ir.nins) (fun r hr => ?_) fun q hq => ?_
  · have hnins : (s.emit ins).ir.nins = s.ir.nins + 1 := by
      simp [Recording.emit, IrBuf.nins, IrBuf.emitIns, Nat.add_assoc]
    have := hr.lt_nins
    omega
  · exact ((IrBuf.has_emitIns (fun _ _ => rfl) ins).mp hq).imp_right And.left

theorem Loose.congr (h : Loose N P k s) (hins : s'.ir.ins = s.ir.ins) (hloop : s'.ir.chain .loop = s.ir.chain .loop)
    (hsnap : s'.snap = s.snap) (hg : s'.ir.guardemit = s.ir.guardemit) : Loose N P k s' := by
  have hhas : ∀ p, s'.ir.Has p = s.ir.Has p := fun p => funext fun r => propext (IrBuf.has_congr hins)
  refine ⟨h.toInv.congr hins hloop hsnap, ?_⟩
  rw [hg, hsnap, marks, hsnap, hhas, hhas]
  exact h.merge

/-! ### Inside a bytecode -/

/-- The recorder in the middle of bytecode `k`, before its effect. -/
structure Body (N : ℕ → ℕ) (P : ℕ → List ℕ) (k : ℕ) (s : Recording) : Prop extends Loose N P k s where
  behind : ∀ q, s.ir.Has effectful q → (∃ c ∈ s.marks, q < c) ∨ s.ir.Has unflagged q
  below : ∀ q, s.ir.Has effectful q → q < N k
  pc : s.pc ∈ P k

theorem Body.settled (h : Body N P k s) (hp : ¬ s.Pending) : Settled (s.ir.Has effectful) s.marks := by
  intro q hq
  cases h.behind q hq with
  | inl hc => exact hc
  | inr hu =>
    by_contra hno
    refine hp ⟨q, hu, fun c hc => Nat.le_of_not_lt fun hlt => ?_⟩
    exact hno ⟨c, hc, hlt⟩

theorem Body.congr (h : Body N P k s) (hins : s'.ir.ins = s.ir.ins) (hloop : s'.ir.chain .loop = s.ir.chain .loop)
    (hsnap : s'.snap = s.snap) (hg : s'.ir.guardemit = s.ir.guardemit) (hpc : s'.pc ∈ P k) : Body N P k s' := by
  have hhas : ∀ p, s'.ir.Has p = s.ir.Has p := fun p => funext fun r => propext (IrBuf.has_congr hins)
  refine ⟨h.toLoose.congr hins hloop hsnap hg, ?_, ?_, hpc⟩
  · rw [marks, hsnap, hhas, hhas]
    exact h.behind
  · rw [hhas]
    exact h.below

/-- An instruction without an effect. -/
theorem Body.emit (h : Body N P k s) (heff : effectful ins = false) (hloop : ins.op ≠ .loop)
    (hguard : leaver ins = true → ins.isGuard = true) (hp : leaver ins = true → ¬ s.Pending) :
    Body N P k (s.emit ins) := by
  have hclean : isClean ins = true := by simp [isClean, heff]
  refine ⟨h.toLoose.emit hloop hclean (fun hl => h.settled (hp hl)) fun hl => .inl (hguard hl), fun q hq => ?_,
    fun q hq => ?_, h.pc⟩
  · rw [effectful_emit heff] at hq
    exact (h.behind q hq).imp_right fun hu => (IrBuf.has_emitIns (fun _ _ => rfl) ins).mpr (.inl hu)
  · rw [effectful_emit heff] at hq
    exact h.below q hq

theorem plain_effectful (g : PlainIns) : effectful g.1 = false := by
  have := g.2
  simp only [isPlain, Bool.and_eq_true, Bool.not_eq_true'] at this
  exact this.1.1.1

theorem plain_loop (g : PlainIns) : g.1.op ≠ .loop := by
  have := g.2
  simp only [isPlain, Bool.and_eq_true, decide_eq_true_eq] at this
  exact this.1.2

theorem plain_guard (g : PlainIns) (hl : leaver g.1 = true) : g.1.isGuard = true := by
  have h := g.2
  have heff := plain_effectful g
  simp only [isPlain, Bool.and_eq_true, Bool.or_eq_true, decide_eq_true_eq] at h
  simp only [leaver, Bool.or_eq_true, decide_eq_true_eq] at hl
  rcases hl with (hg | hstore) | hload
  · exact hg
  · simp [effectful, hstore] at heff
  · exact h.1.1.2.resolve_right fun hne => hne hload

theorem Body.emitPlain (h : Body N P k s) (g : PlainIns) (hp : g.1.isGuard = true → ¬ s.Pending) :
    Body N P k (s.emit g.1) :=
  h.emit (plain_effectful g) (plain_loop g) (plain_guard g) fun hl => hp (plain_guard g hl)

/-- Guards right behind a snapshot. -/
theorem Body.emits (h : Body N P k s) (hs : Settled (s.ir.Has effectful) s.marks) (guards : List PlainIns) :
    Body N P k (s.emits guards) ∧ Settled ((s.emits guards).ir.Has effectful) (s.emits guards).marks := by
  induction guards generalizing s with
  | nil => exact ⟨h, hs⟩
  | cons g guards ih =>
    refine ih (h.emitPlain g fun _ => not_pending hs) fun q hq => ?_
    rw [effectful_emit (plain_effectful g)] at hq
    exact hs q hq

theorem recGcstep_has {p : IRIns → Bool} {total threshold : UInt64} {q : ℕ}
    (hp : p (.new .gcstep (guarded .nil) (s.ir.kint64 total).2 ((s.ir.kint64 total).1.kint64 threshold).2) = false)
    (hprev : ∀ ins n, p { ins with prev := n } = p ins) :
    (s.recGcstep total threshold).ir.Has p q ↔ s.ir.Has p q := by
  have hk : ((s.ir.kint64 total).1.kint64 threshold).1.ins = s.ir.ins :=
    (IrBuf.intern_frame (s.ir.kint64 total).1 (.kint64 threshold)).1.trans
      (IrBuf.intern_frame s.ir (.kint64 total)).1
  simp only [Recording.recGcstep, IrBuf.recGcstep]
  split
  · exact Iff.rfl
  · refine (IrBuf.has_emitIns hprev _).trans ((or_iff_left fun hn => ?_).trans (IrBuf.has_congr hk))
    rw [hp] at hn
    exact Bool.false_ne_true hn.2

theorem Body.recGcstep (h : Body N P k s) (hp : s.ir.chain .gcstep = 0 → ¬ s.Pending) (total threshold : UInt64) :
    Body N P k (s.recGcstep total threshold) := by
  by_cases hc : s.ir.chain .gcstep ≠ 0
  · refine h.congr ?_ ?_ rfl ?_ h.pc
    all_goals simp only [Recording.recGcstep, IrBuf.recGcstep, if_pos hc]
  · rw [ne_eq, not_not] at hc
    -- The constants first, then the guard.
    let s₁ : Recording := { s with ir := (Constant.kint64 total).intern s.ir }
    let s₂ : Recording := { s₁ with ir := (Constant.kint64 threshold).intern s₁.ir }
    obtain ⟨hi₁, hg₁, hch₁⟩ := IrBuf.intern_frame s.ir (.kint64 total)
    obtain ⟨hi₂, hg₂, hch₂⟩ := IrBuf.intern_frame s₁.ir (.kint64 threshold)
    have h₁ : Body N P k s₁ := h.congr hi₁ (hch₁ _ rfl) rfl hg₁ h.pc
    have h₂ : Body N P k s₂ := h₁.congr hi₂ (hch₂ _ rfl) rfl hg₂ h.pc
    have hp₂ : ¬ s₂.Pending := by
      intro hpend
      obtain ⟨q, hq, hlast⟩ := hpend
      exact hp hc ⟨q, (IrBuf.has_congr hi₁).mp ((IrBuf.has_congr hi₂).mp hq), hlast⟩
    have h₃ : Body N P k
        (s₂.emit (.new .gcstep (guarded .nil) (s.ir.kint64 total).2 (s₁.ir.kint64 threshold).2)) :=
      h₂.emit rfl (fun he => nomatch he) (fun _ => rfl) fun _ => hp₂
    refine h₃.congr ?_ ?_ rfl ?_ h.pc
    all_goals
      simp only [Recording.recGcstep, IrBuf.recGcstep, if_neg (not_not.mpr hc)]
      rfl

theorem Body.snapAdd (h : Body N P k s) :
    Body N P k s.snapAdd ∧ Settled (s.snapAdd.ir.Has effectful) s.snapAdd.marks := by
  obtain ⟨hinv, hfresh, hpc, hq⟩ := h.toInv.snapAdd (fun _ => h.merge) h.below h.pc
  refine ⟨⟨⟨hinv, fun _ _ => hfresh.merge⟩, fun q hqe => .inl (hfresh.settled q hqe), fun q hqe => ?_, ?_⟩,
    hfresh.settled⟩
  · exact h.below q ((hq q).mp hqe)
  · rw [hpc]
    exact h.pc

theorem Body.compPrep (h : Body N P k s) :
    Body N P k s.compPrep ∧ Settled (s.compPrep.ir.Has effectful) s.compPrep.marks := by
  rw [Recording.compPrep]
  split
  · exact (h.emit rfl (by decide) (fun hl => absurd hl (by decide)) fun hl => absurd hl (by decide)).snapAdd
  · exact h.snapAdd

/-- The snapshots are in the order of their references. -/
theorem Inv.le_last (h : Inv N P k s) {c : ℕ} {sn : SnapShot} (hc : c ∈ s.marks)
    (hsn : s.snap[s.snap.length - 1]? = some sn) : c ≤ sn.iref := by
  obtain ⟨j, hjlt, hj⟩ := List.mem_iff_getElem.mp hc
  obtain ⟨hilt, hsn⟩ := List.getElem?_eq_some_iff.mp hsn
  have hilt' : s.snap.length - 1 < s.marks.length := by simpa [marks] using hilt
  have hlast : s.marks[s.snap.length - 1] = sn.iref := by simp only [marks, List.getElem_map, hsn]
  rw [← hj, ← hlast]
  refine h.sorted.rel_get_of_le (a := ⟨j, hjlt⟩) (b := ⟨s.snap.length - 1, hilt'⟩) ?_
  rw [marks, List.length_map] at hjlt
  exact Fin.mk_le_mk.mpr (by omega)

/-- The last snapshot may resume at any location of the bytecode, since no effect lies behind it. -/
theorem Body.compFixup (h : Body N P k s) (hs : Settled (s.ir.Has effectful) s.marks) {npc : ℕ} (hn : npc ∈ P k)
    (maxslot : ℕ) : Body N P k (s.compFixup npc maxslot) := by
  have hmarks : (s.compFixup npc maxslot).marks = s.marks := by
    refine List.ext_getElem? fun i => ?_
    simp only [marks, Recording.compFixup, List.getElem?_map, List.getElem?_modify]
    cases s.snap[i]? with
    | none => rfl
    | some sn =>
      simp only [Option.map_some, Option.map_eq_map]
      split <;> rfl
  have hlen : (s.compFixup npc maxslot).snap.length = s.snap.length := List.length_modify _ _ _
  refine ⟨⟨⟨by rw [hmarks]; exact h.head, by rw [hmarks]; exact h.sorted, by rw [hmarks]; exact h.bound, h.loop,
    h.clean, by rw [hmarks]; exact h.covered, h.starts, fun sn hsn => ?_⟩, by rw [hmarks, hlen]; exact h.merge⟩,
    by rw [hmarks]; exact h.behind, h.below, h.pc⟩
  obtain ⟨i, hi⟩ := List.mem_iff_getElem?.mp hsn
  simp only [Recording.compFixup, List.getElem?_modify] at hi
  obtain ⟨old, hold, heq⟩ := Option.map_eq_some_iff.mp hi
  by_cases hlast : s.snap.length - 1 = i
  · rw [if_pos hlast] at heq
    refine ⟨k, Nat.le_refl k, fun q hq => iff_of_true ?_ (h.below q hq), by rw [← heq]; exact hn⟩
    obtain ⟨c, hc, hqc⟩ := hs q hq
    have hle := h.toInv.le_last hc (hlast ▸ hold)
    rw [← heq]
    exact Nat.lt_of_lt_of_le hqc hle
  · rw [if_neg hlast] at heq
    obtain rfl : old = sn := heq
    exact h.aligned old (List.mem_of_getElem? hold)

theorem Body.act (h : Body N P k s) {a : Act} (ha : a.Meets s) (hpcs : ∀ p ∈ a.pcs, p ∈ P k) :
    Body N P k (s.act a) := by
  cases a with
  | emit ins => exact h.emitPlain ins ha
  | const c =>
    obtain ⟨hi, hg, hch⟩ := IrBuf.intern_frame s.ir c
    exact h.congr hi (hch _ rfl) rfl hg h.pc
  | slots sl => exact h.congr rfl rfl rfl rfl h.pc
  | gcstep total threshold => exact h.recGcstep ha total threshold
  | comp guards npc maxslot =>
    obtain ⟨hprep, hset⟩ := h.compPrep
    obtain ⟨hguards, hset⟩ := hprep.emits hset guards
    exact hguards.compFixup hset (hpcs npc (List.mem_singleton_self _)) maxslot
  | forLoop exitPc exitMax guards pc maxslot =>
    have hexit : Body N P k (s.resumeAt exitPc exitMax) :=
      h.congr rfl rfl rfl rfl (hpcs exitPc List.mem_cons_self)
    obtain ⟨hsnap, hset⟩ := hexit.snapAdd
    obtain ⟨hguards, -⟩ := hsnap.emits hset guards
    exact hguards.congr rfl rfl rfl rfl (hpcs pc (List.mem_cons_of_mem _ (List.mem_singleton_self _)))
  | goto pc maxslot => exact h.congr rfl rfl rfl rfl (hpcs pc (List.mem_singleton_self _))

theorem Body.acts (h : Body N P k s) {l : List Act} (hm : ActsMeet s l) (hpcs : ∀ a ∈ l, ∀ p ∈ a.pcs, p ∈ P k) :
    Body N P k (s.acts l) := by
  induction l generalizing s with
  | nil => exact h
  | cons a l ih =>
    have hact := h.act hm.1 fun p hp => hpcs a List.mem_cons_self p hp
    exact ih hact hm.2 fun a' ha' => hpcs a' (List.mem_cons_of_mem _ ha')

/-! ### Between bytecodes -/

/-- The recorder between two bytecodes: a snapshot may be due. -/
structure Between (N : ℕ → ℕ) (P : ℕ → List ℕ) (k : ℕ) (s : Recording) : Prop extends Inv N P k s where
  merge : s.ir.guardemit = false → s.snap.length ≠ 1 → (s.needsnap = true ∧ s.mergesnap = false) ∨
    Covered (s.ir.Has effectful) (s.ir.Has leaver) s.marks.dropLast
  behind : ∀ q, s.ir.Has effectful q → (∃ c ∈ s.marks, q < c) ∨ s.ir.Has unflagged q ∨ s.needsnap = true

theorem Body.between (h : Body N P k s) : Between N P k s :=
  ⟨h.toInv, fun hg hlen => .inr (h.merge hg hlen), fun q hq => (h.behind q hq).imp_right .inl⟩

/-- The start of a bytecode takes the snapshot that is due. -/
theorem Between.start (h : Between N P k s) (hN : N k = s.ir.nins) {pc : ℕ} (hpc : pc ∈ P k) :
    Body N P k (s.start pc) := by
  have hbelow : ∀ q, s.ir.Has effectful q → q < N k := fun q hq => hN ▸ hq.lt_nins
  rw [Recording.start]
  split
  · next hneed =>
    let s₀ : Recording := { s with pc := pc, needsnap := false }
    have h₀ : Inv N P k s₀ := h.toInv.congr rfl rfl rfl
    obtain ⟨hinv, hfresh, hpc₁, hq⟩ := h₀.snapAdd
      (fun hm hg hlen => (h.merge hg hlen).resolve_left fun hn => by simp [s₀, hn.2] at hm) hbelow hpc
    refine ⟨⟨hinv.congr rfl rfl rfl, fun _ _ => hfresh.merge⟩, fun q hqe => .inl (hfresh.settled q hqe),
      fun q hqe => hbelow q ((hq q).mp hqe), ?_⟩
    change s₀.snapAdd.pc ∈ P k
    rwa [hpc₁]
  · next hneed =>
    refine ⟨⟨h.toInv.congr rfl rfl rfl, fun hg hlen => ?_⟩, fun q hq => ?_, hbelow, hpc⟩
    · exact (h.merge hg hlen).resolve_left fun hn => hneed hn.1
    · exact (h.behind q hq).imp_right fun hr => hr.resolve_right hneed

/-- The snapshot at the end of a trace. -/
theorem Body.stop (h : Body N P k s) : Inv N P k s.stop ∧ Fresh s.stop := by
  have h₀ : Body N P k { s with needsnap := false, mergesnap := true } := h.congr rfl rfl rfl rfl h.pc
  obtain ⟨hinv, hfresh, -⟩ := h₀.toInv.snapAdd (fun _ => h₀.merge) h₀.below h₀.pc
  exact ⟨hinv, hfresh⟩

/-- A store behind which a snapshot is asked for. -/
theorem Body.store (h : Body N P k s) (hneed : s.needsnap = true) {op : IROp} (hop : op = .astore ∨ op = .hstore)
    (hready : op = .astore → s.StoreReady) (tab key val : ℕ) : Between N P k (s.store op tab key val) := by
  have hcarg : Body N P k (s.emit (.new .carg (plain .nil) key val)) :=
    h.emit rfl (fun he => nomatch he) (fun hl => absurd hl Bool.false_ne_true) fun hl => absurd hl Bool.false_ne_true
  have hpend : (s.emit (.new .carg (plain .nil) key val)).Pending → s.Pending := by
    intro hp
    obtain ⟨q, hq, hlast⟩ := hp
    refine ⟨q, ((IrBuf.has_emitIns (fun _ _ => rfl) _).mp hq).resolve_right fun hn => ?_, hlast⟩
    exact absurd hn.2 Bool.false_ne_true
  have hloop : (IRIns.new op (plain .nil) tab s.ir.nins).op ≠ .loop := by
    cases hop with
    | inl he => exact he ▸ fun hn => nomatch hn
    | inr he => exact he ▸ fun hn => nomatch hn
  have hclean : isClean (.new op (plain .nil) tab s.ir.nins) = true := by
    cases hop with
    | inl he => subst he; rfl
    | inr he => subst he; rfl
  have hset : leaver (.new op (plain .nil) tab s.ir.nins) = true →
      Settled ((s.emit (.new .carg (plain .nil) key val)).ir.Has effectful)
        (s.emit (.new .carg (plain .nil) key val)).marks := by
    intro hl
    refine hcarg.settled fun hp => ?_
    cases hop with
    | inl he => exact (hready he).1 (hpend hp)
    | inr he => subst he; exact absurd hl Bool.false_ne_true
  refine ⟨hcarg.toInv.emit hloop hclean hset, fun hg hlen => ?_, fun q _ => .inr (.inr hneed)⟩
  -- The store is no guard, so nothing keeps the next snapshot from merging unless the flag is off.
  by_cases hms : s.mergesnap = false
  · exact .inl ⟨hneed, hms⟩
  · refine .inr ((hcarg.toLoose.emit hloop hclean hset fun hl => ?_).merge hg hlen)
    cases hop with
    | inr he => subst he; exact absurd hl Bool.false_ne_true
    | inl he =>
      refine .inr ?_
      rcases (hready he).2 with hge | hms' | hmerge
      · exact .inl ((Bool.or_eq_true _ _).mpr (.inl hge))
      · exact absurd hms' hms
      · refine .inr (hmerge.imp_right fun hs q hq => hs q ?_)
        exact (effectful_emit rfl q).mp hq

/-- Arguments of a helper call. -/
theorem Body.carg (h : Body N P k s) (x y : ℕ) : Body N P k (s.emit (.new .carg (plain .nil) x y)) :=
  h.emit rfl (fun he => nomatch he) (fun hl => absurd hl Bool.false_ne_true) fun hl => absurd hl Bool.false_ne_true

/-- An effect that is not an exit. -/
theorem Loose.effect (h : Loose N P k s) (hloop : ins.op ≠ .loop) (hl : leaver ins = false) :
    Loose N P k (s.emit ins) := by
  have hclean : isClean ins = true := by simp [isClean, hl]
  exact h.emit hloop hclean (fun ht => absurd ht (by simp [hl])) fun ht => absurd ht (by simp [hl])

/-- An effect for which no snapshot is asked. -/
theorem Body.unflagged (h : Body N P k s) (hloop : ins.op ≠ .loop) (hl : leaver ins = false)
    (hu : unflagged ins = true) : Between N P k (s.emit ins) := by
  have hloose := h.toLoose.effect hloop hl
  refine ⟨hloose.toInv, fun hg hlen => .inr (hloose.merge hg hlen), fun q hq => ?_⟩
  cases (IrBuf.has_emitIns (fun _ _ => rfl) ins).mp hq with
  | inl hold =>
    exact (h.behind q hold).imp_right fun hq => .inl ((IrBuf.has_emitIns (fun _ _ => rfl) ins).mpr (.inl hq))
  | inr hnew => exact .inr (.inl ((IrBuf.has_emitIns (fun _ _ => rfl) ins).mpr (.inr ⟨hnew.1, hu⟩)))

/-- Where the debt was checked before, only the snapshot is asked for. -/
theorem Loose.recGcstep (h : Loose N P k s) (hc : s.ir.chain .gcstep ≠ 0) (total threshold : UInt64) :
    Between N P k (s.recGcstep total threshold) := by
  have hir : (s.recGcstep total threshold).ir = s.ir := by
    rw [Recording.recGcstep, IrBuf.recGcstep, if_pos hc]
  have hloose : Loose N P k (s.recGcstep total threshold) := by
    refine h.congr ?_ ?_ rfl ?_
    all_goals rw [hir]
  exact ⟨hloose.toInv, fun hg hlen => .inr (hloose.merge hg hlen), fun _ _ => .inr (.inr rfl)⟩

theorem Body.recLast (h : Body N P k s) {l : Last} (hm : l.Meets s) : Between N P k (s.recLast l) := by
  cases l with
  | none => exact h.between
  | unroll =>
    obtain ⟨hinv, hfresh⟩ := h.stop
    exact ⟨hinv.congr rfl rfl rfl, fun _ _ => .inr hfresh.merge, fun q hq => .inl (hfresh.settled q hq)⟩
  | tset total threshold array tab key val =>
    have hop : (if array then IROp.astore else .hstore) = .astore ∨ (if array then IROp.astore else .hstore) = .hstore := by
      cases array with
      | true => exact .inl rfl
      | false => exact .inr rfl
    refine (h.recGcstep (fun hc => ?_) total threshold).store rfl hop (fun ha => ?_) tab key val
    · simpa only [Last.Meets, if_pos hc] using hm
    · cases array with
      | false => exact nomatch ha
      | true =>
        by_cases hc : s.ir.chain .gcstep = 0
        · -- The check itself is a guard, so the next snapshot does not merge.
          simp only [Last.Meets, if_pos hc] at hm
          refine ⟨?_, .inl ?_⟩
          · refine not_pending ((h.recGcstep (fun _ => hm) total threshold).settled ?_)
            intro hp
            obtain ⟨q, hq, hlast⟩ := hp
            exact hm ⟨q, (recGcstep_has rfl fun _ _ => rfl).mp hq, hlast⟩
          · simp only [Recording.recGcstep, IrBuf.recGcstep, if_neg (not_not.mpr hc)]
            exact Bool.or_true _
        · simp only [Last.Meets, if_neg hc, if_true] at hm
          have hir : (s.recGcstep total threshold).ir = s.ir := by
            rw [Recording.recGcstep, IrBuf.recGcstep, if_pos hc]
          rw [StoreReady, Pending, Mergeable, hir]
          exact hm
  | tableStore tab key val =>
    have hneed : Body N P k { s with needsnap := true } := h.congr rfl rfl rfl rfl h.pc
    exact hneed.store rfl (.inl rfl) (fun _ => hm) tab key val
  | setMetatable tab mt => exact h.unflagged (fun he => nomatch he) rfl rfl
  | uset ptr val => exact (h.carg ptr val).unflagged (fun he => nomatch he) rfl rfl
  | ffiCall addr type a0 a1 total threshold =>
    have h₃ := ((h.carg addr type).carg s.ir.nins a0).carg
      (s.emit (.new .carg (plain .nil) addr type)).ir.nins a1
    have hc : (s.recFfi addr type a0 a1).ir.chain .gcstep ≠ 0 := by
      rw [Recording.recFfi, chain_emit, chain_emit, chain_emit, chain_emit]
      · exact hm.1
      all_goals exact fun he => nomatch he
    have hcall : Loose N P k (s.recFfi addr type a0 a1) :=
      h₃.toLoose.emit (fun he => nomatch he) rfl (fun _ => h₃.settled ?_) fun _ => .inl rfl
    · exact hcall.recGcstep hc total threshold
    intro hp
    obtain ⟨q, hq, hlast⟩ := hp
    have hback : ∀ {t : Recording} {x y : ℕ}, (t.emit (.new .carg (plain .nil) x y)).ir.Has Ir.unflagged q →
        t.ir.Has Ir.unflagged q := fun hq =>
      ((IrBuf.has_emitIns (fun _ _ => rfl) _).mp hq).resolve_right fun hn => absurd hn.2 Bool.false_ne_true
    exact hm.2 ⟨q, hback (hback (hback hq)), hlast⟩
  | bufCat x y total threshold =>
    have hc : (s.recBuf x y).ir.chain .gcstep ≠ 0 := by
      rw [Recording.recBuf, chain_emit, chain_emit]
      · exact hm
      all_goals exact fun he => nomatch he
    have hhdr : Loose N P k (s.emit (.new .bufhdr (plain .str) x 0)) :=
      h.toLoose.effect (fun he => nomatch he) rfl
    have hput : Loose N P k (s.recBuf x y) := hhdr.effect (fun he => nomatch he) rfl
    exact hput.recGcstep hc total threshold

/-! ### Whole recordings -/

theorem Between.congr (h : Between N P k s) (slots : Slots) : Between N P k { s with slots := slots } :=
  ⟨h.toInv.congr rfl rfl rfl, h.merge, h.behind⟩

/-- The next bytecode starts where the last one ended. -/
theorem Between.next (h : Between N P k s) (hN : N (k + 1) = s.ir.nins) : Between N P (k + 1) s := by
  refine ⟨{ h.toInv with starts := fun i hi => ?_, aligned := fun sn hsn => ?_ }, h.merge, h.behind⟩
  · rcases Nat.lt_or_ge k i with hlt | hge
    · rw [show i = k + 1 by omega, hN]
    · exact h.starts i hge
  · obtain ⟨i, hi, hal⟩ := h.aligned sn hsn
    exact ⟨i, Nat.le_succ_of_le hi, hal⟩

theorem Between.recordIns (h : Between N P k s) {b : Bytecode} (hb : b.Meets s) (hN : N k = s.ir.nins)
    (hN' : N (k + 1) = (s.recordIns b).ir.nins) (hpc : b.pc ∈ P k) (hpcs : ∀ a ∈ b.acts, ∀ p ∈ a.pcs, p ∈ P k) :
    Between N P (k + 1) (s.recordIns b) :=
  ((((h.start hN hpc).acts hb.1 hpcs).recLast hb.2).congr b.slots).next hN'

theorem record_take_succ (s : Recording) {bs : List Bytecode} {b : Bytecode} (hb : bs[k]? = some b) :
    s.record (bs.take (k + 1)) = (s.record (bs.take k)).recordIns b := by
  rw [List.take_add_one, hb, record, List.foldl_append]
  rfl

theorem Meets.get {bs : List Bytecode} {b : Bytecode} (h : s.Meets bs) (hb : bs[k]? = some b) :
    b.Meets (s.record (bs.take k)) := by
  induction bs generalizing s k with
  | nil => cases hb
  | cons a bs ih =>
    cases k with
    | zero =>
      obtain rfl : a = b := Option.some.inj hb
      exact h.1
    | succ k => exact ih h.2 hb

/-- The end of the buffer at the start of each bytecode. -/
def starts (s : Recording) (bs : List Bytecode) (i : ℕ) : ℕ := (s.record (bs.take i)).ir.nins

/-- The locations that belong to bytecode `i` of a recording which stops at `pc`; the first one has that of
snapshot #0 too. -/
def locations (s : Recording) (bs : List Bytecode) (pc : ℕ) (l : List Act) (i : ℕ) : List ℕ :=
  (if i = 0 then [s.pc] else []) ++
    match bs[i]? with
    | some b => b.pc :: b.acts.flatMap Act.pcs
    | none => pc :: l.flatMap Act.pcs

/-- A buffer that neither leaves nor stores: the base instruction and inherited slots. -/
structure Idle (b : IrBuf) : Prop where
  leaves : ∀ r, ¬ b.Has leaver r
  effects : ∀ r, ¬ b.Has effectful r
  loop : b.chain .loop = 0
  first : REF_FIRST ≤ b.nins

theorem idle_new (parent exitno : ℕ) : Idle (.new parent exitno) := by
  have hnone : ∀ (p : IRIns → Bool) (r : ℕ), p (.new .base (plain .p64) parent exitno) = false →
      ¬ (IrBuf.new parent exitno).Has p r := by
    intro p r hp h
    obtain ⟨hr, ins, hi, hpi⟩ := h
    rw [IrBuf.ir, if_pos hr, IrBuf.new, List.getElem?_singleton] at hi
    split at hi
    · rw [← Option.some.inj hi, hp] at hpi
      cases hpi
    · cases hi
  exact ⟨fun r => hnone leaver r rfl, fun r => hnone effectful r rfl, rfl, Nat.le_refl _⟩

theorem Idle.replay {b : IrBuf} (h : Idle b) (i : Inherited) : Idle (i.replay b) := by
  have hfirst := h.first
  cases i with
  | sload slot ty mode =>
    have hold : ∀ {p : IRIns → Bool} {r : ℕ}, (∀ ins n, p { ins with prev := n } = p ins) →
        p (.new .sload (plain ty) slot mode) = false → (b.emitIns (.new .sload (plain ty) slot mode)).1.Has p r →
        b.Has p r := by
      intro p r hp hno hr
      refine ((IrBuf.has_emitIns hp _).mp hr).resolve_right fun hn => ?_
      rw [hno] at hn
      exact Bool.false_ne_true hn.2
    refine ⟨fun r hr => h.leaves r (hold (fun _ _ => rfl) rfl hr),
      fun r hr => h.effects r (hold (fun _ _ => rfl) rfl hr), ?_, ?_⟩
    · have hne : IROp.loop ≠ .sload := by decide
      exact (Function.update_of_ne hne b.nins b.chain).trans h.loop
    · simp only [Inherited.replay, IrBuf.nins, IrBuf.emitIns, List.length_append] at hfirst ⊢
      omega
  | const c =>
    obtain ⟨hi, -, hch⟩ := IrBuf.intern_frame b c
    refine ⟨fun r hr => h.leaves r ((IrBuf.has_congr hi).mp hr), fun r hr => h.effects r ((IrBuf.has_congr hi).mp hr),
      (hch _ rfl).trans h.loop, ?_⟩
    simp only [Inherited.replay, IrBuf.nins, hi] at hfirst ⊢
    exact hfirst

theorem Idle.foldl {b : IrBuf} (h : Idle b) (l : List Inherited) : Idle (l.foldl Inherited.replay b) := by
  induction l generalizing b with
  | nil => exact h
  | cons i l ih => exact ih (h.replay i)

/-- Snapshot #0 of a trace. -/
theorem between_new {parent exitno pc : ℕ} {inherited : List Inherited} {slots : Slots}
    (hN : N 0 = (Recording.new parent exitno inherited slots pc).ir.nins) (hP : pc ∈ P 0) :
    Between N P 0 (Recording.new parent exitno inherited slots pc) := by
  have h := (idle_new parent exitno).foldl inherited
  let b := inherited.foldl Inherited.replay (.new parent exitno)
  have hmarks : (Recording.new parent exitno inherited slots pc).marks = [b.nins] := rfl
  have hhas : ∀ p, (Recording.new parent exitno inherited slots pc).ir.Has p = b.Has p :=
    fun p => funext fun r => propext (IrBuf.has_congr rfl)
  refine ⟨⟨⟨b.nins, [], rfl, fun r hr => ?_⟩, List.pairwise_singleton _ _, fun c hc => ?_, h.loop, fun r hr => ?_,
    fun q r hq => ?_, fun i hi => ?_, fun sn hsn => ?_⟩, fun _ hlen => absurd rfl hlen, fun q hq => ?_⟩
  · rw [hhas] at hr
    exact absurd hr (h.leaves r)
  · rw [hmarks] at hc
    rw [List.mem_singleton.mp hc]
    exact ⟨h.first, Nat.le_refl _⟩
  · obtain ⟨hge, ins, hi, hcl⟩ := hr
    refine h.leaves r ((IrBuf.has_congr rfl).mp ⟨hge, ins, hi, ?_⟩)
    by_contra hno
    simp [isClean, hno] at hcl
  · rw [hhas] at hq
    exact absurd hq (h.effects q)
  · rw [Nat.le_zero.mp hi, hN]
  · refine ⟨0, Nat.le_refl _, fun q hq => ?_, ?_⟩
    · rw [hhas] at hq
      exact absurd hq (h.effects q)
    · rw [List.mem_singleton.mp hsn]
      exact hP
  · rw [hhas] at hq
    exact absurd hq (h.effects q)

section
variable {parent exitno pc pc₀ : ℕ} {inherited : List Inherited} {slots : Slots} {bs : List Bytecode} {l : List Act}

/-- A recording whose bytecodes all meet their condition keeps the invariant to its end. -/
theorem recorded_inv (hm : (Recording.new parent exitno inherited slots pc₀).Meets bs)
    (hl : ActsMeet (((Recording.new parent exitno inherited slots pc₀).record bs).start pc) l) :
    let s := Recording.new parent exitno inherited slots pc₀
    Inv (s.starts bs) (s.locations bs pc l) bs.length ((s.record bs).finish pc l) := by
  intro s
  have hrun : ∀ k ≤ bs.length, Between (s.starts bs) (s.locations bs pc l) k (s.record (bs.take k)) := by
    intro k hk
    induction k with
    | zero => exact between_new rfl (List.mem_append_left _ (List.mem_singleton_self _))
    | succ k ih =>
      have hb : bs[k]? = some bs[k] := List.getElem?_eq_getElem hk
      have hnext : (s.record (bs.take k)).recordIns bs[k] = s.record (bs.take (k + 1)) := (record_take_succ s hb).symm
      rw [← hnext]
      refine (ih (Nat.le_of_succ_le hk)).recordIns (hm.get hb) rfl (congrArg (·.ir.nins) hnext.symm) ?_ fun a ha p hp => ?_
      · rw [locations, hb]
        exact List.mem_append_right _ List.mem_cons_self
      · rw [locations, hb]
        exact List.mem_append_right _ (List.mem_cons_of_mem _ (List.mem_flatMap.mpr ⟨a, ha, hp⟩))
  have hend := hrun bs.length (Nat.le_refl _)
  have hnone : bs[bs.length]? = none := List.getElem?_eq_none (Nat.le_refl _)
  rw [List.take_length] at hend
  refine (((hend.start ?_ ?_).acts hl fun a ha p hp => ?_).stop).1
  · rw [starts, List.take_length]
  · rw [locations, hnone]
    exact List.mem_append_right _ List.mem_cons_self
  · rw [locations, hnone]
    exact List.mem_append_right _ (List.mem_cons_of_mem _ (List.mem_flatMap.mpr ⟨a, ha, hp⟩))

end

end Recording
end LuajitRs.Ir
