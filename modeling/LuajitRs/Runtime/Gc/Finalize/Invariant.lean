import LuajitRs.Runtime.Gc.Finalize

/-! The invariant of the finalizer protocol. The finalized bit of a live userdata says that it was
separated; the userdata that were separated are those that had their turn and those that wait, and
the sweep meets no waiting userdata that it would free. -/
namespace LuajitRs

namespace GcHeader

theorem and_recolour (b x m f : UInt8) : ((b &&& m) ||| x) &&& f = (b &&& (m &&& f)) ||| (x &&& f) := by
  apply UInt8.eq_of_toBitVec_eq
  ext i hi
  simp only [UInt8.toBitVec_and, UInt8.toBitVec_or, BitVec.getElem_and, BitVec.getElem_or]
  rw [Bool.and_or_distrib_right, Bool.and_assoc]

theorem finalized_mask : ~~~COLOR_MASK &&& BIT_FINALIZED = BIT_FINALIZED := rfl

/-- A change of colour leaves the finalized bit alone. -/
theorem recolour_finalized (b : UInt8) {x : UInt8} (hx : x &&& BIT_FINALIZED = 0) :
    ((b &&& ~~~COLOR_MASK) ||| x) &&& BIT_FINALIZED = b &&& BIT_FINALIZED := by
  rw [and_recolour, finalized_mask, hx, UInt8.or_zero]

@[simp] theorem isFinalized_new (cw : UInt8) : (new cw).isFinalized = false := by
  by_cases h : cw = 0 <;> simp [new, isFinalized, h] <;> decide

@[simp] theorem isFinalized_setMarked (h : GcHeader) : h.setMarked.isFinalized = h.isFinalized := by
  simp only [isFinalized, setMarked, nw2black]
  rw [recolour_finalized _ rfl]

@[simp] theorem isFinalized_changeWhite (h : GcHeader) : h.changeWhite.isFinalized = h.isFinalized := by
  rw [changeWhite]
  split <;> simp only [isFinalized] <;> rw [recolour_finalized _ rfl]

@[simp] theorem isFinalized_survive (h : GcHeader) : h.survive.isFinalized = h.isFinalized := by
  rw [survive]
  split
  · exact isFinalized_changeWhite h
  · rfl

theorem or_and_absorb (b f : UInt8) : (b ||| f) &&& f = f := by
  apply UInt8.eq_of_toBitVec_eq
  ext i hi
  simp only [UInt8.toBitVec_and, UInt8.toBitVec_or, BitVec.getElem_and, BitVec.getElem_or]
  cases b.toBitVec[i] <;> simp

@[simp] theorem isFinalized_setFinalized (h : GcHeader) : h.setFinalized.isFinalized = true := by
  rw [isFinalized, setFinalized, or_and_absorb]
  rfl

@[simp] theorem isFinalized_makeDeadNext (h : GcHeader) (cw : UInt8) :
    (h.makeDeadNext cw).isFinalized = true := by
  simp only [isFinalized, makeDeadNext]
  rw [UInt8.or_assoc, UInt8.or_comm BIT_FINALIZED, ← UInt8.or_assoc, or_and_absorb]
  rfl

/-- The sweep keeps what was allocated during its cycle. -/
theorem alive_new (cw : UInt8) : (new cw).alive cw := by
  by_cases h : cw = 0 <;> simp [new, alive, isDead, isBlack, h] <;> decide

/-- The sweep keeps what was separated. -/
theorem alive_separated (h : GcHeader) (cw : UInt8) : h.makeUndead.setFinalized.alive cw := by
  have hcol (f : UInt8) (hf : ~~~COLOR_MASK &&& f = 0) (hb : BIT_FINALIZED &&& f = 0) :
      ((h.bits &&& ~~~COLOR_MASK) ||| BIT_FINALIZED) &&& f = 0 := by
    rw [and_recolour, hf, hb, UInt8.and_zero, UInt8.or_zero]
  simp only [alive, isDead, isBlack, makeUndead, setFinalized, hcol BIT_WHITE0 rfl rfl,
    hcol BIT_WHITE1 rfl rfl, hcol BIT_BLACK rfl rfl]
  simp

end GcHeader

namespace Gc.GcHeap
variable {heap s t : GcHeap} {a b n : ℕ}

/-! ### What the operations do to one userdata -/

theorem headerOf_modifyHeader (W : heap.userdatas.Wf) (ha : a ∈ heap.objects) (f : GcHeader → GcHeader)
    (b : ℕ) : (heap.modifyHeader a f).headerOf b = if b = a then f (heap.headerOf a) else heap.headerOf b := by
  obtain ⟨box, hbox⟩ := W.exists_box ha
  by_cases h : b = a <;> simp [headerOf, modifyHeader, Pool.headerAt, Pool.modifyHeader, h, hbox]

@[simp] theorem numberOf_modifyHeader (heap : GcHeap) (a : ℕ) (f : GcHeader → GcHeader) :
    (heap.modifyHeader a f).numberOf = heap.numberOf := by
  funext b
  simp [numberOf, modifyHeader]

@[simp] theorem hasGc_modifyHeader (heap : GcHeap) (a : ℕ) (f : GcHeader → GcHeader) :
    (heap.modifyHeader a f).hasGc = heap.hasGc := by
  funext b
  simp [hasGc, hasGcMeta, metatableOf, modifyHeader]

/-- The userdata that were separated: those that had their turn, then those that wait, next one first. -/
def log (heap : GcHeap) : List ℕ := heap.done.map Prod.fst ++ heap.waiting.reverse

/-- Userdata separated in one cycle come in reverse order of creation. -/
def Ordered (separatedIn : ℕ → Option ℕ) (log : List ℕ) : Prop :=
  log.Pairwise fun x y => separatedIn x = separatedIn y → y < x

/-- What holds in every state of the collector. -/
structure Core (heap : GcHeap) : Prop where
  wf : heap.userdatas.Wf
  number_inj : ∀ a ∈ heap.objects, ∀ b ∈ heap.objects, heap.numberOf a = heap.numberOf b → a = b
  born : ∀ a ∈ heap.objects, heap.numberOf a < heap.created
  buried : ∀ x ∈ heap.freed, x.1 < heap.created ∧ ∀ a ∈ heap.objects, heap.numberOf a ≠ x.1
  separated_lt : ∀ n, (heap.separatedIn n).isSome → n < heap.created
  cycle_le : ∀ n c, heap.separatedIn n = some c → c ≤ heap.cycle
  finalized : ∀ a ∈ heap.objects,
    (heap.headerOf a).isFinalized = (heap.separatedIn (heap.numberOf a)).isSome
  pending : ∀ a ∈ heap.mmudata, a ∈ heap.objects
  logged : ∀ n, n ∈ heap.log ↔ (heap.separatedIn n).isSome
  nodup : heap.log.Nodup
  ordered : Ordered heap.separatedIn heap.log
  /-- A userdata that had no finalizer when its turn came has none now. -/
  passed : ∀ a ∈ heap.objects, (heap.numberOf a, false) ∈ heap.done → heap.hasGc a = false
  freed : ∀ x ∈ heap.freed, ((heap.separatedIn x.1).isSome → x.1 ∈ heap.done.map Prod.fst) ∧
    (x.2 → (x.1, true) ∈ heap.done)

/-- The second state has the same userdata, separated in the same cycles. -/
structure Same (s t : GcHeap) : Prop where
  wf : t.userdatas.Wf
  objects : t.objects = s.objects
  number : ∀ a ∈ s.objects, t.numberOf a = s.numberOf a
  finalized : ∀ a ∈ s.objects, (t.headerOf a).isFinalized = (s.headerOf a).isFinalized
  mmudata : t.mmudata = s.mmudata
  created : t.created = s.created
  separatedIn : t.separatedIn = s.separatedIn
  done : t.done = s.done
  freed : t.freed = s.freed

theorem Core.waiting_eq (h : Core s) (hst : Same s t) : t.waiting = s.waiting := by
  rw [waiting, waiting, hst.mmudata]
  exact List.map_congr_left fun a ha => hst.number a (h.pending a ha)

theorem Core.log_eq (h : Core s) (hst : Same s t) : t.log = s.log := by
  rw [log, log, h.waiting_eq hst, hst.done]

theorem Core.same (h : Core s) (hst : Same s t) (hc : s.cycle ≤ t.cycle)
    (hgc : ∀ a ∈ s.objects, t.hasGc a → s.hasGc a ∨ (s.numberOf a, false) ∉ s.done) : Core t := by
  have hlog := h.log_eq hst
  constructor
  · exact hst.wf
  · intro a ha b hb hab
    rw [hst.objects] at ha hb
    rw [hst.number a ha, hst.number b hb] at hab
    exact h.number_inj a ha b hb hab
  · intro a ha
    rw [hst.objects] at ha
    rw [hst.number a ha, hst.created]
    exact h.born a ha
  · intro x hx
    rw [hst.freed] at hx
    refine ⟨hst.created ▸ (h.buried x hx).1, fun a ha => ?_⟩
    rw [hst.objects] at ha
    rw [hst.number a ha]
    exact (h.buried x hx).2 a ha
  · intro n hn
    rw [hst.separatedIn] at hn
    exact hst.created ▸ h.separated_lt n hn
  · intro n c hn
    rw [hst.separatedIn] at hn
    exact (h.cycle_le n c hn).trans hc
  · intro a ha
    rw [hst.objects] at ha
    rw [hst.finalized a ha, hst.number a ha, hst.separatedIn]
    exact h.finalized a ha
  · rw [hst.mmudata, hst.objects]
    exact h.pending
  · rw [hlog, hst.separatedIn]
    exact h.logged
  · rw [hlog]
    exact h.nodup
  · rw [hlog, hst.separatedIn]
    exact h.ordered
  · intro a ha hd
    rw [hst.objects] at ha
    rw [hst.number a ha, hst.done] at hd
    cases hg : t.hasGc a with
    | false => rfl
    | true =>
      cases hgc a ha hg with
      | inl hs => exact absurd (h.passed a ha hd) (by simp [hs])
      | inr hn => exact absurd hd hn
  · rw [hst.freed, hst.separatedIn, hst.done]
    exact h.freed

theorem Core.log_lt (h : Core heap) (hn : n ∈ heap.log) : n < heap.created :=
  h.separated_lt n ((h.logged n).mp hn)

/-- A separated userdata that is alive had its turn or waits. -/
theorem Core.done_of_not_pending (h : Core heap) (ha : a ∈ heap.objects)
    (hs : (heap.separatedIn (heap.numberOf a)).isSome) (hm : a ∉ heap.mmudata) :
    heap.numberOf a ∈ heap.done.map Prod.fst := by
  rcases List.mem_append.mp ((h.logged _).mpr hs) with hd | hw
  · exact hd
  · obtain ⟨b, hb, hab⟩ := List.mem_map.mp (List.mem_reverse.mp hw)
    rw [h.number_inj b (h.pending b hb) a ha hab] at hb
    exact absurd hb hm

/-- A userdata without the finalized bit was not separated. -/
theorem Core.not_logged (h : Core heap) (ha : a ∈ heap.objects)
    (hfin : (heap.headerOf a).isFinalized = false) : heap.numberOf a ∉ heap.log := by
  rw [h.finalized a ha] at hfin
  exact fun hn => by simp [(h.logged _).mp hn] at hfin

theorem Core.new : Core new := by
  refine ⟨Pool.Wf.new, ?_, ?_, ?_, ?_, ?_, ?_, ?_, ?_, ?_, ?_, ?_, ?_⟩ <;>
    simp [GcHeap.new, objects, Pool.new, log, waiting, Ordered]

/-! ### Allocation -/

section Alloc
variable {fresh : ℕ} {mt : Option ℕ}

theorem objects_alloc : (heap.alloc fresh mt).objects = heap.objects ++ [heap.userdatas.nextAddr fresh] :=
  Pool.objects_alloc _ _ _ _

theorem headerOf_alloc (a : ℕ) : (heap.alloc fresh mt).headerOf a =
    if a = heap.userdatas.nextAddr fresh then GcHeader.new heap.userdatas.currentWhite
    else heap.headerOf a := by
  by_cases h : a = heap.userdatas.nextAddr fresh <;>
    simp [headerOf, GcHeap.alloc, Pool.headerAt, Pool.heap_alloc, h]

theorem get_alloc (a : ℕ) : (heap.alloc fresh mt).userdatas.get a =
    if a = heap.userdatas.nextAddr fresh then some ⟨heap.created, mt⟩ else heap.userdatas.get a := by
  by_cases h : a = heap.userdatas.nextAddr fresh <;>
    simp [Pool.get, GcHeap.alloc, Pool.heap_alloc, h]

/-- The userdata that existed before keep their number, header and metatable. -/
theorem alloc_old (W : heap.userdatas.Wf) (hf : heap.userdatas.Available fresh) (mt : Option ℕ)
    (ha : a ∈ heap.objects) :
    (heap.alloc fresh mt).numberOf a = heap.numberOf a ∧
    (heap.alloc fresh mt).headerOf a = heap.headerOf a ∧
    (heap.alloc fresh mt).hasGc a = heap.hasGc a := by
  have hne : a ≠ heap.userdatas.nextAddr fresh := fun h => Pool.nextAddr_not_mem W hf (h ▸ ha)
  refine ⟨?_, ?_, ?_⟩
  · simp [numberOf, get_alloc, hne]
  · simp [headerOf_alloc, hne]
  · simp only [hasGc, metatableOf, get_alloc, if_neg hne]
    rfl

theorem numberOf_alloc : (heap.alloc fresh mt).numberOf (heap.userdatas.nextAddr fresh) = heap.created := by
  simp [numberOf, get_alloc]

theorem Core.alloc (h : Core heap) (hf : heap.userdatas.Available fresh) :
    Core (heap.alloc fresh mt) := by
  have hold {a} (ha : a ∈ heap.objects) := alloc_old h.wf hf mt ha
  have hmem {a} : a ∈ (heap.alloc fresh mt).objects ↔
      a ∈ heap.objects ∨ a = heap.userdatas.nextAddr fresh := by
    rw [objects_alloc, List.mem_append, List.mem_singleton]
  have hwait : (heap.alloc fresh mt).waiting = heap.waiting :=
    List.map_congr_left fun a ha => (hold (h.pending a ha)).1
  have hlog : (heap.alloc fresh mt).log = heap.log := by
    rw [log, log, hwait]
    rfl
  constructor
  · exact h.wf.alloc hf _ _
  · intro a ha b hb hab
    rcases hmem.mp ha with ha | rfl <;> rcases hmem.mp hb with hb | rfl
    · rw [(hold ha).1, (hold hb).1] at hab
      exact h.number_inj a ha b hb hab
    · rw [(hold ha).1, numberOf_alloc] at hab
      exact absurd hab (h.born a ha).ne
    · rw [(hold hb).1, numberOf_alloc] at hab
      exact absurd hab (h.born b hb).ne'
    · rfl
  · intro a ha
    rcases hmem.mp ha with ha | rfl
    · rw [(hold ha).1]
      exact (h.born a ha).trans (Nat.lt_succ_self _)
    · rw [numberOf_alloc]
      exact Nat.lt_succ_self _
  · intro x hx
    have hx := h.buried x hx
    refine ⟨hx.1.trans (Nat.lt_succ_self _), fun a ha => ?_⟩
    rcases hmem.mp ha with ha | rfl
    · rw [(hold ha).1]
      exact hx.2 a ha
    · rw [numberOf_alloc]
      exact hx.1.ne'
  · exact fun n hn => (h.separated_lt n hn).trans (Nat.lt_succ_self _)
  · exact h.cycle_le
  · intro a ha
    rcases hmem.mp ha with ha | rfl
    · rw [(hold ha).1, (hold ha).2.1]
      exact h.finalized a ha
    · rw [numberOf_alloc, headerOf_alloc, if_pos rfl, GcHeader.isFinalized_new]
      cases hs : (heap.alloc fresh mt).separatedIn heap.created with
      | none => rfl
      | some c => exact absurd (h.separated_lt heap.created (Option.isSome_of_eq_some hs)) (lt_irrefl _)
  · exact fun a ha => hmem.mpr (.inl (h.pending a ha))
  · rw [hlog]
    exact h.logged
  · rw [hlog]
    exact h.nodup
  · rw [hlog]
    exact h.ordered
  · intro a ha hd
    rcases hmem.mp ha with ha | rfl
    · rw [(hold ha).2.2]
      exact h.passed a ha ((hold ha).1 ▸ hd)
    · rw [numberOf_alloc] at hd
      exact absurd (h.log_lt (List.mem_append_left _ (List.mem_map_of_mem hd))) (lt_irrefl _)
  · exact h.freed

end Alloc

/-! ### Separation -/

/-- `separate`, with the object put on the pending list at once. -/
def separateOne (heap : GcHeap) (u : ℕ) : GcHeap :=
  { heap.separate u with mmudata := heap.mmudata ++ [u] }

@[simp] theorem objects_separate (heap : GcHeap) (u : ℕ) : (heap.separate u).objects = heap.objects := rfl

@[simp] theorem numberOf_separate (heap : GcHeap) (u : ℕ) : (heap.separate u).numberOf = heap.numberOf :=
  numberOf_modifyHeader heap u fun h => h.makeUndead.setFinalized

@[simp] theorem hasGc_separate (heap : GcHeap) (u : ℕ) : (heap.separate u).hasGc = heap.hasGc :=
  hasGc_modifyHeader heap u fun h => h.makeUndead.setFinalized

theorem headerOf_separate (W : heap.userdatas.Wf) (ha : a ∈ heap.objects) (b : ℕ) :
    (heap.separate a).headerOf b =
      if b = a then (heap.headerOf a).makeUndead.setFinalized else heap.headerOf b :=
  headerOf_modifyHeader W ha (fun h => h.makeUndead.setFinalized) b

theorem log_separateOne (heap : GcHeap) (u : ℕ) : (heap.separateOne u).log =
    heap.done.map Prod.fst ++ heap.numberOf u :: heap.waiting.reverse := by
  have hnum : (heap.separateOne u).numberOf = heap.numberOf := numberOf_separate heap u
  have hwait : (heap.separateOne u).waiting = heap.waiting ++ [heap.numberOf u] := by
    rw [waiting, hnum]
    exact List.map_append
  rw [log, hwait, List.reverse_append]
  rfl

/-- A userdata that was not separated joins those that wait; what this cycle separated before is older. -/
theorem Core.separateOne (h : Core heap) (ha : a ∈ heap.objects)
    (hfin : (heap.headerOf a).isFinalized = false)
    (hcycle : ∀ n, heap.separatedIn n = some heap.cycle → n ∉ heap.done.map Prod.fst ∧ n < heap.numberOf a) :
    Core (heap.separateOne a) := by
  have hnum : (heap.separateOne a).numberOf = heap.numberOf := numberOf_separate heap a
  have hsep (n) : (heap.separateOne a).separatedIn n =
      if n = heap.numberOf a then some heap.cycle else heap.separatedIn n := Function.update_apply _ _ _ _
  have hnew := h.not_logged ha hfin
  have hperm : (heap.separateOne a).log.Perm (heap.numberOf a :: heap.log) := by
    rw [log_separateOne, log]
    exact List.perm_middle
  constructor
  · exact h.wf.modifyHeader a fun h => h.makeUndead.setFinalized
  · rw [hnum]
    exact h.number_inj
  · rw [hnum]
    exact h.born
  · rw [hnum]
    exact h.buried
  · intro n hn
    rw [hsep] at hn
    split at hn
    · next hna => exact hna ▸ h.born a ha
    · exact h.separated_lt n hn
  · intro n c hn
    rw [hsep] at hn
    split at hn
    · exact (Option.some.inj hn).symm.le
    · exact h.cycle_le n c hn
  · intro b hb
    rw [hnum, hsep]
    have hhead : (heap.separateOne a).headerOf b = _ := headerOf_separate h.wf ha b
    rw [hhead]
    by_cases hba : b = a
    · simp [hba]
    · have hne : heap.numberOf b ≠ heap.numberOf a := fun hn => hba (h.number_inj b hb a ha hn)
      rw [if_neg hba, if_neg hne]
      exact h.finalized b hb
  · intro b hb
    rcases List.mem_append.mp hb with hb | hb
    · exact h.pending b hb
    · exact List.mem_singleton.mp hb ▸ ha
  · intro n
    rw [hperm.mem_iff, List.mem_cons, h.logged, hsep]
    by_cases hn : n = heap.numberOf a <;> simp [hn]
  · exact hperm.nodup_iff.mpr (List.nodup_cons.mpr ⟨hnew, h.nodup⟩)
  · have hord := h.ordered
    have hkeep {x} (hx : x ∈ heap.log) : (heap.separateOne a).separatedIn x = heap.separatedIn x := by
      rw [hsep, if_neg fun hxa : x = heap.numberOf a => hnew (hxa ▸ hx)]
    have hself : (heap.separateOne a).separatedIn (heap.numberOf a) = some heap.cycle := by
      rw [hsep, if_pos rfl]
    rw [Ordered, log_separateOne, List.pairwise_append, List.pairwise_cons]
    rw [Ordered, log, List.pairwise_append] at hord
    obtain ⟨hdone, hwait, hcross⟩ := hord
    have hd {x} (hx : x ∈ heap.done.map Prod.fst) := hkeep (List.mem_append_left _ hx)
    have hw {x} (hx : x ∈ heap.waiting.reverse) := hkeep (List.mem_append_right _ hx)
    refine ⟨?_, ⟨?_, ?_⟩, ?_⟩
    · exact hdone.imp_of_mem fun hx hy hxy he => hxy (by rwa [hd hx, hd hy] at he)
    · intro y hy he
      rw [hself, hw hy] at he
      exact (hcycle y he.symm).2
    · exact hwait.imp_of_mem fun hx hy hxy he => hxy (by rwa [hw hx, hw hy] at he)
    · intro x hx y hy he
      rcases List.mem_cons.mp hy with rfl | hy
      · rw [hself, hd hx] at he
        exact absurd hx (hcycle x he).1
      · rw [hd hx, hw hy] at he
        exact hcross x hx y hy he
  · intro b hb hd
    have hgc : (heap.separateOne a).hasGc = heap.hasGc := hasGc_separate heap a
    rw [hgc]
    exact h.passed b hb (hnum ▸ hd)
  · intro x hx
    have hne : x.1 ≠ heap.numberOf a := ((h.buried x hx).2 a ha).symm
    rw [hsep, if_neg hne]
    exact h.freed x hx

/-! ### The turn of a finalizer -/

theorem runFinalizer_nil (hm : heap.mmudata = []) : heap.runFinalizer = { heap with gcState := .pause } := by
  simp [runFinalizer, hm]

section Turn
variable {init : List ℕ} {o : ℕ}

theorem runFinalizer_concat (hm : heap.mmudata = init ++ [o]) : heap.runFinalizer =
    { heap.modifyHeader o (fun h => h.makeDeadNext heap.userdatas.currentWhite) with
      mmudata := init, done := heap.done ++ [(heap.numberOf o, heap.hasGc o)] } := by
  simp [runFinalizer, hm]

/-- The next userdata moves from those that wait to those that had their turn. -/
theorem log_runFinalizer (hm : heap.mmudata = init ++ [o]) : heap.runFinalizer.log = heap.log := by
  have hnum : heap.runFinalizer.numberOf = heap.numberOf := by
    rw [runFinalizer_concat hm]
    exact numberOf_modifyHeader heap o fun h => h.makeDeadNext heap.userdatas.currentWhite
  rw [log, log, waiting, waiting, hnum, hm, runFinalizer_concat hm]
  simp

theorem Core.runFinalizer (h : Core heap) (hm : heap.mmudata = init ++ [o]) : Core heap.runFinalizer := by
  have ho : o ∈ heap.objects := h.pending o (by simp [hm])
  have hlog := log_runFinalizer hm
  rw [runFinalizer_concat hm] at hlog ⊢
  set t : GcHeap := { heap.modifyHeader o (fun h => h.makeDeadNext heap.userdatas.currentWhite) with
    mmudata := init, done := heap.done ++ [(heap.numberOf o, heap.hasGc o)] } with ht
  have hnum : t.numberOf = heap.numberOf := numberOf_modifyHeader heap o fun h => h.makeDeadNext heap.userdatas.currentWhite
  have hgc : t.hasGc = heap.hasGc := hasGc_modifyHeader heap o fun h => h.makeDeadNext heap.userdatas.currentWhite
  constructor
  · exact h.wf.modifyHeader o fun h => h.makeDeadNext heap.userdatas.currentWhite
  · rw [hnum]
    exact h.number_inj
  · rw [hnum]
    exact h.born
  · rw [hnum]
    exact h.buried
  · exact h.separated_lt
  · exact h.cycle_le
  · intro b hb
    have hhead : t.headerOf b = _ := headerOf_modifyHeader h.wf ho
      (fun h => h.makeDeadNext heap.userdatas.currentWhite) b
    rw [hhead, hnum]
    by_cases hbo : b = o
    · have hlogged : heap.numberOf o ∈ heap.log := by simp [log, waiting, hm]
      rw [if_pos hbo, hbo, GcHeader.isFinalized_makeDeadNext]
      exact ((h.logged _).mp hlogged).symm
    · rw [if_neg hbo]
      exact h.finalized b hb
  · exact fun b hb => h.pending b (by rw [hm]; exact List.mem_append_left _ hb)
  · rw [hlog]
    exact h.logged
  · rw [hlog]
    exact h.nodup
  · rw [hlog]
    exact h.ordered
  · intro b hb hd
    rw [hgc]
    rw [hnum] at hd
    rcases List.mem_append.mp hd with hd | hd
    · exact h.passed b hb hd
    · obtain ⟨hn, hf⟩ := Prod.mk.inj (List.mem_singleton.mp hd)
      rw [h.number_inj b hb o ho hn]
      exact hf.symm
  · intro x hx
    have hx := h.freed x hx
    refine ⟨fun hs => ?_, fun hg => List.mem_append_left _ (hx.2 hg)⟩
    rw [List.map_append]
    exact List.mem_append_left _ (hx.1 hs)

end Turn

/-! ### The sweep -/

/-- `release`, with what the sweep's callback leaves behind. -/
def releaseOne (heap : GcHeap) (i a : ℕ) : GcHeap :=
  { heap with
    userdatas := heap.userdatas.release BLOCK_SIZE i a
    freed := heap.freed ++ [(heap.numberOf a, heap.hasGc a)] }

/-- The other userdata keep their number, header and metatable. -/
theorem releaseOne_old (heap : GcHeap) (i : ℕ) (h : b ≠ a) :
    (heap.releaseOne i a).numberOf b = heap.numberOf b ∧
    (heap.releaseOne i a).headerOf b = heap.headerOf b ∧ (heap.releaseOne i a).hasGc b = heap.hasGc b := by
  have hget : (heap.releaseOne i a).userdatas.get b = heap.userdatas.get b := Pool.get_release_of_ne h
  refine ⟨?_, ?_, ?_⟩
  · rw [numberOf, hget, numberOf]
  · simp [headerOf, GcHeap.releaseOne, Pool.headerAt, Pool.heap_release, h]
  · rw [hasGc, metatableOf, hget]
    rfl

/-- The sweep may free what does not wait, and what has no finalizer or was separated. -/
theorem Core.releaseOne (h : Core heap) {xs rest : List ℕ} (ho : heap.objects = xs ++ a :: rest)
    (hm : a ∉ heap.mmudata) (hg : heap.hasGc a → (heap.headerOf a).isFinalized) :
    Core (heap.releaseOne xs.length a) := by
  have ha : a ∈ heap.objects := by simp [ho]
  have hmem {b} : b ∈ (heap.releaseOne xs.length a).objects ↔ b ∈ heap.objects ∧ b ≠ a :=
    Pool.mem_objects_release h.wf ho BLOCK_SIZE
  have hold {b} (hb : b ∈ (heap.releaseOne xs.length a).objects) :=
    releaseOne_old heap xs.length (hmem.mp hb).2
  have hwait : (heap.releaseOne xs.length a).waiting = heap.waiting :=
    List.map_congr_left fun b hb => (releaseOne_old heap xs.length fun hba : b = a => hm (hba ▸ hb)).1
  have hlog : (heap.releaseOne xs.length a).log = heap.log := by
    rw [log, log, hwait]
    rfl
  constructor
  · exact h.wf.release ho BLOCK_SIZE
  · intro b hb c hc hbc
    rw [(hold hb).1, (hold hc).1] at hbc
    exact h.number_inj b (hmem.mp hb).1 c (hmem.mp hc).1 hbc
  · intro b hb
    rw [(hold hb).1]
    exact h.born b (hmem.mp hb).1
  · intro x hx
    rcases List.mem_append.mp hx with hx | hx
    · refine ⟨(h.buried x hx).1, fun b hb => ?_⟩
      rw [(hold hb).1]
      exact (h.buried x hx).2 b (hmem.mp hb).1
    · obtain rfl := List.mem_singleton.mp hx
      refine ⟨h.born a ha, fun b hb => ?_⟩
      rw [(hold hb).1]
      exact fun hn => (hmem.mp hb).2 (h.number_inj b (hmem.mp hb).1 a ha hn)
  · exact h.separated_lt
  · exact h.cycle_le
  · intro b hb
    rw [(hold hb).1, (hold hb).2.1]
    exact h.finalized b (hmem.mp hb).1
  · exact fun b hb => hmem.mpr ⟨h.pending b hb, fun hba => hm (hba ▸ hb)⟩
  · rw [hlog]
    exact h.logged
  · rw [hlog]
    exact h.nodup
  · rw [hlog]
    exact h.ordered
  · intro b hb hd
    rw [(hold hb).2.2]
    exact h.passed b (hmem.mp hb).1 ((hold hb).1 ▸ hd)
  · intro x hx
    rcases List.mem_append.mp hx with hx | hx
    · exact h.freed x hx
    · obtain rfl := List.mem_singleton.mp hx
      refine ⟨fun hs => h.done_of_not_pending ha hs hm, fun hgc => ?_⟩
      have hs : (heap.separatedIn (heap.numberOf a)).isSome := h.finalized a ha ▸ hg hgc
      obtain ⟨⟨n, called⟩, hd, hn⟩ := List.mem_map.mp (h.done_of_not_pending ha hs hm)
      obtain rfl : n = heap.numberOf a := hn
      cases called with
      | true => exact hd
      | false => exact absurd (h.passed a ha hd) (by simpa using hgc)

end Gc.GcHeap
end LuajitRs
