import LuajitRs.Runtime.Gc.Finalize.Invariant

/-! Runs of collection cycles. A run is regular when every cycle starts while the collector pauses, when
an atomic step finds the userdata it separates in creation order, and when no metatable gives a finalizer
to a userdata that is about to be swept or whose turn has passed without one. -/
namespace LuajitRs.Gc.GcHeap
open Relation

variable {heap s t : GcHeap} {a b n : ℕ} {d : Bool}

/-! ### The condition -/

/-- The objects that the running sweep has still to visit. -/
def unswept (heap : GcHeap) : List ℕ :=
  if heap.gcSweepPool < 6 then heap.objects
  else if heap.gcSweepPool = 6 then heap.objects.drop heap.gcSweepPos else []

def alive (heap : GcHeap) (a : ℕ) : Bool := (heap.headerOf a).alive heap.userdatas.currentWhite

/-- A finalizer that a userdata gets now can still be called. -/
def Settled (heap : GcHeap) (a : ℕ) : Prop :=
  heap.hasGc a ∨ (heap.numberOf a, false) ∉ heap.done ∧
    (heap.gcState = .sweep → a ∈ heap.unswept → heap.alive a)

/-- The userdata that an atomic step separates, in the order of the pool. -/
def separated (heap : GcHeap) : List ℕ := heap.objects.filter heap.separable

def Regular (heap : GcHeap) : Action → Prop
  | .setMetatable a mt => heap.hasGcMeta mt → heap.Settled a
  | .setGcField mt b => b = true → ∀ a ∈ heap.objects, heap.metatableOf a = some mt → heap.Settled a
  | .startGcCycle _ => heap.gcState = .pause
  | .gcOnestep marks _ _ => heap.gcState = .atomic →
      let marked := heap.markAll marks
      (marked.separated.map marked.numberOf).Pairwise (· < ·)
  | .alloc _ _ | .barrierFwd _ | .runFinalizer => True

instance (heap : GcHeap) (a : ℕ) : Decidable (heap.Settled a) :=
  inferInstanceAs (Decidable (heap.hasGc a ∨ (heap.numberOf a, false) ∉ heap.done ∧
    (heap.gcState = .sweep → a ∈ heap.unswept → heap.alive a)))

instance (heap : GcHeap) : (act : Action) → Decidable (heap.Regular act)
  | .setMetatable a mt => inferInstanceAs (Decidable (heap.hasGcMeta mt → heap.Settled a))
  | .setGcField mt b => inferInstanceAs (Decidable
      (b = true → ∀ a ∈ heap.objects, heap.metatableOf a = some mt → heap.Settled a))
  | .startGcCycle _ => inferInstanceAs (Decidable (heap.gcState = .pause))
  | .gcOnestep marks _ _ => inferInstanceAs (Decidable (heap.gcState = .atomic →
      ((heap.markAll marks).separated.map (heap.markAll marks).numberOf).Pairwise (· < ·)))
  | .alloc _ _ | .barrierFwd _ | .runFinalizer => inferInstanceAs (Decidable True)

/-! ### The invariant over the phases of a cycle -/

/-- The running sweep does not free what waits, nor what has a finalizer and was not separated. -/
def Sheltered (heap : GcHeap) (a : ℕ) : Prop :=
  (a ∈ heap.mmudata → heap.alive a) ∧
  (heap.hasGc a → heap.alive a ∨ (heap.headerOf a).isFinalized)

def Marking (heap : GcHeap) : Prop := heap.gcState = .propagate ∨ heap.gcState = .atomic

structure Inv (heap : GcHeap) : Prop extends Core heap where
  idle : heap.gcState = .pause ∨ heap.Marking → heap.mmudata = []
  fresh : heap.Marking → ∀ n, heap.separatedIn n ≠ some heap.cycle
  sheltered : heap.gcState = .sweep → ∀ a ∈ heap.unswept, heap.Sheltered a

theorem mem_objects_of_unswept (h : a ∈ heap.unswept) : a ∈ heap.objects := by
  unfold unswept at h
  split at h
  · exact h
  · split at h
    · exact List.mem_of_mem_drop h
    · simp at h

theorem Inv.new : Inv new := ⟨Core.new, by simp [GcHeap.new], by simp [GcHeap.new, Marking],
  by simp [GcHeap.new]⟩

/-- The phase of the collector is not part of what holds in every state. -/
theorem Core.phase (h : Core heap) (live : ℕ) (st : GcState) (pool pos : ℕ) :
    Core { heap with userdatas := { heap.userdatas with live := live }, gcState := st, gcSweepPool := pool,
                     gcSweepPos := pos } :=
  h.same ⟨{ h.wf with }, rfl, fun _ _ => rfl, fun _ _ => rfl, rfl, rfl, rfl, rfl, rfl⟩ (Nat.le_refl _)
    fun _ _ => .inl

theorem Core.mmudata_nodup (h : Core heap) : heap.mmudata.Nodup :=
  (List.nodup_reverse.mp (List.nodup_append.mp h.nodup).2.1).of_map _

/-! ### Marking -/

/-- The second state is the first one after some objects were marked. -/
structure Marked (s t : GcHeap) : Prop where
  eq : t = { s with userdatas := t.userdatas }
  wf : t.userdatas.Wf
  white : t.userdatas.currentWhite = s.userdatas.currentWhite
  objects : t.objects = s.objects
  number : t.numberOf = s.numberOf
  hasGc : t.hasGc = s.hasGc
  finalized : ∀ a, (t.headerOf a).isFinalized = (s.headerOf a).isFinalized
  header : ∀ a, t.headerOf a = s.headerOf a ∨ (t.headerOf a).marked

theorem Marked.refl (W : heap.userdatas.Wf) : Marked heap heap :=
  ⟨rfl, W, rfl, rfl, rfl, rfl, fun _ => rfl, fun _ => .inl rfl⟩

theorem Marked.markUserdata (h : Marked s t) (ha : a ∈ s.objects) : Marked s (t.markUserdata a) := by
  have ha' : a ∈ t.objects := h.objects ▸ ha
  rw [GcHeap.markUserdata]
  split
  · exact h
  · refine ⟨?_, h.wf.modifyHeader a _, h.white, h.objects, ?_, ?_, fun b => ?_, fun b => ?_⟩
    · rw [h.eq]
      rfl
    · rw [numberOf_modifyHeader, h.number]
    · rw [hasGc_modifyHeader, h.hasGc]
    · rw [headerOf_modifyHeader h.wf ha', ← h.finalized b]
      split
      · next hb => rw [GcHeader.isFinalized_setMarked, hb]
      · rfl
    · rw [headerOf_modifyHeader h.wf ha']
      split
      · exact .inr rfl
      · exact h.header b

theorem Marked.markAll {marks : List ℕ} (h : Marked s t) (hm : ∀ a ∈ marks, a ∈ s.objects) :
    Marked s (t.markAll marks) := by
  rw [GcHeap.markAll]
  induction marks generalizing t with
  | nil => exact h
  | cons a marks ih =>
    rw [List.foldl_cons]
    exact ih (h.markUserdata (hm a (by simp))) fun b hb => hm b (by simp [hb])

theorem Marked.alive (h : Marked s t) (ha : s.alive a) : t.alive a := by
  rw [GcHeap.alive]
  cases h.header a with
  | inl he =>
    rw [he, h.white]
    exact ha
  | inr hm => simp [GcHeader.alive, hm]

theorem Marked.phase (h : Marked s t) : t.gcState = s.gcState ∧ t.gcSweepPool = s.gcSweepPool ∧
    t.gcSweepPos = s.gcSweepPos ∧ t.cycle = s.cycle := by
  rw [h.eq]
  exact ⟨rfl, rfl, rfl, rfl⟩

theorem Marked.same (h : Marked s t) : Same s t where
  wf := h.wf
  objects := h.objects
  number a _ := congrFun h.number a
  finalized a _ := h.finalized a
  mmudata := by rw [h.eq]
  created := by rw [h.eq]
  separatedIn := by rw [h.eq]
  done := by rw [h.eq]
  freed := by rw [h.eq]

theorem Marked.core (h : Marked s t) (hs : Core s) : Core t := by
  refine hs.same h.same h.phase.2.2.2.symm.le fun a _ ha => .inl ?_
  rw [← h.hasGc]
  exact ha

theorem Marked.unswept (h : Marked s t) : t.unswept = s.unswept := by
  obtain ⟨-, hpool, hpos, -⟩ := h.phase
  rw [GcHeap.unswept, GcHeap.unswept, h.objects, hpool, hpos]

theorem Marked.inv (h : Marked s t) (hs : Inv s) : Inv t := by
  obtain ⟨hstate, -, -, hcycle⟩ := h.phase
  refine ⟨h.core hs.toCore, ?_, ?_, ?_⟩
  · rw [h.same.mmudata, Marking, hstate]
    exact hs.idle
  · rw [h.same.separatedIn, Marking, hstate, hcycle]
    exact hs.fresh
  · intro ht a ha
    rw [h.unswept] at ha
    obtain ⟨hm, hg⟩ := hs.sheltered (hstate ▸ ht) a ha
    rw [Sheltered, h.same.mmudata, h.hasGc, h.finalized]
    exact ⟨fun hp => h.alive (hm hp), fun hgc => (hg hgc).imp_left h.alive⟩

theorem Inv.markAll {marks : List ℕ} (h : Inv heap) (hm : ∀ a ∈ marks, a ∈ heap.objects) :
    Inv (heap.markAll marks) :=
  ((Marked.refl h.wf).markAll hm).inv h

theorem Inv.barrierFwd (h : Inv heap) (ha : a ∈ heap.objects) : Inv (heap.barrierFwd a) := by
  rw [GcHeap.barrierFwd]
  split
  · exact h
  · exact ((Marked.refl h.wf).markUserdata ha).inv h

/-! ### The program -/

theorem mem_unswept_alloc {fresh : ℕ} {mt : Option ℕ} (hnew : a ≠ heap.userdatas.nextAddr fresh)
    (ha : a ∈ (heap.alloc fresh mt).unswept) : a ∈ heap.unswept := by
  have hun : (heap.alloc fresh mt).unswept =
      if heap.gcSweepPool < 6 then heap.objects ++ [heap.userdatas.nextAddr fresh]
      else if heap.gcSweepPool = 6 then
        (heap.objects ++ [heap.userdatas.nextAddr fresh]).drop heap.gcSweepPos else [] := by
    rw [unswept, objects_alloc]
    rfl
  rw [hun] at ha
  rw [unswept]
  split_ifs at ha ⊢
  · simpa [hnew] using ha
  · rw [List.drop_append, List.mem_append] at ha
    exact ha.resolve_right fun hr => hnew (List.mem_singleton.mp (List.mem_of_mem_drop hr))
  · exact ha

theorem Inv.alloc {fresh : ℕ} {mt : Option ℕ} (h : Inv heap) (hf : heap.userdatas.Available fresh) :
    Inv (heap.alloc fresh mt) := by
  refine ⟨h.toCore.alloc hf, h.idle, h.fresh, fun hsweep a ha => ?_⟩
  by_cases hnew : a = heap.userdatas.nextAddr fresh
  · have halive : (heap.alloc fresh mt).alive a := by
      rw [alive, headerOf_alloc, if_pos hnew]
      exact (Pool.currentWhite_alloc _ _ _ _).symm ▸ GcHeader.alive_new _
    exact ⟨fun _ => halive, fun _ => .inl halive⟩
  · have hold := mem_unswept_alloc hnew ha
    obtain ⟨-, hhead, hgc⟩ := alloc_old h.wf hf mt (mem_objects_of_unswept hold)
    have hs := h.sheltered hsweep a hold
    rw [Sheltered, alive, hhead, hgc]
    exact (Pool.currentWhite_alloc _ _ _ _).symm ▸ hs

/-- A change of metatables that gives a finalizer to settled userdata only. -/
theorem Inv.settled (h : Inv s) (hst : Same s t) (hc : t.cycle = s.cycle) (hstate : t.gcState = s.gcState)
    (hun : t.unswept = s.unswept) (hal : t.alive = s.alive) (hh : t.headerOf = s.headerOf)
    (hgc : ∀ a ∈ s.objects, t.hasGc a → s.Settled a) : Inv t := by
  refine ⟨h.toCore.same hst hc.symm.le fun a ha hg => (hgc a ha hg).imp_right And.left, ?_, ?_, ?_⟩
  · rw [hst.mmudata, Marking, hstate]
    exact h.idle
  · rw [hst.separatedIn, Marking, hstate, hc]
    exact h.fresh
  · intro ht a ha
    rw [hun] at ha
    obtain ⟨hm, hg⟩ := h.sheltered (hstate ▸ ht) a ha
    rw [Sheltered, hst.mmudata, hal, hh]
    refine ⟨hm, fun hgt => ?_⟩
    cases hgc a (mem_objects_of_unswept ha) hgt with
    | inl hs => exact hg hs
    | inr hs => exact .inl (hs.2 (hstate ▸ ht) ha)

theorem get_setMetatable (heap : GcHeap) (a : ℕ) (mt : Option ℕ) (b : ℕ) :
    (heap.setMetatable a mt).userdatas.get b =
      (heap.userdatas.get b).map fun u => if b = a then { u with metatable := mt } else u := by
  by_cases h : b = a <;> simp [Pool.get, setMetatable, h, Function.comp_def]

theorem headerOf_setMetatable (heap : GcHeap) (a : ℕ) (mt : Option ℕ) :
    (heap.setMetatable a mt).headerOf = heap.headerOf := by
  funext b
  by_cases h : b = a <;> simp [headerOf, Pool.headerAt, setMetatable, h, Function.comp_def]

theorem Inv.setMetatable {mt : Option ℕ} (h : Inv heap)
    (hr : heap.Regular (.setMetatable a mt)) : Inv (heap.setMetatable a mt) := by
  have hhead := headerOf_setMetatable heap a mt
  have hnum : (heap.setMetatable a mt).numberOf = heap.numberOf := by
    funext b
    rw [numberOf, get_setMetatable, numberOf, Option.map_map]
    congr 2
    funext u
    dsimp only [Function.comp]
    split <;> rfl
  have hwf : (heap.setMetatable a mt).userdatas.Wf := by
    refine { h.wf with mapped := fun b hb => ?_ }
    have := h.wf.mapped b hb
    by_cases hba : b = a <;> simp_all [GcHeap.setMetatable]
  refine h.settled ⟨hwf, rfl, fun b _ => by rw [hnum], fun b _ => by rw [hhead], rfl, rfl, rfl, rfl, rfl⟩
    rfl rfl rfl ?_ hhead fun b hb hg => ?_
  · funext b
    rw [alive, hhead]
    rfl
  · rw [hasGc, metatableOf, get_setMetatable] at hg
    obtain ⟨u, hu⟩ := h.wf.exists_get hb
    rw [hu] at hg
    change heap.hasGcMeta _ = true at hg
    by_cases hba : b = a
    · rw [hba] at hg ⊢
      exact hr (by simpa using hg)
    · refine .inl ?_
      rw [hasGc, metatableOf, hu]
      simpa [hba] using hg

theorem Inv.setGcField {mt : ℕ} {v : Bool} (h : Inv heap) (hr : heap.Regular (.setGcField mt v)) :
    Inv (heap.setGcField mt v) := by
  refine h.settled ⟨h.wf, rfl, fun _ _ => rfl, fun _ _ => rfl, rfl, rfl, rfl, rfl, rfl⟩ rfl rfl rfl rfl rfl
    fun b hb hg => ?_
  have hmeta : (heap.setGcField mt v).metatableOf b = heap.metatableOf b := rfl
  rw [hasGc, hmeta] at hg
  cases hm : heap.metatableOf b with
  | none => simp [hasGcMeta, hm] at hg
  | some m =>
    have hg : (heap.setGcField mt v).gcMeta m = true := by simpa [hasGcMeta, hm] using hg
    change Function.update heap.gcMeta mt v m = true at hg
    by_cases hmt : m = mt
    · rw [hmt, Function.update_self] at hg
      exact hr hg b hb (hmt ▸ hm)
    · rw [Function.update_of_ne hmt] at hg
      exact .inl (by simpa [hasGc, hasGcMeta, hm] using hg)

/-! ### The start of a cycle -/

theorem Inv.startGcCycle {roots : List ℕ} (h : Inv heap) (hp : heap.gcState = .pause)
    (hr : ∀ a ∈ roots, a ∈ heap.objects) : Inv (heap.startGcCycle roots) := by
  rw [GcHeap.startGcCycle]
  refine Inv.markAll ?_ hr
  set pool := (heap.userdatas.updateCurrentWhite (heap.userdatas.currentWhite ^^^ 1)).resetMarked with hpool
  have hheap (b) : pool.heap b = if b ∈ heap.objects then
      (heap.userdatas.heap b).map fun x => { x with header := { x.header with marked := false } }
    else heap.userdatas.heap b := rfl
  have hget (b) : pool.get b = heap.userdatas.get b := by
    rw [Pool.get, hheap]
    split <;> simp [Pool.get, Function.comp_def]
  have hwf : pool.Wf := by
    refine { h.wf with mapped := fun b hb => ?_ }
    rw [hheap]
    split <;> simpa using h.wf.mapped b hb
  set t : GcHeap := { heap with userdatas := pool, gcState := .propagate, cycle := heap.cycle + 1 } with ht
  have hsame : Same heap t := by
    refine ⟨hwf, rfl, fun b _ => ?_, fun b hb => ?_, rfl, rfl, rfl, rfl, rfl⟩
    · simp [numberOf, ht, hget]
    · obtain ⟨box, hbox⟩ := h.wf.exists_box hb
      simp [headerOf, Pool.headerAt, ht, hheap, hb, hbox, GcHeader.isFinalized]
  refine ⟨h.toCore.same hsame (Nat.le_succ _) fun b _ hg => .inl ?_, fun _ => h.idle (.inl hp), fun _ n hn => ?_,
    fun hsweep => ?_⟩
  · simpa [hasGc, hasGcMeta, metatableOf, ht, hget] using hg
  · exact absurd (h.cycle_le n _ hn) (Nat.not_succ_le_self _)
  · cases hsweep

/-! ### The atomic step -/

theorem separable_separate (h : heap.userdatas.Wf) (ha : a ∈ heap.objects) (hb : b ≠ a) :
    (heap.separate a).separable b = heap.separable b := by
  rw [separable, separable, headerOf_separate h ha, if_neg hb, hasGc_separate]

theorem filter_separate {us : List ℕ} (h : heap.userdatas.Wf) (ha : a ∈ heap.objects) (hn : a ∉ us) :
    us.filter (heap.separate a).separable = us.filter heap.separable :=
  List.filter_congr fun _ hb => separable_separate h ha (ne_of_mem_of_not_mem hb hn)

/-- The second state is the first one after the separation of the separable objects of a list. -/
structure Separated (s : GcHeap) (us : List ℕ) (t : GcHeap) : Prop where
  eq : t = { s with userdatas := t.userdatas, separatedIn := t.separatedIn }
  wf : t.userdatas.Wf
  white : t.userdatas.currentWhite = s.userdatas.currentWhite
  objects : t.objects = s.objects
  number : t.numberOf = s.numberOf
  hasGc : t.hasGc = s.hasGc
  header : ∀ b, t.headerOf b =
    if b ∈ us ∧ s.separable b then (s.headerOf b).makeUndead.setFinalized else s.headerOf b
  separatedIn : ∀ n, t.separatedIn n =
    if n ∈ (us.filter s.separable).map s.numberOf then some s.cycle else s.separatedIn n

theorem Separated.nil (W : heap.userdatas.Wf) : Separated heap [] heap :=
  ⟨rfl, W, rfl, rfl, rfl, rfl, by simp, by simp⟩

theorem Separated.cons {us : List ℕ} (W : heap.userdatas.Wf) (ha : a ∈ heap.objects) (hn : a ∉ us)
    (hs : heap.separable a) (h : Separated (heap.separate a) us t) : Separated heap (a :: us) t := by
  have hfilter := filter_separate W ha hn
  refine ⟨?_, h.wf, h.white, h.objects, ?_, ?_, fun b => ?_, fun n => ?_⟩
  · rw [h.eq]
    rfl
  · rw [h.number, numberOf_separate]
  · rw [h.hasGc, hasGc_separate]
  · rw [h.header, headerOf_separate W ha]
    by_cases hb : b = a
    · simp [hb, hn, hs]
    · simp [hb, separable_separate W ha hb]
  · rw [h.separatedIn, hfilter, numberOf_separate, List.filter_cons_of_pos hs, List.map_cons]
    have hself : (heap.separate a).separatedIn n =
        if n = heap.numberOf a then some heap.cycle else heap.separatedIn n := Function.update_apply _ _ _ _
    rw [hself]
    have hcycle : (heap.separate a).cycle = heap.cycle := rfl
    rw [hcycle]
    by_cases hna : n = heap.numberOf a <;>
      by_cases hnus : n ∈ (us.filter heap.separable).map heap.numberOf <;> simp [hna, hnus]

theorem Separated.skip {us : List ℕ} (hs : ¬ heap.separable a) (h : Separated heap us t) :
    Separated heap (a :: us) t := by
  refine ⟨h.eq, h.wf, h.white, h.objects, h.number, h.hasGc, fun b => ?_, fun n => ?_⟩
  · rw [h.header]
    by_cases hb : b = a <;> simp [hb, hs]
  · rw [h.separatedIn, List.filter_cons_of_neg hs]

/-- The loop separates the separable objects and lists them in order. -/
theorem separateLoop_separated {us : List ℕ} (W : heap.userdatas.Wf) (hus : us ⊆ heap.objects)
    (hnd : us.Nodup) (out : List ℕ) : Separated heap us (separateLoop us heap out).1 ∧
      (separateLoop us heap out).2 = out ++ us.filter heap.separable := by
  induction us generalizing heap out with
  | nil => exact ⟨.nil W, by simp [separateLoop]⟩
  | cons a us ih =>
    obtain ⟨hn, hnd⟩ := List.nodup_cons.mp hnd
    obtain ⟨ha, hus⟩ := List.cons_subset.mp hus
    rw [separateLoop]
    cases hs : heap.separable a with
    | true =>
      have W' : (heap.separate a).userdatas.Wf := W.modifyHeader a fun h => h.makeUndead.setFinalized
      obtain ⟨hsep, hout⟩ := ih W' hus hnd (out ++ [a])
      refine ⟨.cons W ha hn hs hsep, ?_⟩
      rw [if_pos rfl, hout, filter_separate W ha hn, List.filter_cons_of_pos hs]
      simp
    | false =>
      obtain ⟨hsep, hout⟩ := ih W hus hnd out
      refine ⟨.skip (by simp [hs]) hsep, ?_⟩
      rw [if_neg (by simp), hout, List.filter_cons_of_neg (by simp [hs])]

/-- The separation in creation order keeps the invariant, the separated objects waiting from now on. -/
theorem Core.separateLoop {us pending : List ℕ} (W : heap.userdatas.Wf) (hus : us ⊆ heap.objects)
    (hnd : us.Nodup) (out : List ℕ) (h : Core { heap with mmudata := pending ++ out })
    (hord : ((us.filter heap.separable).map heap.numberOf).Pairwise (· < ·))
    (hcycle : ∀ n, heap.separatedIn n = some heap.cycle → n ∉ heap.done.map Prod.fst ∧
      ∀ a ∈ us, heap.separable a → n < heap.numberOf a) :
    Core { (separateLoop us heap out).1 with mmudata := pending ++ (GcHeap.separateLoop us heap out).2 } := by
  induction us generalizing heap out with
  | nil => exact h
  | cons a us ih =>
    obtain ⟨hn, hnd⟩ := List.nodup_cons.mp hnd
    obtain ⟨ha, hus⟩ := List.cons_subset.mp hus
    rw [GcHeap.separateLoop]
    cases hs : heap.separable a with
    | true =>
      rw [if_pos rfl]
      rw [List.filter_cons_of_pos hs, List.map_cons, List.pairwise_cons] at hord
      have hfin : (heap.headerOf a).isFinalized = false := by
        simp only [separable, Bool.and_eq_true, Bool.not_eq_true'] at hs
        exact hs.1.2
      have hone := h.separateOne ha hfin fun n hn => ⟨(hcycle n hn).1, (hcycle n hn).2 a (by simp) hs⟩
      have W' : (heap.separate a).userdatas.Wf := W.modifyHeader a fun h => h.makeUndead.setFinalized
      refine ih W' hus hnd (out ++ [a]) ?_ ?_ ?_
      · rw [← List.append_assoc]
        exact hone
      · rw [filter_separate W ha hn, numberOf_separate]
        exact hord.2
      · intro n hsep
        change Function.update heap.separatedIn (heap.numberOf a) (some heap.cycle) n = some heap.cycle at hsep
        rw [numberOf_separate]
        by_cases hna : n = heap.numberOf a
        · refine ⟨fun hd => h.not_logged ha hfin (hna ▸ List.mem_append_left _ hd), fun b hb hsb => ?_⟩
          rw [separable_separate W ha (ne_of_mem_of_not_mem hb hn)] at hsb
          exact hna ▸ hord.1 _ (List.mem_map_of_mem (List.mem_filter.mpr ⟨hb, hsb⟩))
        · rw [Function.update_of_ne hna] at hsep
          refine ⟨(hcycle n hsep).1, fun b hb hsb => ?_⟩
          rw [separable_separate W ha (ne_of_mem_of_not_mem hb hn)] at hsb
          exact (hcycle n hsep).2 b (List.mem_cons_of_mem a hb) hsb
    | false =>
      rw [if_neg (by simp)]
      rw [List.filter_cons_of_neg (by simp [hs])] at hord
      exact ih W hus hnd out h hord fun n hn =>
        ⟨(hcycle n hn).1, fun b hb => (hcycle n hn).2 b (List.mem_cons_of_mem a hb)⟩

theorem separateFinalizable_separated (W : heap.userdatas.Wf) :
    Separated heap heap.objects heap.separateFinalizable.1 ∧ heap.separateFinalizable.2 = heap.separated := by
  obtain ⟨hsep, hout⟩ := separateLoop_separated W (List.Subset.refl heap.objects) W.objects_nodup []
  exact ⟨hsep, hout.trans (List.nil_append _)⟩

/-- The marking of what the metatables of the separated objects reach. -/
theorem Separated.late {us late : List ℕ} (h : Separated s us t) (hl : ∀ a ∈ late, a ∈ s.objects) (out : List ℕ) :
    Marked t (if out = [] then t else t.markAll late) := by
  split
  · exact .refl h.wf
  · exact (Marked.refl h.wf).markAll (h.objects ▸ hl)

/-- What an atomic step does: the separated objects of the marked heap wait, and the sweep begins. -/
structure Atomic (s m t : GcHeap) : Prop where
  marked : Marked s m
  state : t.gcState = .sweep ∧ t.gcSweepPool = 0 ∧ t.cycle = s.cycle
  mmudata : t.mmudata = s.mmudata ++ m.separated
  objects : t.objects = s.objects
  number : t.numberOf = s.numberOf
  hasGc : t.hasGc = s.hasGc
  separated : ∀ a ∈ m.separated, t.alive a ∧ (t.headerOf a).isFinalized
  others : ∀ a ∈ s.objects, a ∉ m.separated → (m.alive a → t.alive a) ∧
    (t.headerOf a).isFinalized = (m.headerOf a).isFinalized
  separatedIn : ∀ n, t.separatedIn n =
    if n ∈ m.separated.map s.numberOf then some s.cycle else s.separatedIn n

theorem atomicStep_atomic {marks late : List ℕ} (h : Core heap) (hm : ∀ a ∈ marks, a ∈ heap.objects)
    (hl : ∀ a ∈ late, a ∈ heap.objects) : Atomic heap (heap.markAll marks) (heap.atomicStep marks late) := by
  have hmark := (Marked.refl h.wf).markAll hm
  have hcore := hmark.core h
  set m := heap.markAll marks with hmdef
  obtain ⟨hsep, hout⟩ := separateFinalizable_separated hcore.wf
  set r := m.separateFinalizable with hr
  have hlate := hsep.late (by simpa only [hmark.objects] using hl) r.2
  set v := (if r.2 = [] then r.1 else r.1.markAll late) with hv
  have ht : heap.atomicStep marks late =
      { v with mmudata := v.mmudata ++ r.2, gcState := .sweep, gcSweepPool := 0, gcSweepPos := 0 } := rfl
  have hmmu : v.mmudata = heap.mmudata := by rw [hlate.eq, hsep.eq, hmark.eq]
  have hcycle : v.cycle = heap.cycle := by rw [hlate.eq, hsep.eq, hmark.eq]
  have hheader (a : ℕ) : (v.headerOf a).isFinalized = (r.1.headerOf a).isFinalized := hlate.finalized a
  rw [ht]
  refine ⟨hmark, ⟨rfl, rfl, hcycle⟩, ?_, ?_, ?_, ?_, fun a ha => ?_, fun a ha hns => ?_, fun n => ?_⟩
  · rw [hmmu, hout]
  · exact hlate.objects.trans (hsep.objects.trans hmark.objects)
  · exact hlate.number.trans (hsep.number.trans hmark.number)
  · exact hlate.hasGc.trans (hsep.hasGc.trans hmark.hasGc)
  · have hhead : r.1.headerOf a = (m.headerOf a).makeUndead.setFinalized := by
      rw [hsep.header, if_pos (List.mem_filter.mp ha)]
    refine ⟨hlate.alive (s := r.1) ?_, ?_⟩
    · rw [alive, hhead]
      exact GcHeader.alive_separated _ _
    · refine (hheader a).trans ?_
      rw [hhead, GcHeader.isFinalized_setFinalized]
  · have hhead : r.1.headerOf a = m.headerOf a := by
      rw [hsep.header, if_neg fun h => hns (List.mem_filter.mpr h)]
    refine ⟨fun hal => hlate.alive (s := r.1) ?_, (hheader a).trans (by rw [hhead])⟩
    rw [alive, hhead, hsep.white]
    exact hal
  · have hv' : v.separatedIn = r.1.separatedIn := by rw [hlate.eq]
    have hs : m.separatedIn = heap.separatedIn := by rw [hmark.eq]
    have hc : m.cycle = heap.cycle := by rw [hmark.eq]
    change v.separatedIn n = _
    rw [hv', hsep.separatedIn, hmark.number, hs, hc]
    rfl

theorem Core.atomicStep {marks late : List ℕ} (h : Core heap) (hm : ∀ a ∈ marks, a ∈ heap.objects)
    (hl : ∀ a ∈ late, a ∈ heap.objects) (hfresh : ∀ n, heap.separatedIn n ≠ some heap.cycle)
    (hr : ((heap.markAll marks).separated.map (heap.markAll marks).numberOf).Pairwise (· < ·)) :
    Core (heap.atomicStep marks late) := by
  have hmark := (Marked.refl h.wf).markAll hm
  have hcore := hmark.core h
  set m := heap.markAll marks with hmdef
  have hsep := (separateFinalizable_separated hcore.wf).1
  have hloop : Core { m.separateFinalizable.1 with mmudata := m.mmudata ++ m.separateFinalizable.2 } := by
    refine Core.separateLoop hcore.wf (List.Subset.refl _) hcore.wf.objects_nodup [] ?_ hr fun n hn => ?_
    · rw [List.append_nil]
      exact hcore
    · refine absurd ?_ (hfresh n)
      rw [hmark.same.separatedIn, hmark.phase.2.2.2] at hn
      exact hn
  have hlate := hsep.late (by simpa only [hmark.objects] using hl) m.separateFinalizable.2
  have hmmu : (heap.atomicStep marks late).mmudata = m.mmudata ++ m.separateFinalizable.2 := by
    change (ite _ _ _ : GcHeap).mmudata ++ _ = _
    rw [hlate.same.mmudata, hsep.eq]
  refine hloop.same ⟨hlate.wf, hlate.objects, fun a _ => congrFun hlate.number a,
    fun a _ => hlate.finalized a, hmmu, hlate.same.created, hlate.same.separatedIn, hlate.same.done,
    hlate.same.freed⟩ hlate.phase.2.2.2.symm.le fun a _ hg => .inl ?_
  exact (congrFun hlate.hasGc a).symm.trans hg

theorem Inv.atomicStep {marks late : List ℕ} (h : Inv heap) (hat : heap.gcState = .atomic)
    (hm : ∀ a ∈ marks, a ∈ heap.objects) (hl : ∀ a ∈ late, a ∈ heap.objects)
    (hr : ((heap.markAll marks).separated.map (heap.markAll marks).numberOf).Pairwise (· < ·)) :
    Inv (heap.atomicStep marks late) := by
  have ha := atomicStep_atomic h.toCore hm hl
  have hmark := ha.marked
  have hmmu : heap.mmudata = [] := h.idle (.inr (.inr hat))
  refine ⟨h.toCore.atomicStep hm hl (h.fresh (.inr hat)) hr, ?_, ?_, fun _ a hun => ?_⟩
  · rw [Marking, ha.state.1]
    simp
  · rw [Marking, ha.state.1]
    simp
  · have hobj : a ∈ heap.objects := by
      rw [← ha.objects]
      exact mem_objects_of_unswept hun
    rw [Sheltered, ha.mmudata, hmmu, List.nil_append, ha.hasGc]
    by_cases hs : a ∈ (heap.markAll marks).separated
    · exact ⟨fun _ => (ha.separated a hs).1, fun _ => .inr (ha.separated a hs).2⟩
    · refine ⟨fun h => absurd h hs, fun hg => ?_⟩
      obtain ⟨halive, hfin⟩ := ha.others a hobj hs
      have hnot : ¬ (heap.markAll marks).separable a :=
        fun hsep => hs (List.mem_filter.mpr ⟨hmark.objects ▸ hobj, hsep⟩)
      rw [separable, hmark.hasGc, hg, Bool.and_true, Bool.and_eq_true, not_and_or] at hnot
      cases hnot with
      | inl hmk => exact .inl (halive (by simp [alive, GcHeader.alive, by simpa using hmk]))
      | inr hf => exact .inr (by rw [hfin]; simpa using hf)

/-! ### The sweep -/

/-- The heap in the middle of a sweep step. -/
def sweepAt (heap : GcHeap) (pos : ℕ) (pool : Pool GcUserData) (freed : List (ℕ × Bool)) : GcHeap :=
  { heap with userdatas := pool, freed := freed, gcSweepPos := pos }

/-- A sweep step has visited `swept` and has still to visit `rest`. -/
structure Sweeping (heap : GcHeap) (swept rest : List ℕ) (pool : Pool GcUserData) (freed : List (ℕ × Bool)) :
    Prop where
  inv : Inv (heap.sweepAt swept.length pool freed)
  white : pool.currentWhite = heap.userdatas.currentWhite
  objects : pool.objects = swept ++ rest

theorem unswept_sweepAt {swept rest : List ℕ} {pool : Pool GcUserData} (h6 : heap.gcSweepPool = 6)
    (ho : pool.objects = swept ++ rest) (freed : List (ℕ × Bool)) :
    (heap.sweepAt swept.length pool freed).unswept = rest := by
  have hobj : (heap.sweepAt swept.length pool freed).objects = swept ++ rest := ho
  have hpool : (heap.sweepAt swept.length pool freed).gcSweepPool = 6 := h6
  rw [unswept, hobj, hpool, if_neg (by decide), if_pos rfl]
  exact List.drop_left

theorem Sweeping.keep {swept rest : List ℕ} {pool : Pool GcUserData} {freed : List (ℕ × Bool)}
    (h : Sweeping heap swept (a :: rest) pool freed) (hs : heap.gcState = .sweep) (h6 : heap.gcSweepPool = 6) :
    Sweeping heap (swept ++ [a]) rest (pool.modifyHeader a GcHeader.survive) freed := by
  have hobj : (pool.modifyHeader a GcHeader.survive).objects = (swept ++ [a]) ++ rest := by
    simp [Pool.modifyHeader, h.objects]
  refine ⟨?_, h.white, hobj⟩
  have ha : a ∈ (heap.sweepAt swept.length pool freed).objects := by
    change a ∈ pool.objects
    simp [h.objects]
  set t := heap.sweepAt (swept ++ [a]).length (pool.modifyHeader a GcHeader.survive) freed with ht
  have hnum : t.numberOf = (heap.sweepAt swept.length pool freed).numberOf :=
    numberOf_modifyHeader (heap.sweepAt swept.length pool freed) a GcHeader.survive
  have hgc : t.hasGc = (heap.sweepAt swept.length pool freed).hasGc :=
    hasGc_modifyHeader (heap.sweepAt swept.length pool freed) a GcHeader.survive
  have hhead (b) : t.headerOf b = if b = a then ((heap.sweepAt swept.length pool freed).headerOf a).survive
      else (heap.sweepAt swept.length pool freed).headerOf b := headerOf_modifyHeader h.inv.wf ha GcHeader.survive b
  refine ⟨h.inv.toCore.same ⟨h.inv.wf.modifyHeader a _, rfl, fun b _ => congrFun hnum b, fun b _ => ?_, rfl, rfl,
    rfl, rfl, rfl⟩ (Nat.le_refl _) fun b _ hg => .inl (hgc ▸ hg), h.inv.idle, h.inv.fresh, fun _ b hb => ?_⟩
  · rw [hhead]
    split
    · next hb => rw [GcHeader.isFinalized_survive, hb]
    · rfl
  · rw [ht, unswept_sweepAt h6 hobj] at hb
    have hne : b ≠ a := by
      have hnd := h.inv.wf.objects_nodup
      change pool.objects.Nodup at hnd
      rw [h.objects] at hnd
      rintro rfl
      exact (List.nodup_cons.mp (List.nodup_append.mp hnd).2.1).1 hb
    have hold := h.inv.sheltered hs b (by rw [unswept_sweepAt h6 h.objects freed]; exact List.mem_cons_of_mem a hb)
    rw [Sheltered, alive, hhead, if_neg hne, hgc]
    exact hold

theorem Sweeping.free {swept rest rest' : List ℕ} {pool : Pool GcUserData} {freed : List (ℕ × Bool)}
    {box : GcBox GcUserData} (h : Sweeping heap swept (a :: rest) pool freed) (hs : heap.gcState = .sweep)
    (h6 : heap.gcSweepPool = 6) (hbox : pool.heap a = some box)
    (hdead : ¬ box.header.alive heap.userdatas.currentWhite) (hp : rest'.Perm rest)
    (ho : (pool.release BLOCK_SIZE swept.length a).objects = swept ++ rest') :
    Sweeping heap swept rest' (pool.release BLOCK_SIZE swept.length a)
      (freed ++ [(box.data.created, box.data.metatable.any heap.gcMeta)]) := by
  set s := heap.sweepAt swept.length pool freed with hsdef
  have hnot : ¬ s.alive a := by
    simpa [alive, headerOf, hsdef, sweepAt, Pool.headerAt, hbox, h.white] using hdead
  have hun : s.unswept = a :: rest := unswept_sweepAt h6 h.objects freed
  obtain ⟨hm, hg⟩ := h.inv.sheltered hs a (by rw [hun]; exact List.mem_cons_self)
  have hcore := h.inv.toCore.releaseOne h.objects (fun hp => hnot (hm hp)) fun hgc => (hg hgc).resolve_left hnot
  have ht : heap.sweepAt swept.length (pool.release BLOCK_SIZE swept.length a)
      (freed ++ [(box.data.created, box.data.metatable.any heap.gcMeta)]) = s.releaseOne swept.length a := by
    simp [releaseOne, sweepAt, hsdef, numberOf, hasGc, hasGcMeta, metatableOf, Pool.get, hbox]
  have hwhite : (pool.release BLOCK_SIZE swept.length a).currentWhite = pool.currentWhite :=
    Pool.currentWhite_release _ _ _ _
  refine ⟨⟨?_, h.inv.idle, h.inv.fresh, fun _ b hb => ?_⟩, hwhite.trans h.white, ho⟩
  · rw [ht]
    exact hcore
  · rw [unswept_sweepAt h6 ho] at hb
    have hrest : b ∈ rest := hp.subset hb
    have hne : b ≠ a := by
      have hnd := h.inv.wf.objects_nodup
      change pool.objects.Nodup at hnd
      rw [h.objects] at hnd
      rintro rfl
      exact (List.nodup_cons.mp (List.nodup_append.mp hnd).2.1).1 hrest
    obtain ⟨-, hhead, hgc⟩ := releaseOne_old s swept.length hne
    have hold := h.inv.sheltered hs b (by rw [hun]; exact List.mem_cons_of_mem a hrest)
    rw [ht, Sheltered, alive, hhead, hgc]
    change (b ∈ s.mmudata → GcHeader.alive _ (pool.release BLOCK_SIZE swept.length a).currentWhite) ∧
      (_ → GcHeader.alive _ (pool.release BLOCK_SIZE swept.length a).currentWhite ∨ _)
    rw [hwhite]
    exact hold

theorem sweepRule (hs : heap.gcState = .sweep) (h6 : heap.gcSweepPool = 6) :
    Pool.SweepRule BLOCK_SIZE heap.userdatas.currentWhite (onFree heap.gcMeta) (Sweeping heap) where
  wf h := ⟨h.inv.wf, h.objects⟩
  keep h _ _ := h.keep hs h6
  free h hbox hdead := ⟨_, rfl, fun _ hp ho => h.free hs h6 hbox hdead hp ho⟩

/-- The sweep moves on, or ends. -/
theorem Inv.sweepTo (h : Inv heap) {k : ℕ} {st : GcState} (hst : st ≠ .propagate ∧ st ≠ .atomic)
    (hp : st = .pause → heap.mmudata = []) (hun : st = .sweep →
      ∀ a ∈ ({ heap with gcSweepPool := k, gcSweepPos := 0 } : GcHeap).unswept, heap.Sheltered a) :
    Inv { heap with gcState := st, gcSweepPool := k, gcSweepPos := 0 } := by
  refine ⟨h.toCore.phase _ _ _ _, fun hi => ?_, fun hm => ?_, hun⟩
  · cases hi with
    | inl hpause => exact hp hpause
    | inr hm => exact absurd hm (by simp [Marking, hst])
  · exact absurd hm (by simp [Marking, hst])

theorem unswept_of_lt (h : heap.gcSweepPool < 6) : heap.unswept = heap.objects := if_pos h

theorem unswept_of_gt (h : 6 < heap.gcSweepPool) : heap.unswept = [] := by
  rw [unswept, if_neg (by omega), if_neg (by omega)]

/-- The next pool, or the end of the sweep. -/
theorem Inv.nextPool (h : Inv heap) (hs : heap.gcState = .sweep)
    (hp : heap.gcSweepPool < 6 ∨ heap.gcSweepPool = 6 ∧ heap.unswept = []) :
    Inv { heap with gcState := .sweep, gcSweepPool := heap.gcSweepPool + 1, gcSweepPos := 0 } := by
  refine h.sweepTo (by simp) (by simp) fun _ a ha => ?_
  cases hp with
  | inl hlt =>
    refine h.sheltered hs a ?_
    rw [unswept_of_lt hlt]
    have hnext : a ∈ { heap with gcSweepPool := heap.gcSweepPool + 1, gcSweepPos := 0 }.objects :=
      mem_objects_of_unswept ha
    exact hnext
  | inr h6 =>
    rw [unswept_of_gt (by change 6 < heap.gcSweepPool + 1; omega)] at ha
    simp at ha

/-- A step of the sweep of the userdata pool. -/
theorem Inv.sweepUserdatas (h : Inv heap) (hs : heap.gcState = .sweep) (h6 : heap.gcSweepPool = 6) :
    ∃ pool freed pos d, heap.userdatas.sweepLimited BLOCK_SIZE heap.userdatas.currentWhite (onFree heap.gcMeta)
        GC_SWEEP_MAX heap.gcSweepPos heap.freed = .ok (pool, freed, d, pos) ∧
      Inv (heap.sweepAt pos pool freed) ∧ (d = true → (heap.sweepAt pos pool freed).unswept = []) := by
  cases Nat.lt_or_ge heap.gcSweepPos heap.objects.length with
  | inr hge =>
    refine ⟨_, _, _, _, Pool.sweepLimited_of_length_le hge _, ?_, fun _ => ?_⟩
    · exact ⟨h.toCore.phase _ _ _ _, h.idle, h.fresh, h.sheltered⟩
    · have hun : heap.unswept = heap.objects.drop heap.gcSweepPos := by
        rw [unswept, if_neg (by omega), if_pos h6]
      exact hun.trans (List.drop_eq_nil_of_le hge)
  | inl hlt =>
    have hstart : Sweeping heap (heap.objects.take heap.gcSweepPos) (heap.objects.drop heap.gcSweepPos)
        heap.userdatas heap.freed := by
      refine ⟨?_, rfl, (List.take_append_drop _ _).symm⟩
      rw [List.length_take_of_le hlt.le]
      exact h
    obtain ⟨pool, freed, kept, rest, hrun, hsweep, -⟩ := (sweepRule hs h6).advance GC_SWEEP_MAX hstart
    rw [List.length_take_of_le hlt.le] at hrun
    refine ⟨_, freed, kept.length, decide (rest = []), hrun, ?_, fun hd => ?_⟩
    · exact ⟨hsweep.inv.toCore.phase _ _ _ _, hsweep.inv.idle, hsweep.inv.fresh, hsweep.inv.sheltered⟩
    · exact (unswept_sweepAt h6 hsweep.objects freed).trans (of_decide_eq_true hd)

theorem Inv.sweepOnePool (h : Inv heap) (hs : heap.gcState = .sweep) (d : Bool) :
    ∃ r, heap.sweepOnePool d = .ok r ∧ Inv r.1 ∧ r.1.separatedIn = heap.separatedIn := by
  rw [GcHeap.sweepOnePool]
  split
  · next hlt =>
    refine ⟨_, rfl, ?_⟩
    cases d with
    | false => exact ⟨h, rfl⟩
    | true => exact ⟨hs ▸ h.nextPool hs (.inl hlt), rfl⟩
  · split
    · next h6 =>
      obtain ⟨pool, freed, pos, d, hrun, hinv, hd⟩ := h.sweepUserdatas hs h6
      rw [hrun]
      refine ⟨_, rfl, ?_⟩
      cases d with
      | false => exact ⟨hinv, rfl⟩
      | true =>
        have hnext := hinv.nextPool hs (.inr ⟨h6, hd rfl⟩)
        have h7 : (heap.sweepAt pos pool freed).gcSweepPool + 1 = 7 := congrArg Nat.succ h6
        rw [h7] at hnext
        exact ⟨hs ▸ hnext, rfl⟩
    · exact ⟨_, rfl, h, rfl⟩

/-! ### The steps -/

theorem Inv.gcOnestep {marks late : List ℕ} (h : Inv heap) (he : heap.Enabled (.gcOnestep marks late d))
    (hr : heap.Regular (.gcOnestep marks late d)) : ∃ t, heap.gcOnestep marks late d = .ok t ∧ Inv t := by
  obtain ⟨hm, hl⟩ := he
  unfold GcHeap.gcOnestep
  cases hs : heap.gcState with
  | pause => exact ⟨_, rfl, h⟩
  | propagate =>
    have hmark := h.markAll hm
    refine ⟨_, rfl, ?_⟩
    cases d with
    | false => exact hmark
    | true =>
      have hphase := ((Marked.refl h.wf).markAll hm).phase
      have hmarking : (heap.markAll marks).Marking := .inl (hphase.1.trans hs)
      exact ⟨hmark.toCore.phase _ _ _ _, fun _ => hmark.idle (.inr hmarking), fun _ => hmark.fresh hmarking, nofun⟩
  | atomic => exact ⟨_, rfl, h.atomicStep hs hm hl (hr hs)⟩
  | sweep =>
    obtain ⟨⟨t, b⟩, hrun, hinv, -⟩ := h.sweepOnePool hs d
    dsimp only
    rw [hrun]
    cases b with
    | false => exact ⟨_, rfl, hinv⟩
    | true =>
      refine ⟨_, rfl, hinv.toCore.phase _ _ _ _, fun hi => ?_, fun hm => ?_, fun hsw => ?_⟩
      · by_cases hmm : t.mmudata = []
        · exact hmm
        · simp [Marking, hmm] at hi
      · by_cases hmm : t.mmudata = [] <;> simp [Marking, hmm] at hm
      · by_cases hmm : t.mmudata = [] <;> simp [hmm] at hsw
  | finalize => exact ⟨_, rfl, h⟩

theorem Inv.runFinalizer (h : Inv heap) : Inv heap.runFinalizer := by
  rcases List.eq_nil_or_concat heap.mmudata with hm | ⟨init, o, hm⟩
  · rw [runFinalizer_nil hm]
    exact ⟨h.toCore.phase _ _ _ _, fun _ => hm, by simp [Marking], nofun⟩
  · rw [List.concat_eq_append] at hm
    have hne : heap.mmudata ≠ [] := by simp [hm]
    have ho : o ∈ heap.objects := h.pending o (by simp [hm])
    have hcore := h.toCore.runFinalizer hm
    rw [runFinalizer_concat hm] at hcore ⊢
    refine ⟨hcore, fun hi => absurd (h.idle hi) hne, h.fresh, fun hs a ha => ?_⟩
    have hold := h.sheltered hs a ha
    have hhead := headerOf_modifyHeader h.wf ho (fun h => h.makeDeadNext heap.userdatas.currentWhite) a
    have hgc := congrFun (hasGc_modifyHeader heap o fun h => h.makeDeadNext heap.userdatas.currentWhite) a
    have hnd := h.mmudata_nodup
    rw [hm, List.nodup_append] at hnd
    by_cases hao : a = o
    · refine ⟨fun hin => absurd hao (hnd.2.2 a hin o (by simp)), fun _ => .inr ?_⟩
      refine (congrArg GcHeader.isFinalized hhead).trans ?_
      rw [if_pos hao, GcHeader.isFinalized_makeDeadNext]
    · rw [if_neg hao] at hhead
      refine ⟨fun hin => ?_, fun hg => ?_⟩
      · refine (congrArg (GcHeader.alive · heap.userdatas.currentWhite) hhead).trans (hold.1 ?_)
        rw [hm]
        exact List.mem_append_left _ hin
      · cases hold.2 (hgc.symm.trans hg) with
        | inl hal => exact .inl ((congrArg (GcHeader.alive · heap.userdatas.currentWhite) hhead).trans hal)
        | inr hfin => exact .inr ((congrArg GcHeader.isFinalized hhead).trans hfin)

theorem Inv.step {act : Action} (h : Inv heap) (he : heap.Enabled act) (hr : heap.Regular act) :
    ∃ t, heap.step act = .ok t ∧ Inv t := by
  cases act with
  | alloc fresh mt => exact ⟨_, rfl, h.alloc he⟩
  | setMetatable a mt => exact ⟨_, rfl, h.setMetatable hr⟩
  | setGcField mt v => exact ⟨_, rfl, h.setGcField hr⟩
  | barrierFwd a => exact ⟨_, rfl, h.barrierFwd he⟩
  | startGcCycle roots => exact ⟨_, rfl, h.startGcCycle hr he⟩
  | gcOnestep marks late d => exact h.gcOnestep he hr
  | runFinalizer => exact ⟨_, rfl, h.runFinalizer⟩

/-- A step that the program and the collector may take. -/
def Step (s t : GcHeap) : Prop := ∃ act, s.Enabled act ∧ s.step act = .ok t

def RegularStep (s t : GcHeap) : Prop := ∃ act, s.Enabled act ∧ s.Regular act ∧ s.step act = .ok t

theorem Inv.regularStep (h : Inv s) (hst : RegularStep s t) : Inv t := by
  obtain ⟨act, he, hr, hstep⟩ := hst
  obtain ⟨u, hu, hinv⟩ := h.step he hr
  exact Except.ok.inj (hu.symm.trans hstep) ▸ hinv

theorem Inv.run (h : Inv s) (hr : ReflTransGen RegularStep s t) : Inv t := by
  induction hr with
  | refl => exact h
  | tail _ hst ih => exact ih.regularStep hst

/-! ### What waits is not lost -/

theorem gcOnestep_separatedIn {marks late : List ℕ} (h : Inv s) (he : s.Enabled (.gcOnestep marks late d))
    (hstep : s.gcOnestep marks late d = .ok t) (hn : (s.separatedIn n).isSome) : (t.separatedIn n).isSome := by
  obtain ⟨hm, hl⟩ := he
  unfold GcHeap.gcOnestep at hstep
  cases hs : s.gcState with
  | pause | finalize =>
    rw [hs] at hstep
    exact Except.ok.inj hstep ▸ hn
  | propagate =>
    rw [hs] at hstep
    have hmark := ((Marked.refl h.wf).markAll hm).same.separatedIn
    obtain rfl := Except.ok.inj hstep
    cases d <;> exact hmark ▸ hn
  | atomic =>
    rw [hs] at hstep
    obtain rfl := Except.ok.inj hstep
    rw [(atomicStep_atomic h.toCore hm hl).separatedIn]
    split
    · rfl
    · exact hn
  | sweep =>
    rw [hs] at hstep
    obtain ⟨⟨u, b⟩, hrun, -, hsep⟩ := h.sweepOnePool hs d
    dsimp only at hstep
    rw [hrun] at hstep
    cases b <;> obtain rfl := Except.ok.inj hstep <;> exact hsep ▸ hn

theorem markAll_separatedIn (heap : GcHeap) (marks : List ℕ) :
    (heap.markAll marks).separatedIn = heap.separatedIn := by
  rw [GcHeap.markAll]
  induction marks generalizing heap with
  | nil => rfl
  | cons a marks ih =>
    rw [List.foldl_cons, ih, markUserdata]
    split <;> rfl

/-- A separated userdata stays in the history. -/
theorem separatedIn_step (h : Inv s) (hst : RegularStep s t) (hn : (s.separatedIn n).isSome) :
    (t.separatedIn n).isSome := by
  obtain ⟨act, he, -, hstep⟩ := hst
  cases act with
  | alloc | setMetatable | setGcField => exact Except.ok.inj hstep ▸ hn
  | barrierFwd a =>
    obtain rfl := Except.ok.inj hstep
    unfold GcHeap.barrierFwd
    split
    · exact hn
    · exact ((Marked.refl h.wf).markUserdata he).same.separatedIn ▸ hn
  | startGcCycle roots =>
    obtain rfl := Except.ok.inj hstep
    rw [GcHeap.startGcCycle, markAll_separatedIn]
    exact hn
  | gcOnestep marks late d => exact gcOnestep_separatedIn h he hstep hn
  | runFinalizer =>
    obtain rfl := Except.ok.inj hstep
    unfold GcHeap.runFinalizer
    split <;> exact hn

theorem log_run (h : Inv s) (hr : ReflTransGen RegularStep s t) (hn : n ∈ s.log) : n ∈ t.log := by
  induction hr with
  | refl => exact hn
  | tail hrun hst ih =>
    have hinv := h.run hrun
    rw [(hinv.regularStep hst).logged]
    exact separatedIn_step hinv hst ((hinv.logged n).mp ih)

/-- Turn by turn the waiting userdata are drained. -/
theorem drain (h : Inv s) : ∃ t, ReflTransGen RegularStep s t ∧ t.waiting = [] ∧ t.log = s.log := by
  induction hk : s.mmudata.length generalizing s with
  | zero =>
    refine ⟨s, .refl, ?_, rfl⟩
    rw [waiting, List.eq_nil_of_length_eq_zero hk]
    rfl
  | succ k ih =>
    rcases List.eq_nil_or_concat s.mmudata with hm | ⟨init, o, hm⟩
    · simp [hm] at hk
    · rw [List.concat_eq_append] at hm
      have hst : RegularStep s s.runFinalizer := ⟨.runFinalizer, trivial, trivial, rfl⟩
      have hlen : s.runFinalizer.mmudata.length = k := by
        rw [runFinalizer_concat hm]
        simpa [hm] using hk
      obtain ⟨t, ht, hw, hlog⟩ := ih (h.regularStep hst) hlen
      exact ⟨t, .head hst ht, hw, hlog.trans (log_runFinalizer hm)⟩

/-! ### The protocol -/

theorem calls_sublist (heap : GcHeap) : heap.calls.Sublist heap.log :=
  ((List.filter_sublist).map Prod.fst).trans (List.sublist_append_left _ _)

/-- In every regular run a finalizer is called at most once, nothing is freed before its finalizer was called
or while it waits, an atomic step separates every unreachable userdata that has a finalizer and was not separated
before, the finalizers of one cycle are called in reverse order of creation, and the userdata that wait when
a finalizer raises an error have their turn before the collector pauses. -/
theorem finalizer_protocol (hr : ReflTransGen RegularStep GcHeap.new s) :
    s.calls.Nodup ∧
    (∀ x ∈ s.freed, (x.2 → x.1 ∈ s.calls) ∧ x.1 ∉ s.waiting) ∧
    (∀ marks late d t, s.gcState = .atomic → s.Enabled (.gcOnestep marks late d) →
      s.step (.gcOnestep marks late d) = .ok t → ∀ a ∈ s.objects,
      ((s.markAll marks).headerOf a).marked = false → s.hasGc a → s.separatedIn (s.numberOf a) = none →
      t.separatedIn (s.numberOf a) = some s.cycle ∧ s.numberOf a ∈ t.waiting) ∧
    Ordered s.separatedIn s.calls ∧
    (∀ t, ReflTransGen RegularStep s t → (∀ n ∈ s.waiting, n ∈ t.waiting ∨ n ∈ t.done.map Prod.fst) ∧
      (t.gcState = .pause → t.waiting = [])) ∧
    ∃ t, ReflTransGen RegularStep s t ∧ t.waiting = [] ∧
      t.done.map Prod.fst = s.done.map Prod.fst ++ s.waiting.reverse := by
  have h := Inv.new.run hr
  refine ⟨h.nodup.sublist (calls_sublist s), fun x hx => ⟨fun hg => ?_, fun hw => ?_⟩,
    fun marks late d t hs he hstep a ha hm hg hsep => ?_, h.ordered.sublist (calls_sublist s),
    fun t ht => ⟨fun n hn => ?_, fun hp => ?_⟩, ?_⟩
  · have hd := (h.freed x hx).2 hg
    exact List.mem_map.mpr ⟨_, List.mem_filter.mpr ⟨hd, rfl⟩, rfl⟩
  · obtain ⟨a, ha, hax⟩ := List.mem_map.mp hw
    exact (h.buried x hx).2 a (h.pending a ha) hax
  · obtain rfl : s.atomicStep marks late = t := by
      simp only [GcHeap.step, GcHeap.gcOnestep, hs] at hstep
      exact Except.ok.inj hstep
    have hat := atomicStep_atomic h.toCore he.1 he.2
    have hin : a ∈ (s.markAll marks).separated := by
      have hfin : ((s.markAll marks).headerOf a).isFinalized = false := by
        rw [hat.marked.finalized, h.finalized a ha, hsep]
        rfl
      refine List.mem_filter.mpr ⟨hat.marked.objects ▸ ha, ?_⟩
      simp [separable, hm, hfin, hat.marked.hasGc, hg]
    refine ⟨?_, ?_⟩
    · rw [hat.separatedIn, if_pos (List.mem_map_of_mem hin)]
    · rw [waiting, hat.number, hat.mmudata, List.map_append]
      exact List.mem_append_right _ (List.mem_map_of_mem hin)
  · have hlog : n ∈ t.log := log_run h ht (List.mem_append_right _ (List.mem_reverse.mpr hn))
    exact (List.mem_append.mp hlog).symm.imp_left List.mem_reverse.mp
  · rw [waiting, (h.run ht).idle (.inl hp)]
    rfl
  · obtain ⟨t, ht, hw, hlog⟩ := drain h
    refine ⟨t, ht, hw, ?_⟩
    rw [log, log, hw, List.reverse_nil, List.append_nil] at hlog
    exact hlog

/-! ### Two runs -/

/-- The state after some steps, if all of them are allowed. -/
def replay (allowed : GcHeap → Action → Bool) : GcHeap → List Action → Option GcHeap
  | heap, [] => some heap
  | heap, act :: acts =>
    if allowed heap act then
      match heap.step act with
      | .ok heap => replay allowed heap acts
      | .error _ => none
    else none

theorem replay_run {allowed : GcHeap → Action → Bool} {acts : List Action} (h : replay allowed s acts = some t) :
    ReflTransGen (fun s t => ∃ act, allowed s act ∧ s.step act = .ok t) s t := by
  induction acts generalizing s with
  | nil => exact Option.some.inj h ▸ .refl
  | cons act acts ih =>
    rw [replay] at h
    split at h
    · next hal =>
      split at h
      · next u hu => exact .head ⟨act, hal, hu⟩ (ih h)
      · cases h
    · cases h

/-- A cycle that marks some userdata, without the finalizers. -/
def wholeCycle (marks : List ℕ) : List Action :=
  .startGcCycle [] :: .gcOnestep marks [] true :: List.replicate 9 (.gcOnestep [] [] true)

/-- Two userdata with a finalizer are created and become unreachable. -/
def twoFinalizers : List Action :=
  [.setGcField 9 true, .alloc 0x2000 (some 9), .alloc 0x3000 (some 9)] ++ wholeCycle [] ++
    [.runFinalizer, .runFinalizer, .runFinalizer] ++ wholeCycle [] ++ wholeCycle []

theorem finalizer_protocol_two : ∃ s, ReflTransGen RegularStep new s ∧ s.calls = [1, 0] ∧
    s.freed = [(0, true), (1, true)] ∧ s.calls.Nodup ∧ Ordered s.separatedIn s.calls := by
  have hrun : (replay (fun s act => decide (s.Enabled act ∧ s.Regular act)) new twoFinalizers).map
      (fun s => (s.calls, s.freed)) = some ([1, 0], [(0, true), (1, true)]) := by decide
  obtain ⟨s, hs, heq⟩ := Option.map_eq_some_iff.mp hrun
  obtain ⟨hcalls, hfreed⟩ := Prod.mk.inj heq
  have hr : ReflTransGen RegularStep new s :=
    ReflTransGen.mono (fun _ _ ⟨act, ha, hst⟩ => ⟨act, (of_decide_eq_true ha).1, (of_decide_eq_true ha).2, hst⟩)
      _ _ (replay_run hs)
  have h := finalizer_protocol hr
  exact ⟨s, hr, hcalls, hfreed, h.1, h.2.2.2.1⟩

/-- The older of three userdata has no finalizer and is freed first; then the two others become unreachable. -/
def freedFirst : List Action :=
  [.setGcField 9 true, .alloc 0x2000 none, .alloc 0x3000 (some 9), .alloc 0x4000 (some 9)] ++
    wholeCycle [0x3000, 0x4000] ++ wholeCycle [] ++ [.runFinalizer, .runFinalizer]

/-- The sweep moves the newest userdata to the place of the freed one, and so the finalizers of the next cycle
run in order of creation. -/
theorem finalizers_oldest_first : ∃ s, ReflTransGen Step new s ∧ s.calls = [1, 2] ∧
    s.separatedIn 1 = some 2 ∧ s.separatedIn 2 = some 2 ∧ ¬ Ordered s.separatedIn s.calls := by
  have hrun : (replay (fun s act => decide (s.Enabled act)) new freedFirst).map
      (fun s => (s.calls, s.separatedIn 1, s.separatedIn 2)) = some ([1, 2], some 2, some 2) := by decide
  obtain ⟨s, hs, heq⟩ := Option.map_eq_some_iff.mp hrun
  obtain ⟨hcalls, hsep⟩ := Prod.mk.inj heq
  obtain ⟨h1, h2⟩ := Prod.mk.inj hsep
  refine ⟨s, ?_, hcalls, h1, h2, fun hord => ?_⟩
  · exact ReflTransGen.mono (fun _ _ ⟨act, ha, hst⟩ => ⟨act, of_decide_eq_true ha, hst⟩) _ _ (replay_run hs)
  · rw [hcalls] at hord
    have hlt := (List.pairwise_cons.mp hord).1 2 (by simp) (h1.trans h2.symm)
    omega

end LuajitRs.Gc.GcHeap
