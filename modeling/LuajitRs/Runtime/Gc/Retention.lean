import LuajitRs.Lib.Ensures
import LuajitRs.Runtime.Gc.Finalize

/-! What a collection keeps. Survivors of a sweep get the same white in every cycle, so a cycle that flips to that
white takes the survivors of the cycle before for live objects, whether it marked them or not. The pool here has no
finalizers, and every cycle runs to its end before the program goes on. -/
namespace LuajitRs.Pool
open Lib

section Retention
variable {T : Type} {size : ℕ} {pool pool' : Pool T} {old idle marks objs : List ℕ} {a : ℕ} {cw : UInt8}
  {get : ℕ → Option T}

def markAll (pool : Pool T) (marks : List ℕ) : Pool T :=
  marks.foldl (fun pool a => pool.modifyHeader a GcHeader.setMarked) pool

/-- Sweep steps until the pool is done. -/
def sweepPool (size : ℕ) (currentWhite : UInt8) : ℕ → ℕ → Pool T → Except Fault (Pool T)
  | 0, _, _ => .error .diverge
  | fuel+1, pos, pool => do
    let r ← sweepLimited size currentWhite (fun _ _ acc => .ok acc) Gc.GC_SWEEP_MAX pos pool ()
    if r.2.2.1 then pure r.1 else sweepPool size currentWhite fuel r.2.2.2 r.1

/-- A cycle that marks some objects, as far as it changes the pool: `start_gc_cycle`, the marking and the sweep. -/
def collect (size : ℕ) (marks : List ℕ) (pool : Pool T) : Except Fault (Pool T) :=
  let cw := pool.currentWhite ^^^ 1
  sweepPool size cw (pool.objects.length + 1) 0 ((pool.updateCurrentWhite cw).resetMarked.markAll marks)

/-- The states of a pool: `old` are the survivors of the last cycle, and `idle` those of them that it did not mark. -/
inductive Reached (size : ℕ) : List ℕ → List ℕ → Pool T → Prop
  | new : Reached size [] [] Pool.new
  | alloc {old idle : List ℕ} {pool : Pool T} {fresh : ℕ} (h : Reached size old idle pool)
      (hf : pool.Available fresh) (v : T) : Reached size old idle (pool.alloc size v fresh).1
  | collect {old idle marks : List ℕ} {pool pool' : Pool T} (h : Reached size old idle pool)
      (hc : pool.collect size marks = .ok pool') : Reached size pool'.objects (pool'.objects.filter (· ∉ marks)) pool'

/-- The header of an object between two cycles. -/
def restHeader (cw : UInt8) (old : List ℕ) (a : ℕ) : GcHeader :=
  ⟨false, if cw = 0 ∨ a ∈ old then BIT_WHITE0 else BIT_WHITE1⟩

/-- And in the next cycle, before it is swept. -/
def cycleHeader (cw : UInt8) (old marks : List ℕ) (a : ℕ) : GcHeader :=
  if a ∈ marks then ⟨true, BIT_BLACK⟩ else restHeader cw old a

/-- What the next cycle keeps. -/
def Survives (cw : UInt8) (old marks : List ℕ) (a : ℕ) : Prop := a ∈ marks ∨ cw ^^^ 1 = 0 ∧ a ∈ old

structure AtRest (old idle : List ℕ) (pool : Pool T) : Prop where
  wf : pool.Wf
  white : pool.currentWhite = 0 ∨ pool.currentWhite = 1
  sub : old ⊆ pool.objects
  header : ∀ a ∈ pool.objects, pool.headerAt a = some (restHeader pool.currentWhite old a)
  idle : ∀ a ∈ idle, pool.currentWhite = 0

theorem headerAt_modifyHeader (pool : Pool T) (a b : ℕ) (f : GcHeader → GcHeader) :
    (pool.modifyHeader a f).headerAt b = if b = a then (pool.headerAt b).map f else pool.headerAt b := by
  by_cases h : b = a <;> simp [headerAt, modifyHeader, h, Function.comp_def]

theorem cycleHeader_alive (hw : cw = 0 ∨ cw = 1) :
    ((cycleHeader cw old marks a).alive (cw ^^^ 1) = true ↔ Survives cw old marks a) ∧
      ((cycleHeader cw old marks a).alive (cw ^^^ 1) = true →
        (cycleHeader cw old marks a).survive = ⟨false, BIT_WHITE0⟩) := by
  obtain rfl | rfl := hw <;> by_cases hm : a ∈ marks <;> by_cases ho : a ∈ old <;>
    simp [cycleHeader, restHeader, Survives, hm, ho] <;> decide

theorem AtRest.alloc {fresh : ℕ} (h : AtRest old idle pool) (hf : pool.Available fresh) (v : T) :
    AtRest old idle (pool.alloc size v fresh).1 := by
  have hnew := nextAddr_not_mem h.wf hf
  have hwhite := currentWhite_alloc size pool v fresh
  refine ⟨h.wf.alloc hf size v, hwhite ▸ h.white, ?_, fun a ha => ?_, hwhite ▸ h.idle⟩
  · rw [objects_alloc]
    exact fun a ha => List.mem_append_left _ (h.sub ha)
  · rw [objects_alloc] at ha
    rw [hwhite, headerAt, heap_alloc]
    obtain ha | ha := List.mem_append.mp ha
    · rw [Function.update_of_ne (by rintro rfl; exact hnew ha)]
      exact h.header a ha
    · obtain rfl := List.mem_singleton.mp ha
      have hold : pool.nextAddr fresh ∉ old := fun hold => hnew (h.sub hold)
      rw [Function.update_self]
      simp [restHeader, GcHeader.new, hold]

/-- The pool in a cycle: of its objects when the cycle began some are freed. -/
structure Sweeping (cw : UInt8) (get : ℕ → Option T) (old marks objs swept rest : List ℕ) (pool : Pool T) : Prop where
  wf : pool.Wf
  white : pool.currentWhite = cw ^^^ 1
  objects : pool.objects = swept ++ rest
  sub : ∀ b ∈ swept ++ rest, b ∈ objs
  kept : ∀ b ∈ objs, Survives cw old marks b → b ∈ swept ++ rest
  data : ∀ b ∈ swept ++ rest, pool.get b = get b
  swept : ∀ b ∈ swept, Survives cw old marks b ∧ pool.headerAt b = some ⟨false, BIT_WHITE0⟩
  rest : ∀ b ∈ rest, pool.headerAt b = some (cycleHeader cw old marks b)

theorem AtRest.start (h : AtRest old idle pool) :
    Sweeping pool.currentWhite pool.get old [] pool.objects [] pool.objects
      (pool.updateCurrentWhite (pool.currentWhite ^^^ 1)).resetMarked := by
  have hget (a : ℕ) (ha : a ∈ pool.objects) :
      (pool.updateCurrentWhite (pool.currentWhite ^^^ 1)).resetMarked.headerAt a =
        (pool.headerAt a).map fun x => { x with marked := false } := by
    simp [headerAt, resetMarked, updateCurrentWhite, ha, Function.comp_def]
  refine ⟨{ h.wf with mapped := fun a ha => ?_ }, rfl, rfl, fun _ hb => hb, fun _ hb _ => hb, fun a ha => ?_,
    nofun, fun a ha => ?_⟩
  · have := hget a ha
    rw [h.header a ha] at this
    exact Option.isSome_map.symm.trans (Option.isSome_iff_exists.mpr ⟨_, this⟩)
  · have ha : a ∈ pool.objects := ha
    simp [Pool.get, resetMarked, updateCurrentWhite, ha, Function.comp_def]
  · rw [hget a ha, h.header a ha]
    rfl

theorem Sweeping.markAll (h : Sweeping cw get old marks objs [] objs pool) (more : List ℕ) :
    Sweeping cw get old (marks ++ more) objs [] objs (pool.markAll more) := by
  induction more generalizing marks pool with
  | nil => simpa [Pool.markAll] using h
  | cons b more ih =>
    rw [Pool.markAll, List.foldl_cons, List.append_cons]
    refine ih ⟨h.wf.modifyHeader b _, h.white, h.objects, h.sub, fun _ hb _ => hb, by simpa using h.data,
      nofun, fun a ha => ?_⟩
    rw [headerAt_modifyHeader, h.rest a ha]
    obtain rfl | hne := eq_or_ne a b
    · by_cases hm : a ∈ marks <;> by_cases hw : cw = 0 ∨ a ∈ old <;> simp [cycleHeader, hm, hw, restHeader] <;> decide
    · simp [cycleHeader, hne]

theorem sweepRule (hw : cw = 0 ∨ cw = 1) : SweepRule size (cw ^^^ 1) (fun _ _ (acc : Unit) => .ok acc)
    fun swept rest (pool : Pool T) _ => Sweeping cw get old marks objs swept rest pool where
  wf h := ⟨h.wf, h.objects⟩
  keep {swept a rest pool acc box} h hbox halive := by
    have hheader := h.rest a (List.mem_cons_self ..)
    have hhead : box.header = cycleHeader cw old marks a := by simpa [headerAt, hbox] using hheader
    rw [hhead] at halive
    have hnd := h.wf.objects_nodup
    rw [h.objects, List.nodup_append] at hnd
    refine ⟨h.wf.modifyHeader a _, h.white, by simpa [Pool.modifyHeader] using h.objects, by simpa using h.sub,
      by simpa using h.kept, by simpa using h.data, fun b hb => ?_, fun b hb => ?_⟩
    · rw [headerAt_modifyHeader]
      obtain hb | hb := List.mem_append.mp hb
      · rw [if_neg (hnd.2.2 b hb a (List.mem_cons_self ..))]
        exact h.swept b hb
      · obtain rfl := List.mem_singleton.mp hb
        rw [if_pos rfl, hheader, Option.map_some, (cycleHeader_alive hw).2 halive]
        exact ⟨(cycleHeader_alive hw).1.mp halive, rfl⟩
    · have hne : b ≠ a := fun heq => (List.nodup_cons.mp hnd.2.1).1 (heq ▸ hb)
      rw [headerAt_modifyHeader, if_neg hne]
      exact h.rest b (List.mem_cons_of_mem a hb)
  free {swept a rest pool acc box} h hbox hdead := by
    refine ⟨acc, rfl, fun rest' hp ho => ?_⟩
    have hheader := h.rest a (List.mem_cons_self ..)
    have hhead : box.header = cycleHeader cw old marks a := by simpa [headerAt, hbox] using hheader
    rw [hhead, (cycleHeader_alive hw).1] at hdead
    have hnd := h.wf.objects_nodup
    rw [h.objects, List.nodup_append] at hnd
    have hother (b : ℕ) (hne : b ≠ a) : (pool.release size swept.length a).headerAt b = pool.headerAt b := by
      simp [headerAt, heap_release, hne]
    have hin {b : ℕ} (hb : b ∈ swept ++ rest') : b ∈ swept ++ a :: rest ∧ b ≠ a := by
      obtain hb | hb := List.mem_append.mp hb
      · exact ⟨List.mem_append_left _ hb, hnd.2.2 b hb a (List.mem_cons_self ..)⟩
      · have hb := hp.subset hb
        exact ⟨List.mem_append_right _ (List.mem_cons_of_mem a hb),
          fun heq => (List.nodup_cons.mp hnd.2.1).1 (heq ▸ hb)⟩
    refine ⟨h.wf.release h.objects size, (currentWhite_release ..).trans h.white, ho, fun b hb => h.sub b (hin hb).1,
      fun b hb hs => ?_, fun b hb => (get_release_of_ne (hin hb).2).trans (h.data b (hin hb).1), fun b hb => ?_,
      fun b hb => ?_⟩
    · obtain hb | hb := List.mem_append.mp (h.kept b hb hs)
      · exact List.mem_append_left _ hb
      · obtain rfl | hb := List.mem_cons.mp hb
        · exact absurd hs hdead
        · exact List.mem_append_right _ (hp.symm.subset hb)
    · rw [hother b (hin (List.mem_append_left _ hb)).2]
      exact h.swept b hb
    · rw [hother b (hin (List.mem_append_right _ hb)).2]
      exact h.rest b (List.mem_cons_of_mem a (hp.subset hb))

theorem Sweeping.live {swept rest : List ℕ} (h : Sweeping cw get old marks objs swept rest pool) (n : ℕ) :
    Sweeping cw get old marks objs swept rest { pool with live := n } :=
  ⟨{ h.wf with }, h.white, h.objects, h.sub, h.kept, h.data, h.swept, h.rest⟩

theorem Sweeping.run {swept rest : List ℕ} {fuel : ℕ} (h : Sweeping cw get old marks objs swept rest pool)
    (hw : cw = 0 ∨ cw = 1) (size : ℕ) (hf : rest.length < fuel) :
    ∃ pool' swept', sweepPool size (cw ^^^ 1) fuel swept.length pool = .ok pool' ∧
      Sweeping cw get old marks objs swept' [] pool' := by
  induction fuel generalizing swept rest pool with
  | zero => omega
  | succ fuel ih =>
    obtain ⟨q, acc, swept', rest', hrun, hq, hlen⟩ := (sweepRule hw).advance Gc.GC_SWEEP_MAX h
    rw [sweepPool, hrun, ok_bind]
    cases rest' with
    | nil => exact ⟨_, swept', rfl, hq.live _⟩
    | cons b rest' =>
      rw [List.length_cons, Gc.GC_SWEEP_MAX] at hlen
      obtain ⟨q', swept'', hrun', hq'⟩ := ih (hq.live q.objects.length) (by rw [List.length_cons]; omega)
      exact ⟨q', swept'', by simpa using hrun', hq'⟩

theorem AtRest.collect (h : AtRest old idle pool) (size : ℕ) (marks : List ℕ) : ∃ pool',
    pool.collect size marks = .ok pool' ∧ AtRest pool'.objects (pool'.objects.filter (· ∉ marks)) pool' ∧
    pool'.currentWhite = pool.currentWhite ^^^ 1 ∧ (∀ a ∈ pool'.objects, pool'.get a = pool.get a) ∧
    ∀ a, a ∈ pool'.objects ↔ a ∈ pool.objects ∧ Survives pool.currentWhite old marks a := by
  obtain ⟨pool', swept, hrun, hs⟩ := (h.start.markAll marks).run h.white size (Nat.lt_succ_self _)
  have hobj : pool'.objects = swept := by rw [hs.objects, List.append_nil]
  refine ⟨pool', hrun, ⟨hs.wf, ?_, fun _ ha => ha, fun a ha => ?_, fun a ha => ?_⟩, hs.white,
    fun a ha => hs.data a (by rwa [List.append_nil, ← hobj]), fun a => ⟨fun ha => ?_, fun ha => ?_⟩⟩
  · rw [hs.white]
    obtain hw | hw := h.white <;> rw [hw] <;> decide
  · rw [(hs.swept a (hobj ▸ ha)).2]
    simp [restHeader, ha]
  · obtain ⟨ha, hnot⟩ := List.mem_filter.mp ha
    rw [hs.white]
    exact ((hs.swept a (hobj ▸ ha)).1.resolve_left (by simpa using hnot)).1
  · exact ⟨hs.sub a (by rw [List.append_nil, ← hobj]; exact ha), (hs.swept a (hobj ▸ ha)).1⟩
  · have := hs.kept a ha.1 ha.2
    rwa [List.append_nil, ← hobj] at this

theorem Reached.atRest (h : Reached size old idle pool) : AtRest old idle pool := by
  induction h with
  | new => exact ⟨.new, .inl rfl, List.nil_subset _, nofun, nofun⟩
  | alloc _ hf v ih => exact ih.alloc hf v
  | collect _ hc ih =>
    obtain ⟨q, hq, hrest, -⟩ := ih.collect size _
    obtain rfl := Except.ok.inj (hc.symm.trans hq)
    exact hrest

/-- A cycle frees just the objects that it does not mark, except that every other cycle also keeps the survivors of the
cycle before, and leaves the others as they are. What two cycles in a row leave unmarked is freed. -/
theorem collect_exact (h : Reached size old idle pool) (marks : List ℕ) : ∃ pool', pool.collect size marks = .ok pool' ∧
    pool'.currentWhite = pool.currentWhite ^^^ 1 ∧ (∀ a ∈ pool'.objects, pool'.get a = pool.get a) ∧
    (∀ a, a ∈ pool'.objects ↔ a ∈ pool.objects ∧ (a ∈ marks ∨ pool.currentWhite = 1 ∧ a ∈ old)) ∧
    ∀ a ∈ idle, a ∉ marks → a ∉ pool'.objects := by
  have hrest := h.atRest
  obtain ⟨pool', hrun, -, hwhite, hdata, hmem⟩ := hrest.collect size marks
  have hkeep (a : ℕ) : Survives pool.currentWhite old marks a ↔ a ∈ marks ∨ pool.currentWhite = 1 ∧ a ∈ old := by
    obtain hw | hw := hrest.white <;> simp [Survives, hw]
  refine ⟨pool', hrun, hwhite, hdata, fun a => by rw [hmem, hkeep], fun a ha hnot hin => ?_⟩
  obtain hmark | ⟨hone, -⟩ := (hkeep a).mp ((hmem a).mp hin).2
  · exact hnot hmark
  · exact absurd (hone.symm.trans (hrest.idle a ha)) (by decide)

/-- An object that only the first of two cycles marks outlives the second. -/
theorem collect_exact_idle : ∃ pool₁ pool₂ : Pool Unit,
    (Pool.new.alloc 64 () 0x2000).1.collect 64 [0x2000] = .ok pool₁ ∧ pool₁.collect 64 [] = .ok pool₂ ∧
      0x2000 ∈ pool₂.objects := by
  have h : Reached 64 [] [] (Pool.new.alloc 64 () 0x2000).1 :=
    .alloc .new (fun _ => ⟨⟨by decide, by decide⟩, nofun⟩) ()
  obtain ⟨pool₁, h₁, hw, -, hmem, -⟩ := collect_exact h [0x2000]
  obtain ⟨pool₂, h₂, -, -, hmem', -⟩ := collect_exact (h.collect h₁) []
  have hin := (hmem 0x2000).mpr ⟨by decide, .inl (by decide)⟩
  exact ⟨pool₁, pool₂, h₁, h₂, (hmem' _).mpr ⟨hin, .inr ⟨hw, hin⟩⟩⟩

end Retention
end LuajitRs.Pool
