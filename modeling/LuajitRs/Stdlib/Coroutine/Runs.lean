import LuajitRs.Stdlib.Coroutine.Invariant
import Mathlib.Logic.Relation

/-! The status machine over whole runs, and the coroutine that cannot be gone on with. -/
namespace LuajitRs.Coroutine.State
open Relation (ReflTransGen)

variable {s s' s₁ s₂ : State}

/-- A step in which yields are captured and functions are called above their callers. -/
def RegularStep (s s' : State) : Prop := ∃ a, s.regular a = true ∧ s.step a = some s'

abbrev Run : State → State → Prop := ReflTransGen RegularStep

theorem Inv.run (h : s.Inv) (hr : Run s s') : s'.Inv := by
  induction hr with
  | refl => exact h
  | tail _ hstep ih =>
    obtain ⟨a, hreg, hstep⟩ := hstep
    exact ih.of_change (ih.change hreg hstep)

/-- The statuses as the claim of the scheduler: one thread runs, the others on the host stack wait for it in a
chain that ends at the main thread, and a suspended one can be gone on with. -/
structure Law (s : State) : Prop where
  running : ∃ t < s.n, s.curL = some t ∧ ∀ u < s.n, (s.threads u).status = .running ↔ u = t
  head : s.segs.head?.map Segment.l = s.curL
  last : s.segs.getLast?.map Segment.l = some 0
  waits : s.segs.IsChain fun seg next => seg.resumer = next.l ∧ seg.savedCur = some next.l
  normal : ∀ t < s.n, (s.threads t).status = .normal ↔ t ∈ s.segs.tail.map Segment.l
  nodup : (s.segs.map Segment.l).Nodup
  suspended : ∀ t < s.n, (s.threads t).status = .suspended → (s.threads t).SuspendOk

theorem links_waits {segs : List Segment} (h : Links segs) :
    segs.getLast?.map Segment.l = some 0 ∧
      segs.IsChain fun seg next => seg.resumer = next.l ∧ seg.savedCur = some next.l := by
  fun_induction Links segs with
  | case1 => exact h.elim
  | case2 m => exact ⟨congrArg some h, .singleton m⟩
  | case3 a b rest ih =>
    obtain ⟨hresumer, hsaved, hlinks⟩ := h
    obtain ⟨hlast, hchain⟩ := ih hlinks
    exact ⟨by simpa [List.getLast?_cons_cons] using hlast, hchain.cons_cons ⟨hresumer, hsaved⟩⟩

/-- The three places of a thread, with its status in each. -/
theorem Inv.places (h : s.Inv) {seg : Segment} {rest : List Segment} (hs : s.segs = seg :: rest) {t : Tid}
    (ht : t < s.n) :
    t = seg.l ∧ (s.threads t).status = .running ∨
      t ∈ rest.map Segment.l ∧ t ≠ seg.l ∧ (s.threads t).status = .normal ∨
      t ≠ seg.l ∧ t ∉ rest.map Segment.l ∧
        ((s.threads t).status = .suspended ∧ (s.threads t).SuspendOk ∨ (s.threads t).status = .dead) := by
  have hrest := h.top_ne hs
  have hrun := h.running
  have hnormal := h.normal
  have hoff := h.off t ht
  rw [hs] at hrun hnormal hoff
  by_cases he : t = seg.l
  · exact .inl ⟨he, he ▸ hrun seg rfl⟩
  by_cases hmem : t ∈ rest.map Segment.l
  · obtain ⟨seg', hseg, rfl⟩ := List.mem_map.mp hmem
    exact .inr (.inl ⟨hmem, he, hnormal seg' hseg⟩)
  · exact .inr (.inr ⟨he, hmem, (hoff fun hn => (List.mem_cons.mp hn).elim he hmem).2⟩)

theorem Inv.law (h : s.Inv) : s.Law := by
  obtain ⟨hlast, hwaits⟩ := links_waits h.links
  have hcur := h.cur
  have hlt := h.lt
  cases hs : s.segs with
  | nil =>
    have hlinks := h.links
    simp [hs, Links] at hlinks
  | cons seg rest =>
    have hplaces := fun t ht => h.places hs (t := t) ht
    refine ⟨⟨seg.l, hlt seg (hs ▸ List.mem_cons_self), by rw [hcur, hs]; rfl, fun u hu => ?_⟩, hcur.symm, hlast,
      hwaits, fun t ht => ?_, h.nodup, fun t ht hsus => ?_⟩
    · obtain ⟨he, hst⟩ | ⟨-, hne, hst⟩ | ⟨hne, -, hst⟩ := hplaces u hu
      · exact iff_of_true hst he
      · exact iff_of_false (by simp [hst]) hne
      · exact iff_of_false (fun hr => by simp [hr] at hst) hne
    · rw [hs, List.tail_cons]
      obtain ⟨he, hst⟩ | ⟨hmem, -, hst⟩ | ⟨-, hn, hst⟩ := hplaces t ht
      · refine iff_of_false (by simp [hst]) fun hmem => ?_
        obtain ⟨seg', hseg, he'⟩ := List.mem_map.mp hmem
        exact h.top_ne hs seg' hseg (he'.trans he)
      · exact iff_of_true hst hmem
      · exact iff_of_false (fun hr => by simp [hr] at hst) hn
    · obtain ⟨-, hst⟩ | ⟨-, -, hst⟩ | ⟨-, -, hst⟩ := hplaces t ht
      · simp [hst] at hsus
      · simp [hst] at hsus
      · cases hst with
        | inl hok => exact hok.2
        | inr hdead => simp [hdead] at hsus

/-! ### Dead threads -/

theorem Inv.dead_of_change (h : s.Inv) (hc : Change s s') {t : Tid} (ht : t < s.n)
    (hdead : (s.threads t).status = .dead) : t < s'.n ∧ (s'.threads t).status = .dead := by
  have hn : t ∉ s.segs.map Segment.l := h.not_on (by simp [hdead]) (by simp [hdead])
  cases hc with
  | same he => exact he ▸ ⟨ht, hdead⟩
  | top hs hstep =>
    simp only [hs, List.map_cons, List.mem_cons, not_or] at hn
    rw [hstep.n, hstep.other t hn.1]
    exact ⟨ht, hdead⟩
  | returns hr =>
    simp only [hr.old, List.map_cons, List.mem_cons, not_or] at hn
    rw [hr.n, hr.other t hn.1 hn.2.1]
    exact ⟨ht, hdead⟩
  | @resumes seg rest co th frames hs hco hsus hr =>
    simp only [hs, List.map_cons, List.mem_cons, not_or] at hn
    have hne : t ≠ co := by
      intro he
      rw [← he, hdead] at hsus
      cases hsus
    rw [hr.n, hr.other t hne hn.1]
    exact ⟨ht, hdead⟩
  | create f he =>
    subst he
    exact ⟨Nat.lt_succ_of_lt ht, (congrArg LuaState.status (Function.update_of_ne (Nat.ne_of_lt ht) _ _)).trans hdead⟩

theorem Inv.dead_of_run (h : s.Inv) (hr : Run s s') {t : Tid} (ht : t < s.n)
    (hdead : (s.threads t).status = .dead) :
    (s'.threads t).status = .dead ∧ t ∉ s'.segs.map Segment.l := by
  have hkeep : t < s'.n ∧ (s'.threads t).status = .dead := by
    induction hr with
    | refl => exact ⟨ht, hdead⟩
    | tail hrun hstep ih =>
      obtain ⟨a, hreg, hstep⟩ := hstep
      exact (h.run hrun).dead_of_change ((h.run hrun).change hreg hstep) ih.1 ih.2
  exact ⟨hkeep.2, (h.run hr).not_on (by simp [hkeep.2]) (by simp [hkeep.2])⟩

/-! ### A whole resume -/

/-- A step inside a resume that was begun with `k` segments on the host stack. -/
def Inside (k : ℕ) (s s' : State) : Prop := RegularStep s s' ∧ k < s'.segs.length

/-- From the call of a resume to its return, when the host stack is as high as before for the first time. -/
def Resumed (s s' : State) : Prop :=
  ∃ s₁ s₂, Inside s.segs.length s s₁ ∧ ReflTransGen (Inside s.segs.length) s₁ s₂ ∧ RegularStep s₂ s' ∧
    s'.segs.length = s.segs.length

/-- A step works on the upper part of the host stack. -/
theorem Change.above (hc : Change s s') {top base : List Segment} (hs : s.segs = top ++ base) (htop : top ≠ []) :
    ∃ top', s'.segs = top' ++ base := by
  cases top with
  | nil => exact absurd rfl htop
  | cons seg top =>
    cases hc with
    | same he => exact ⟨_, by rw [he, hs]⟩
    | @top seg₀ rest l fs hs₀ hstep =>
      obtain ⟨rfl, rfl⟩ := List.cons.inj (hs₀.symm.trans hs)
      exact ⟨{ seg₀ with frames := fs } :: top, hstep.segs⟩
    | @returns seg₀ next rest co hr =>
      obtain ⟨-, hrest⟩ := List.cons.inj (hr.old.symm.trans hs)
      exact ⟨top, by rw [hr.segs]; exact hrest⟩
    | @resumes seg₀ rest co th frames hs₀ hco hsus hr =>
      obtain ⟨rfl, rfl⟩ := List.cons.inj (hs₀.symm.trans hs)
      exact ⟨_ :: seg₀ :: top, hr.segs⟩
    | create f he => exact ⟨seg :: top, by rw [he]; exact hs⟩

/-- Only a resume makes the host stack higher. -/
theorem Change.push (hc : Change s s') (hlt : s.segs.length < s'.segs.length) :
    ∃ seg, s'.segs = seg :: s.segs := by
  cases hc with
  | same he => exact absurd hlt (by simp [he])
  | top hs hstep => exact absurd hlt (by simp [hs, hstep.segs])
  | returns hr => exact absurd hlt (by simp [hr.old, hr.segs])
  | resumes hs hco hsus hr => exact ⟨_, by rw [hr.segs, hs]⟩
  | create f he => exact absurd hlt (by simp [he, State.newThread])

theorem Change.n_le (hc : Change s s') : s.n ≤ s'.n := by
  cases hc with
  | same he => exact he ▸ Nat.le_refl _
  | top hs hstep => exact Nat.le_of_eq hstep.n.symm
  | returns hr => exact Nat.le_of_eq hr.n.symm
  | resumes hs hco hsus hr => exact Nat.le_of_eq hr.n.symm
  | create f he => exact he ▸ Nat.le_succ _

/-- Once a resume has returned, the host stack below it is as it was when it was called. -/
theorem Inv.resumed (h : s.Inv) (hr : Resumed s s') : s'.segs = s.segs ∧ s'.Inv ∧ s.n ≤ s'.n := by
  obtain ⟨s₁, s₂, ⟨⟨a, hreg, hstep⟩, hlt⟩, hin, ⟨b, hreg', hstep'⟩, hlen⟩ := hr
  have hc := h.change hreg hstep
  obtain ⟨seg, hpush⟩ := hc.push hlt
  have hkeep : s₂.Inv ∧ (∃ top, top ≠ [] ∧ s₂.segs = top ++ s.segs) ∧ s.n ≤ s₂.n := by
    clear hstep' hreg'
    induction hin with
    | refl => exact ⟨h.of_change hc, ⟨[seg], nofun, hpush⟩, hc.n_le⟩
    | tail _ hin ih =>
      obtain ⟨⟨a, hreg, hstep⟩, hlt⟩ := hin
      obtain ⟨hinv, ⟨top, htop, hsegs⟩, hn⟩ := ih
      have hc := hinv.change hreg hstep
      obtain ⟨top', hsegs'⟩ := hc.above hsegs htop
      refine ⟨hinv.of_change hc, ⟨top', fun he => ?_, hsegs'⟩, Nat.le_trans hn hc.n_le⟩
      simp [hsegs', he] at hlt
  obtain ⟨hinv, ⟨top, htop, hsegs⟩, hn⟩ := hkeep
  have hc := hinv.change hreg' hstep'
  obtain ⟨top', hsegs'⟩ := hc.above hsegs htop
  have hnil : top' = [] := by
    rw [hsegs', List.length_append] at hlen
    exact List.length_eq_zero_iff.mp (by omega)
  exact ⟨by rw [hsegs', hnil, List.nil_append], hinv.of_change hc, Nat.le_trans hn hc.n_le⟩

/-- The depth of a thread is that of its layers on the host stack. -/
theorem Inv.cDepth_eq (h : s.Inv) (h' : s'.Inv) (hsegs : s'.segs = s.segs) {t : Tid} (ht : t < s.n) (ht' : t < s'.n) :
    (s'.threads t).cDepth = (s.threads t).cDepth := by
  by_cases hmem : t ∈ s.segs.map Segment.l
  · obtain ⟨seg, hseg, rfl⟩ := List.mem_map.mp hmem
    rw [(h.on seg hseg).1, (h'.on seg (hsegs ▸ hseg)).1]
  · rw [(h.off t ht hmem).1, (h'.off t ht' (hsegs ▸ hmem)).1]

/-- In every run whose yields are captured the statuses follow the host stack: what is dead stays dead, a
refused resume changes nothing, and a resume leaves the depth of every thread as it found it. -/
theorem status_machine (hr : Run init s) :
    s.Law ∧
    (∀ s', Run s s' → ∀ t < s.n, (s.threads t).status = .dead →
      (s'.threads t).status = .dead ∧ t ∉ s'.segs.map Segment.l) ∧
    (∀ seg ∈ s.segs.head?, ∀ co argsAt nargs, s.accepts seg.l co = false →
      s.doResume co argsAt nargs = some s) ∧
    (∀ s', Resumed s s' → s'.segs = s.segs ∧ ∀ t < s.n, (s'.threads t).cDepth = (s.threads t).cDepth) := by
  have h := init_inv.run hr
  refine ⟨h.law, fun s' hr' t ht hdead => h.dead_of_run hr' ht hdead, fun seg hseg co argsAt nargs hacc => ?_,
    fun s' hres => ?_⟩
  · cases hs : s.segs with
    | nil => simp [hs] at hseg
    | cons top rest =>
      rw [hs] at hseg
      obtain rfl := Option.some.inj hseg
      simp [State.doResume, hs, hacc]
  · obtain ⟨hsegs, hinv, hn⟩ := h.resumed hres
    exact ⟨hsegs, fun t ht => h.cDepth_eq hinv hsegs ht (Nat.lt_of_lt_of_le ht hn)⟩

/-! ### Two threads -/

/-- A run of the given actions, as far as they are regular. -/
def regularRun (s : State) (acts : List Action) : Option State :=
  acts.foldlM (fun s a => if s.regular a then s.step a else none) s

theorem run_of_regularRun {acts : List Action} (h : s.regularRun acts = some s') : Run s s' := by
  induction acts generalizing s with
  | nil =>
    obtain rfl := Option.some.inj h
    exact .refl
  | cons a acts ih =>
    obtain ⟨s₁, hstep, h⟩ := Option.bind_eq_some_iff.mp h
    dsimp only at hstep
    split at hstep
    next hreg => exact .head ⟨a, hreg, hstep⟩ (ih h)
    next => cases hstep

/-- A chunk with nothing but its header. -/
def chunk : Proto := ⟨[0], Nat.one_pos, false, 0, 8⟩

/-- The main chunk creates a thread for `f` and resumes it. -/
def createAndResume (f : GcFunc) : List Action :=
  [.write 0 (some (.lua chunk)), .execute true 0 0, .write 2 (some (.c .create)), .callC .create 2 1 (.call 1),
    .create f, .ret, .write 2 (some (.c .resume)), .callC .resume 2 1 (.call 1), .resume 1 5 0]

def yieldInLua : List Action :=
  createAndResume (.lua chunk) ++ [.write 2 (some (.c .yield)), .callC .yield 2 1 (.call 1), .yield 0]

/-- A Lua function that yields is suspended behind its call. -/
theorem status_machine_lua : ∃ s, init.regularRun yieldInLua = some s ∧
    (s.threads 1).suspend = .call ⟨1, .lua chunk, 2, 2, 1, false, 2⟩ ∧ s.Law := by
  have hsus : (init.regularRun yieldInLua).map (fun s => (s.threads 1).suspend) =
      some (.call ⟨1, .lua chunk, 2, 2, 1, false, 2⟩) := rfl
  obtain ⟨s, hs, hsus⟩ := Option.map_eq_some_iff.mp hsus
  exact ⟨s, hs, hsus, (status_machine (run_of_regularRun hs)).1⟩

def run (s : State) (acts : List Action) : Option State := acts.foldlM (fun s a => s.step a) s

/-- A thread that begins with `coroutine.yield` is suspended with a record that names this function as the
frame to go on in, and resuming it again fails in the host. -/
theorem yield_entry_unusable : ∃ s, init.run (createAndResume (.c .yield) ++ [.yield 0]) = some s ∧
    (s.threads 1).status = .suspended ∧ ¬(s.threads 1).SuspendOk ∧ s.accepts 0 1 = true ∧
    s.doResume 1 5 0 = none := by
  refine ⟨_, rfl, rfl, fun h => ?_, rfl, rfl⟩
  obtain ⟨pt, hcl, -⟩ := h
  cases hcl

end LuajitRs.Coroutine.State
