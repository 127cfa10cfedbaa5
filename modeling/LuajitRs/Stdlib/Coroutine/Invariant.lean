import LuajitRs.Stdlib.Coroutine
import Mathlib.Data.List.Nodup

/-! What holds between the statuses of the threads, the host stack and the recorded resume points, and that
every step keeps it when yields are captured by the outermost Lua frames. -/
namespace LuajitRs.Coroutine

/-! ### Slots -/

section Slots
variable {s from_ : Stack} {dst src n lo hi i : ℕ}

theorem copySlots_below (h : i < dst) : copySlots s dst from_ src n i = s i := by
  induction n with
  | zero => rfl
  | succ n ih => rw [copySlots, Function.update_of_ne (by omega), ih]

theorem moveSlots_below (h : i < dst) : moveSlots s dst src n i = s i := by
  induction n with
  | zero => rfl
  | succ n ih => rw [moveSlots, Function.update_of_ne (by omega), ih]

theorem clearSlots_below (h : i < lo) : clearSlots s lo hi i = s i := if_neg (by omega)

theorem update_below {v : Option GcFunc} (h : i < dst) : Function.update s dst v i = s i :=
  Function.update_of_ne (by omega) _ _

/-- A new Lua frame has its function below its base and leaves the slots up to its function alone. -/
theorem enterLua_spec (nargs : ℕ) {pt : Proto} {funcSlot : ℕ} (h : s funcSlot = some (.lua pt)) :
    funcSlot + 2 ≤ (enterLua s pt funcSlot nargs).2 ∧
      (enterLua s pt funcSlot nargs).1 ((enterLua s pt funcSlot nargs).2 - 2) = some (.lua pt) ∧
      ∀ i ≤ funcSlot, (enterLua s pt funcSlot nargs).1 i = s i := by
  unfold enterLua
  split
  · refine ⟨by simp only; omega, ?_, fun i hi => ?_⟩
    · dsimp only
      rw [update_below (by omega), update_below (by omega), clearSlots_below (by omega),
        copySlots_below (by omega), Function.update_self]
    · dsimp only
      rw [update_below (by omega), update_below (by omega), clearSlots_below (by omega),
        copySlots_below (by omega), update_below (by omega), update_below (by omega)]
  · refine ⟨Nat.le_refl _, ?_, fun i hi => ?_⟩
    · dsimp only
      rw [clearSlots_below (by omega), update_below (by omega), Nat.add_sub_cancel, h]
    · dsimp only
      rw [clearSlots_below (by omega), update_below (by omega)]

end Slots

/-! ### Frames -/

/-- How many layers count for the depth. -/
def depth : List Frame → ℕ
  | [] => 0
  | .execute counted :: fs => counted.toNat + depth fs
  | _ :: fs => depth fs

/-- Every layer works above the ones below it, and a Lua frame has its function below its base. -/
def FramesWf (s : Stack) : List Frame → Prop
  | [] => True
  | .execute _ :: fs => FramesWf s fs
  | .interp entry pt base pc :: fs =>
    State.floor fs ≤ entry ∧ entry + 2 ≤ base ∧ s (base - 2) = some (.lua pt) ∧ pc ≤ pt.bc.length ∧ FramesWf s fs
  | .cfun _ slot via :: fs =>
    State.floor fs ≤ slot ∧ (via ≠ .host → ∃ entry pt base pc rest, fs = .interp entry pt base pc :: rest ∧ 1 ≤ pc) ∧
      FramesWf s fs

section Frames
variable {s s' : Stack} {fs top rest : List Frame}

theorem FramesWf.congr (h : FramesWf s fs) (hs : ∀ i < State.floor fs, s' i = s i) : FramesWf s' fs := by
  induction fs with
  | nil => trivial
  | cons f fs ih =>
    cases f with
    | execute counted => exact ih h hs
    | interp entry pt base pc =>
      obtain ⟨hfloor, hbase, hcl, hpc, hfs⟩ := h
      have hs' : ∀ i < base, s' i = s i := hs
      exact ⟨hfloor, hbase, by rw [hs' _ (by omega), hcl], hpc, ih hfs fun i hi => hs' i (by omega)⟩
    | cfun f slot via =>
      obtain ⟨hfloor, hvia, hfs⟩ := h
      have hs' : ∀ i < slot, s' i = s i := hs
      exact ⟨hfloor, hvia, ih hfs fun i hi => hs' i (by omega)⟩

/-- The floors rise towards the top. -/
theorem FramesWf.floor_le (h : FramesWf s (top ++ rest)) : State.floor rest ≤ State.floor (top ++ rest) := by
  induction top with
  | nil => exact Nat.le_refl _
  | cons f top ih =>
    cases f with
    | execute counted => exact ih h
    | interp entry pt base pc =>
      obtain ⟨hfloor, hbase, -, -, hfs⟩ := h
      have hentry : State.floor (top ++ rest) ≤ entry := hfloor
      have := ih hfs
      show _ ≤ base
      omega
    | cfun f slot via => exact Nat.le_trans (ih h.2.2) h.1

theorem FramesWf.of_append (h : FramesWf s (top ++ rest)) : FramesWf s rest := by
  induction top with
  | nil => exact h
  | cons f top ih =>
    cases f with
    | execute counted => exact ih h
    | interp entry pt base pc => exact ih h.2.2.2.2
    | cfun f slot via => exact ih h.2.2

theorem FramesWf.popExecute {counted : Bool} (h : FramesWf s fs) (hp : State.popExecute fs = some (counted, rest)) :
    FramesWf s rest ∧ depth fs = counted.toNat + depth rest := by
  induction fs with
  | nil => cases hp
  | cons f fs ih =>
    cases f with
    | execute c =>
      cases hp
      exact ⟨h, rfl⟩
    | interp entry pt base pc => exact ih h.2.2.2.2 hp
    | cfun f slot via => exact ih h.2.2 hp

end Frames

/-- The layers that a call of the function at `funcSlot` begins with. -/
theorem executeInner_spec (nargs : ℕ) {s : Stack} {funcSlot : ℕ} {fs : List Frame} (hfs : FramesWf s fs)
    (hslot : State.floor fs ≤ funcSlot) :
    FramesWf (executeInner s funcSlot nargs).1 ((executeInner s funcSlot nargs).2 ++ fs) ∧
      depth ((executeInner s funcSlot nargs).2 ++ fs) = depth fs ∧
      ∀ i ≤ funcSlot, (executeInner s funcSlot nargs).1 i = s i := by
  unfold executeInner
  split
  · exact ⟨hfs, rfl, fun _ _ => rfl⟩
  · exact ⟨⟨hslot, fun h => absurd rfl h, hfs⟩, rfl, fun _ _ => rfl⟩
  next pt h =>
    obtain ⟨hbase, hcl, hbelow⟩ := enterLua_spec nargs h
    refine ⟨⟨hslot, hbase, hcl, pt.header, hfs.congr fun i hi => ?_⟩, rfl, hbelow⟩
    apply hbelow
    omega

/-! ### Unwinding -/

section Unwind
variable {l l' : LuaState} {top rest : List Frame}

/-- What a layer may change while a yield passes it: the record, and the slots of its own. -/
structure Records (l l' : LuaState) (floor : ℕ) : Prop where
  below : ∀ i < floor, l'.stack i = l.stack i
  cDepth : l'.cDepth = l.cDepth

theorem Records.refl (l : LuaState) (floor : ℕ) : Records l l floor := ⟨fun _ _ => rfl, rfl⟩

theorem Records.trans {l₁ l₂ l₃ : LuaState} {m n : ℕ} (h : Records l₁ l₂ m) (h' : Records l₂ l₃ n) (hmn : n ≤ m) :
    Records l₁ l₃ n :=
  ⟨fun i hi => (h'.below i hi).trans (h.below i (by omega)), h'.cDepth.trans h.cDepth⟩

theorem suspendCall_records (l : LuaState) (pt : Proto) (base pc slot : ℕ) (want : ℤ) :
    Records l (l.suspendCall pt base pc slot want) slot := ⟨fun _ hi => moveSlots_below hi, rfl⟩

theorem suspendReturn_records (l : LuaState) (base slot : ℕ) :
    Records l (l.suspendReturn base slot) slot := ⟨fun _ hi => moveSlots_below hi, rfl⟩

theorem callCYield_records {slot : ℕ} {want : ℤ} (h : l.callCYield slot want = some l') : Records l l' slot := by
  unfold LuaState.callCYield at h
  dsimp only at h
  split at h
  · cases h
  · cases h
    exact ⟨fun _ hi => moveSlots_below hi, rfl⟩

theorem cfunYield_records {f : CFunction} {slot : ℕ} (h : l.cfunYield f slot = some l') : Records l l' slot := by
  unfold LuaState.cfunYield at h
  split at h
  · unfold LuaState.pcallYield at h
    split at h
    · cases h
    · cases h
      exact ⟨fun _ _ => rfl, rfl⟩
  · cases h
    exact .refl _ _

theorem viaYield_records {slot : ℕ} {via : Via} (h : l.viaYield slot via rest = some l') : Records l l' slot := by
  unfold LuaState.viaYield at h
  split at h
  · exact callCYield_records h
  · cases h
    exact suspendCall_records ..
  · obtain ⟨l₁, h₁, rfl⟩ := Option.map_eq_some_iff.mp h
    exact (callCYield_records h₁).trans (suspendReturn_records ..) (Nat.le_refl _)
  · cases h
    exact .refl _ _
  · cases h

/-- Unwinding the upper layers leaves the slots of the lower ones alone. -/
theorem unwindYield_append (hwf : FramesWf l.stack (top ++ rest))
    (h : LuaState.unwindYield (top ++ rest) l = some l') :
    ∃ l₁, LuaState.unwindYield rest l₁ = some l' ∧ (∀ i < State.floor rest, l₁.stack i = l.stack i) ∧
      l₁.cDepth = l.cDepth - depth top := by
  induction top generalizing l with
  | nil => exact ⟨l, h, fun _ _ => rfl, rfl⟩
  | cons f top ih =>
    cases f with
    | execute counted =>
      obtain ⟨l₁, hl, hs, hd⟩ := ih (l := { l with cDepth := l.cDepth - counted.toNat }) hwf h
      exact ⟨l₁, hl, hs, by rw [hd, depth, ← Nat.sub_sub]⟩
    | interp entry pt base pc => exact ih hwf.2.2.2.2 h
    | cfun f slot via =>
      obtain ⟨hfloor, -, hfs⟩ := hwf
      obtain ⟨l₁, h₁, h⟩ := Option.bind_eq_some_iff.mp h
      obtain ⟨l₂, h₂, h₁⟩ := Option.bind_eq_some_iff.mp h₁
      have hr := (cfunYield_records h₂).trans (viaYield_records h₁) (Nat.le_refl _)
      obtain ⟨l₃, hl, hs, hd⟩ := ih (hfs.congr fun i hi => hr.below i (Nat.lt_of_lt_of_le hi hfloor)) h
      have hmono : State.floor rest ≤ slot := Nat.le_trans hfs.floor_le hfloor
      exact ⟨l₃, hl, fun i hi => (hs i hi).trans (hr.below i (by omega)), by rw [hd, hr.cDepth]; rfl⟩

theorem unwindYield_depth (hwf : FramesWf l.stack top) (h : LuaState.unwindYield top l = some l') :
    l'.cDepth = l.cDepth - depth top := by
  rw [← List.append_nil top] at hwf h
  obtain ⟨l₁, hl, -, hd⟩ := unwindYield_append hwf h
  obtain rfl := Option.some.inj hl
  exact hd

/-- What a resume needs: an entry function that was not run before, or a Lua frame whose function is still in
its slot, with a position in its code. -/
def LuaState.SuspendOk (l : LuaState) : Prop :=
  match l.suspend with
  | .start => l.started = false ∧ ∃ f, l.stack 0 = some f
  | .call p => ∃ pt, p.cl = .lua pt ∧ 2 ≤ p.base ∧ p.base ≤ p.slot ∧ l.stack (p.base - 2) = some (.lua pt) ∧
      1 ≤ p.pc ∧ p.pc ≤ pt.bc.length
  | .ret base slot => ∃ pt, 2 ≤ base ∧ base ≤ slot ∧ l.stack (base - 2) = some (.lua pt)

/-- A call by the code of a Lua frame. -/
def Via.inLua : Via → Bool
  | .call _ | .tail => true
  | .metamethod | .host => false

/-- The entry function of the thread is a Lua function, and the C function below which the thread yields was
called by its code. -/
def captures (fs : List Frame) : Bool :=
  match fs.reverse with
  | .execute _ :: .interp .. :: .cfun _ _ via :: _ => via.inLua
  | _ => false

theorem captures_append (h : captures rest = true) : ∃ top f slot via entry pt base pc counted,
    rest = top ++ [.cfun f slot via, .interp entry pt base pc, .execute counted] ∧ via.inLua = true := by
  unfold captures at h
  split at h
  next counted entry pt base pc f slot via top hrev =>
    refine ⟨top.reverse, f, slot, via, entry, pt, base, pc, counted, ?_, h⟩
    rw [← List.reverse_reverse rest, hrev]
    simp
  next => cases h

/-- A captured yield leaves a record to go on with. -/
theorem unwindYield_captured (hwf : FramesWf l.stack rest) (hc : captures rest = true)
    (h : LuaState.unwindYield rest l = some l') : l'.SuspendOk := by
  obtain ⟨top, f, slot, via, entry, pt, base, pc, counted, rfl, hvia⟩ := captures_append hc
  obtain ⟨l₁, h, hbelow, -⟩ := unwindYield_append hwf h
  have hrest : FramesWf l₁.stack [.cfun f slot via, .interp entry pt base pc, .execute counted] := by
    exact hwf.of_append.congr hbelow
  obtain ⟨l₂, h₂, h⟩ := Option.bind_eq_some_iff.mp h
  obtain ⟨l₃, h₃, h₂⟩ := Option.bind_eq_some_iff.mp h₂
  obtain ⟨hslot, hpc, -, hbase, hcl, hle, -⟩ := hrest
  have hslot : base ≤ slot := hslot
  have htwo : 2 ≤ base := by omega
  have hl₃ : l₃.stack (base - 2) = some (.lua pt) := ((cfunYield_records h₃).below _ (by omega)).trans hcl
  have hl₂ : l₂.stack (base - 2) = some (.lua pt) := ((viaYield_records h₂).below _ (by omega)).trans hl₃
  obtain rfl := Option.some.inj h
  cases via with
  | call want =>
    obtain rfl := Option.some.inj h₂
    obtain ⟨_, _, _, _, _, hfs, hpc⟩ := hpc nofun
    cases hfs
    exact ⟨pt, rfl, htwo, hslot, hl₂, hpc, hle⟩
  | tail =>
    obtain ⟨l₄, -, rfl⟩ := Option.map_eq_some_iff.mp h₂
    exact ⟨pt, htwo, hslot, hl₂⟩
  | metamethod => cases hvia
  | host => cases hvia

end Unwind

/-! ### The invariant -/

/-- Each running segment was begun by the one below it, down to the main thread's. -/
def Links : List Segment → Prop
  | [] => False
  | [m] => m.l = 0
  | a :: b :: rest => a.resumer = b.l ∧ a.savedCur = some b.l ∧ Links (b :: rest)

/-- The statuses, the depths and the records agree with the host stack. -/
structure State.Inv (s : State) : Prop where
  links : Links s.segs
  nodup : (s.segs.map Segment.l).Nodup
  lt : ∀ seg ∈ s.segs, seg.l < s.n
  cur : s.curL = s.segs.head?.map Segment.l
  running : ∀ seg ∈ s.segs.head?, (s.threads seg.l).status = .running
  normal : ∀ seg ∈ s.segs.tail, (s.threads seg.l).status = .normal
  off : ∀ t < s.n, t ∉ s.segs.map Segment.l →
    (s.threads t).cDepth = 0 ∧
      ((s.threads t).status = .suspended ∧ (s.threads t).SuspendOk ∨ (s.threads t).status = .dead)
  on : ∀ seg ∈ s.segs, (s.threads seg.l).cDepth = depth seg.frames ∧ FramesWf (s.threads seg.l).stack seg.frames

namespace State
variable {s s' : State} {seg : Segment} {rest : List Segment}

theorem init_inv : init.Inv where
  links := rfl
  nodup := List.nodup_singleton _
  lt seg h := by
    obtain rfl := List.mem_singleton.mp h
    exact Nat.one_pos
  cur := rfl
  running _ _ := rfl
  normal _ h := nomatch h
  off t ht hn := by
    obtain rfl : t = 0 := Nat.lt_one_iff.mp ht
    exact absurd List.mem_cons_self hn
  on seg h := by
    obtain rfl := List.mem_singleton.mp h
    exact ⟨rfl, Nat.zero_le _, fun h => absurd rfl h, trivial⟩

theorem links_setFrames {fs : List Frame} (h : Links (seg :: rest)) : Links ({ seg with frames := fs } :: rest) := by
  cases rest with
  | nil => exact h
  | cons next rest => exact h

/-- Only the running thread and its layers change. -/
structure TopStep (s s' : State) (seg : Segment) (rest : List Segment) (l : LuaState) (fs : List Frame) : Prop where
  segs : s'.segs = { seg with frames := fs } :: rest
  n : s'.n = s.n
  curL : s'.curL = s.curL
  self : s'.threads seg.l = l
  other : ∀ t, t ≠ seg.l → s'.threads t = s.threads t

theorem topStep (hs : s.segs = seg :: rest) (l : LuaState) (fs : List Frame) :
    TopStep s ((s.set seg.l l).setFrames fs) seg rest l fs := by
  have hset : (s.set seg.l l).setFrames fs =
      { s with threads := Function.update s.threads seg.l l, segs := { seg with frames := fs } :: rest } := by
    simp [setFrames, set, hs]
  rw [hset]
  exact ⟨rfl, rfl, rfl, Function.update_self .., fun t h => Function.update_of_ne h _ _⟩

theorem topStep_frames (hs : s.segs = seg :: rest) (fs : List Frame) :
    TopStep s (s.setFrames fs) seg rest (s.threads seg.l) fs := by
  have hset : s.setFrames fs = { s with segs := { seg with frames := fs } :: rest } := by
    simp [setFrames, hs]
  rw [hset]
  exact ⟨rfl, rfl, rfl, rfl, fun _ _ => rfl⟩

theorem topStep_set (hs : s.segs = seg :: rest) (l : LuaState) :
    TopStep s (s.set seg.l l) seg rest l seg.frames :=
  ⟨hs, rfl, rfl, Function.update_self .., fun _ h => Function.update_of_ne h _ _⟩

theorem Inv.top_ne (h : s.Inv) (hs : s.segs = seg :: rest) : ∀ seg' ∈ rest, seg'.l ≠ seg.l := by
  have hnodup := h.nodup
  rw [hs] at hnodup
  intro seg' hmem he
  exact (List.nodup_cons.mp hnodup).1 (he ▸ List.mem_map_of_mem hmem)

theorem Inv.topStep (h : s.Inv) (hs : s.segs = seg :: rest) {l : LuaState} {fs : List Frame}
    (hstep : TopStep s s' seg rest l fs) (hstatus : l.status = (s.threads seg.l).status)
    (hdepth : l.cDepth = depth fs) (hwf : FramesWf l.stack fs) : s'.Inv := by
  have hrest := h.top_ne hs
  obtain ⟨hlinks, hnodup, hlt, hcur, hrun, hnormal, hoff, hon⟩ := h
  obtain ⟨hs', hn', hc', hself, hother⟩ := hstep
  rw [hs] at hlinks hnodup hlt hcur hrun hnormal hoff hon
  refine ⟨?_, ?_, ?_, ?_, ?_, ?_, ?_, ?_⟩
  · rw [hs']
    exact links_setFrames hlinks
  · rw [hs']
    exact hnodup
  · intro seg' hmem
    rw [hs'] at hmem
    rw [hn']
    cases List.mem_cons.mp hmem with
    | inl he => exact he ▸ hlt seg List.mem_cons_self
    | inr hmem => exact hlt seg' (List.mem_cons_of_mem _ hmem)
  · rw [hc', hs', hcur]
    rfl
  · intro seg' hmem
    rw [hs'] at hmem
    obtain rfl := Option.some.inj hmem
    rw [hself, hstatus]
    exact hrun seg rfl
  · intro seg' hmem
    rw [hs'] at hmem
    rw [hother _ (hrest seg' hmem)]
    exact hnormal seg' hmem
  · intro t ht hn
    rw [hs'] at hn
    rw [hn'] at ht
    rw [hother t fun he => hn (he ▸ List.mem_cons_self)]
    exact hoff t ht hn
  · intro seg' hmem
    rw [hs'] at hmem
    cases List.mem_cons.mp hmem with
    | inl he =>
      rw [he, hself]
      exact ⟨hdepth, hwf⟩
    | inr hmem =>
      rw [hother _ (hrest seg' hmem)]
      exact hon seg' (List.mem_cons_of_mem _ hmem)

/-- A resume returns: the thread `seg` stops as `co`, and the one below it runs again. -/
structure Returns (s s' : State) (seg next : Segment) (rest : List Segment) (co : LuaState) : Prop where
  old : s.segs = seg :: next :: rest
  segs : s'.segs = next :: rest
  n : s'.n = s.n
  curL : s'.curL = some next.l
  self : s'.threads seg.l = co
  below : s'.threads next.l = { s.threads next.l with status := .running }
  other : ∀ t, t ≠ seg.l → t ≠ next.l → s'.threads t = s.threads t

theorem Inv.finish_returns (h : s.Inv) (hs : s.segs = seg :: rest) {l : LuaState} {status : CoStatus}
    (hf : s.finish l status = some s') : ∃ next rest', Returns s s' seg next rest' { l with status } := by
  have hrest := h.top_ne hs
  have hlinks := h.links
  unfold State.finish at hf
  rw [hs] at hlinks hf
  cases rest with
  | nil => cases hf
  | cons next rest =>
    obtain rfl := Option.some.inj hf
    have hne := hrest next List.mem_cons_self
    obtain ⟨hresumer, hsaved, -⟩ := hlinks
    refine ⟨next, rest, hs, rfl, rfl, hsaved, ?_, ?_, fun t ht ht' => ?_⟩
    · simp only [hresumer, set, Function.update_of_ne hne.symm, Function.update_self]
    · simp only [hresumer, set, Function.update_of_ne hne, Function.update_self]
    · simp only [hresumer, set, Function.update_of_ne ht, Function.update_of_ne ht']

theorem Inv.returns (h : s.Inv) {next : Segment} {co : LuaState} (hr : Returns s s' seg next rest co)
    (hdepth : co.cDepth = 0) (hco : co.status = .suspended ∧ co.SuspendOk ∨ co.status = .dead) : s'.Inv := by
  obtain ⟨hs, hs', hn', hc', hself, hbelow, hother⟩ := hr
  have hrest := h.top_ne hs
  obtain ⟨hlinks, hnodup, hlt, hcur, hrun, hnormal, hoff, hon⟩ := h
  rw [hs] at hlinks hnodup hlt hcur hrun hnormal hoff hon
  have hnodup' := (List.nodup_cons.mp hnodup).2
  have hnext : ∀ seg' ∈ rest, seg'.l ≠ next.l := by
    intro seg' hmem he
    exact (List.nodup_cons.mp hnodup').1 (he ▸ List.mem_map_of_mem hmem)
  refine ⟨?_, ?_, ?_, ?_, ?_, ?_, ?_, ?_⟩
  · rw [hs']
    exact hlinks.2.2
  · rw [hs']
    exact hnodup'
  · intro seg' hmem
    rw [hs'] at hmem
    rw [hn']
    exact hlt seg' (List.mem_cons_of_mem _ hmem)
  · rw [hs', hc']
    rfl
  · intro seg' hmem
    rw [hs'] at hmem
    obtain rfl := Option.some.inj hmem
    rw [hbelow]
  · intro seg' hmem
    rw [hs'] at hmem
    rw [hother _ (hrest seg' (List.mem_cons_of_mem _ hmem)) (hnext seg' hmem)]
    exact hnormal seg' (List.mem_cons_of_mem _ hmem)
  · intro t ht hn
    rw [hs'] at hn
    rw [hn'] at ht
    by_cases he : t = seg.l
    · rw [he, hself]
      exact ⟨hdepth, hco⟩
    · have hne : t ≠ next.l := fun he => hn (he ▸ List.mem_cons_self)
      rw [hother t he hne]
      exact hoff t ht fun hmem => (List.mem_cons.mp hmem).elim he hn
  · intro seg' hmem
    rw [hs'] at hmem
    have hold := hon seg' (List.mem_cons_of_mem _ hmem)
    cases List.mem_cons.mp hmem with
    | inl he =>
      subst he
      rw [hbelow]
      exact hold
    | inr hmem' =>
      rw [hother _ (hrest seg' hmem) (hnext seg' hmem')]
      exact hold

/-- A thread is resumed: it runs above the one that resumes it. -/
structure Resumes (s s' : State) (seg : Segment) (rest : List Segment) (co : Tid) (th : LuaState)
    (frames : List Frame) : Prop where
  segs : s'.segs = ⟨co, frames, seg.l, s.curL⟩ :: seg :: rest
  n : s'.n = s.n
  curL : s'.curL = some co
  self : s'.threads co = th
  below : s'.threads seg.l = { s.threads seg.l with status := .normal }
  other : ∀ t, t ≠ co → t ≠ seg.l → s'.threads t = s.threads t

theorem Inv.resumes (h : s.Inv) (hs : s.segs = seg :: rest) {co : Tid} {th : LuaState} {frames : List Frame}
    (hco : co < s.n) (hoff : co ∉ s.segs.map Segment.l) (hr : Resumes s s' seg rest co th frames)
    (hstatus : th.status = .running) (hdepth : th.cDepth = depth frames) (hwf : FramesWf th.stack frames) :
    s'.Inv := by
  obtain ⟨hs', hn', hc', hself, hbelow, hother⟩ := hr
  have hrest := h.top_ne hs
  obtain ⟨hlinks, hnodup, hlt, hcur, hrun, hnormal, hoff', hon⟩ := h
  rw [hs] at hlinks hnodup hlt hcur hrun hnormal hoff' hon hoff
  have hnot : ∀ seg' ∈ seg :: rest, seg'.l ≠ co := fun seg' hmem he => hoff (he ▸ List.mem_map_of_mem hmem)
  refine ⟨?_, ?_, ?_, ?_, ?_, ?_, ?_, ?_⟩
  · rw [hs']
    exact ⟨rfl, hcur, hlinks⟩
  · rw [hs']
    exact List.nodup_cons.mpr ⟨hoff, hnodup⟩
  · intro seg' hmem
    rw [hs'] at hmem
    rw [hn']
    cases List.mem_cons.mp hmem with
    | inl he => exact he ▸ hco
    | inr hmem => exact hlt seg' hmem
  · rw [hs', hc']
    rfl
  · intro seg' hmem
    rw [hs'] at hmem
    obtain rfl := Option.some.inj hmem
    rw [hself, hstatus]
  · intro seg' hmem
    rw [hs'] at hmem
    have hmem : seg' ∈ seg :: rest := hmem
    cases List.mem_cons.mp hmem with
    | inl he => rw [he, hbelow]
    | inr hmem' =>
      rw [hother _ (hnot seg' hmem) (hrest seg' hmem')]
      exact hnormal seg' hmem'
  · intro t ht hn
    rw [hs'] at hn
    rw [hn'] at ht
    have hne : t ≠ co := fun he => hn (he ▸ List.mem_cons_self)
    have hseg : t ≠ seg.l := by
      intro he
      apply hn
      simp [he]
    rw [hother t hne hseg]
    exact hoff' t ht fun hmem => hn (List.mem_cons_of_mem _ hmem)
  · intro seg' hmem
    rw [hs'] at hmem
    cases List.mem_cons.mp hmem with
    | inl he =>
      rw [he, hself]
      exact ⟨hdepth, hwf⟩
    | inr hmem =>
      have hold := hon seg' hmem
      cases List.mem_cons.mp hmem with
      | inl he =>
        subst he
        rw [hbelow]
        exact hold
      | inr hmem' =>
        rw [hother _ (hnot seg' hmem) (hrest seg' hmem')]
        exact hold

/-- A valid record can be gone on with. -/
theorem continuation_spec (from_ : Stack) (argsAt nargs : ℕ) {co : LuaState} (h : co.SuspendOk) :
    ∃ th frames, continuation co from_ argsAt nargs = some (th, frames) ∧ th.cDepth = co.cDepth ∧
      FramesWf th.stack (frames ++ [.execute true]) ∧ depth (frames ++ [.execute true]) = 1 := by
  unfold continuation
  unfold LuaState.SuspendOk at h
  cases hsus : co.suspend with
  | start =>
    have hwf : FramesWf (copySlots (Function.update co.stack 1 none) 2 from_ argsAt nargs) [.execute true] := trivial
    obtain ⟨hwf, hdepth, -⟩ := executeInner_spec nargs hwf (Nat.le_refl 0)
    exact ⟨_, _, rfl, rfl, hwf, hdepth⟩
  | call p =>
    rw [hsus] at h
    obtain ⟨pt, hcl, hbase, hslot, hfn, hpc, hle⟩ := h
    dsimp only
    rw [hcl]
    refine ⟨_, _, rfl, rfl, ⟨Nat.zero_le _, hbase, ?_, hle, trivial⟩, rfl⟩
    dsimp only
    split
    · rw [moveSlots_below (by omega), update_below (by omega), copySlots_below (by omega), hfn]
    split
    · rw [clearSlots_below (by omega), moveSlots_below (by omega), copySlots_below (by omega), hfn]
    · rw [moveSlots_below (by omega), copySlots_below (by omega), hfn]
  | ret base slot =>
    rw [hsus] at h
    obtain ⟨pt, hbase, hslot, hfn⟩ := h
    have hcl : moveSlots (copySlots co.stack (slot + 2) from_ argsAt nargs) slot (slot + 2) nargs (base - 2) =
        some (.lua pt) := by
      rw [moveSlots_below (by omega), copySlots_below (by omega), hfn]
    dsimp only
    rw [hcl]
    exact ⟨_, _, rfl, rfl, ⟨Nat.zero_le _, hbase, hcl, Nat.zero_le _, trivial⟩, rfl⟩

/-- Steps that the code takes as meant: a yield is captured by the outermost Lua frame of its thread, and a
function is called above the frame that calls it. -/
def regular (s : State) (a : Action) : Bool :=
  match s.segs, a with
  | seg :: _, .yield _ => captures seg.frames
  | seg :: _, .execute _ funcSlot _ => floor seg.frames ≤ funcSlot
  | _, _ => true

/-- What a step can do to the threads and the host stack. -/
inductive Change (s s' : State) : Prop
  | same (h : s' = s)
  | top {seg : Segment} {rest : List Segment} {l : LuaState} {fs : List Frame} (hs : s.segs = seg :: rest)
    (hstep : TopStep s s' seg rest l fs) (hstatus : l.status = (s.threads seg.l).status)
    (hdepth : l.cDepth = depth fs) (hwf : FramesWf l.stack fs)
  | returns {seg next : Segment} {rest : List Segment} {co : LuaState} (hr : Returns s s' seg next rest co)
    (hdepth : co.cDepth = 0) (hco : co.status = .suspended ∧ co.SuspendOk ∨ co.status = .dead)
  | resumes {seg : Segment} {rest : List Segment} {co : Tid} {th : LuaState} {frames : List Frame}
    (hs : s.segs = seg :: rest) (hco : co < s.n) (hsus : (s.threads co).status = .suspended)
    (hr : Resumes s s' seg rest co th frames) (hstatus : th.status = .running) (hdepth : th.cDepth = depth frames)
    (hwf : FramesWf th.stack frames)
  | create (f : GcFunc) (h : s' = s.newThread f)

theorem Inv.leaveExecute (h : s.Inv) (hs : s.segs = seg :: rest) (hl : s.leaveExecute seg = some s') :
    Change s s' := by
  obtain ⟨⟨counted, fs⟩, hp, hl⟩ := Option.bind_eq_some_iff.mp hl
  have hmem : seg ∈ s.segs := hs ▸ List.mem_cons_self
  obtain ⟨hdepth, hwf⟩ := h.on seg hmem
  obtain ⟨hwf', hdepth'⟩ := hwf.popExecute hp
  cases fs with
  | nil =>
    obtain ⟨next, rest, hr⟩ := h.finish_returns hs hl
    exact .returns hr (by simp [hdepth, hdepth', depth]) (.inr rfl)
  | cons f fs =>
    obtain rfl := Option.some.inj hl
    exact .top hs (State.topStep hs _ _) rfl (by simp [hdepth, hdepth']) hwf'

/-- A thread on the host stack is running or waits for one that does. -/
theorem Inv.not_on (h : s.Inv) {t : Tid} (hr : (s.threads t).status ≠ .running)
    (hn : (s.threads t).status ≠ .normal) : t ∉ s.segs.map Segment.l := by
  have hrun := h.running
  have hnormal := h.normal
  intro hmem
  obtain ⟨seg, hseg, rfl⟩ := List.mem_map.mp hmem
  cases hs : s.segs with
  | nil => simp [hs] at hseg
  | cons top rest =>
    rw [hs] at hrun hnormal hseg
    cases List.mem_cons.mp hseg with
    | inl he => exact hr (he ▸ hrun top rfl)
    | inr hmem => exact hn (hnormal seg hmem)

theorem Inv.doResume (h : s.Inv) (hs : s.segs = seg :: rest) {co : Tid} {argsAt nargs : ℕ} (hco : co < s.n)
    (hr : s.doResume co argsAt nargs = some s') : Change s s' := by
  unfold State.doResume at hr
  rw [hs] at hr
  dsimp only at hr
  split at hr
  next hacc =>
    have hsus : (s.threads co).status = .suspended := by
      simp only [accepts, Bool.and_eq_true, decide_eq_true_eq] at hacc
      exact hacc.1
    have hnot : co ∉ s.segs.map Segment.l := h.not_on (by simp [hsus]) (by simp [hsus])
    have hne : co ≠ seg.l := fun he => hnot (by simp [hs, he])
    obtain ⟨hdepth, hst⟩ := h.off co hco hnot
    have hok : (s.threads co).SuspendOk := by
      cases hst with
      | inl hok => exact hok.2
      | inr hdead => simp [hsus] at hdead
    obtain ⟨th, frames, hcont, hth, hwf, hone⟩ :=
      continuation_spec (s.threads seg.l).stack argsAt nargs hok
    rw [hcont, Option.map_some, Option.some.injEq] at hr
    subst hr
    refine .resumes hs hco hsus ⟨rfl, rfl, rfl, Function.update_self .., ?_, fun t ht ht' => ?_⟩ rfl ?_ hwf
    · exact (Function.update_of_ne hne.symm _ _).trans (Function.update_self ..)
    · exact (Function.update_of_ne ht _ _).trans (Function.update_of_ne ht' _ _)
    · rw [hone, hth, hdepth]
  next => exact .same (Option.some.inj hr).symm

theorem Inv.newThread (h : s.Inv) (f : GcFunc) : (s.newThread f).Inv := by
  have hold : ∀ t < s.n, (s.newThread f).threads t = s.threads t := fun t ht =>
    Function.update_of_ne (Nat.ne_of_lt ht) _ _
  have hmem : ∀ seg ∈ s.segs, (s.newThread f).threads seg.l = s.threads seg.l := fun seg hseg =>
    hold _ (h.lt seg hseg)
  refine ⟨h.links, h.nodup, fun seg hseg => Nat.lt_succ_of_lt (h.lt seg hseg), h.cur, ?_, ?_, ?_, ?_⟩
  · intro seg hseg
    rw [hmem seg (List.mem_of_mem_head? hseg)]
    exact h.running seg hseg
  · intro seg hseg
    rw [hmem seg (List.mem_of_mem_tail hseg)]
    exact h.normal seg hseg
  · intro t ht hn
    cases Nat.lt_succ_iff_lt_or_eq.mp ht with
    | inl hlt =>
      rw [hold t hlt]
      exact h.off t hlt hn
    | inr he =>
      have hnew : (s.newThread f).threads t = ⟨.suspended, .start, 0, 0, 0, 0, Function.update (fun _ => none) 0 (some f), false⟩ :=
        he ▸ Function.update_self ..
      rw [hnew]
      exact ⟨rfl, .inl ⟨rfl, rfl, f, by simp⟩⟩
  · intro seg hseg
    rw [hmem seg hseg]
    exact h.on seg hseg

theorem Inv.change (h : s.Inv) {a : Action} (hreg : s.regular a = true) (hstep : s.step a = some s') : Change s s' := by
  unfold State.step at hstep
  split at hstep
  · cases hstep
  next seg rest hs =>
    obtain ⟨hdepth, hwf⟩ := h.on seg (hs ▸ List.mem_cons_self)
    cases a with
    | lua pt base pc =>
      dsimp only [stepTop] at hstep
      split at hstep
      next entry pt₀ base₀ pc₀ fs hfs =>
        split at hstep
        next hc =>
          rw [hfs] at hdepth hwf
          exact Option.some.inj hstep ▸
            .top hs (topStep_frames hs _) rfl hdepth ⟨hwf.1, hc.1, hc.2.1, hc.2.2, hwf.2.2.2.2⟩
        next => cases hstep
      next => cases hstep
    | tailcall pt base nargs =>
      dsimp only [stepTop] at hstep
      split at hstep
      next entry pt₀ old pc₀ fs hfs =>
        split at hstep
        next hc =>
          rw [hfs] at hdepth hwf
          obtain ⟨hfloor, -, -, -, hwf⟩ := hwf
          have hfn : Function.update (s.threads seg.l).stack (base - 2) (some (.lua pt)) (base - 2) = some (.lua pt) :=
            Function.update_self ..
          have hbelow : ∀ i < floor fs, Function.update (s.threads seg.l).stack (base - 2) (some (.lua pt)) i =
              (s.threads seg.l).stack i := fun i hi => update_below (by omega)
          cases hv : pt.vararg with
          | false =>
            rw [hv] at hstep
            exact Option.some.inj hstep ▸ .top hs (State.topStep hs _ _) rfl hdepth
              ⟨hfloor, hc.1, hfn, pt.header, hwf.congr hbelow⟩
          | true =>
            rw [hv] at hstep
            obtain ⟨hbase, hcl, hkeep⟩ := enterLua_spec nargs hfn
            refine Option.some.inj hstep ▸ .top hs (State.topStep hs _ _) rfl hdepth
              ⟨hfloor, Nat.le_trans (by omega) hbase, hcl, pt.header, hwf.congr fun i hi => ?_⟩
            exact (hkeep i (by omega)).trans (hbelow i hi)
        next => cases hstep
      next => cases hstep
    | write slot v =>
      dsimp only [stepTop] at hstep
      split at hstep
      next hc =>
        refine Option.some.inj hstep ▸ .top hs (topStep_set hs _) rfl hdepth (hwf.congr fun i hi => ?_)
        exact update_below (by omega)
      next => cases hstep
    | callC f funcSlot pc via =>
      dsimp only [stepTop] at hstep
      split at hstep
      next entry pt base pc₀ fs hfs =>
        split at hstep
        next hc =>
          obtain ⟨hslot, hpos, hle, -, hvia⟩ := hc
          rw [hfs] at hdepth hwf
          obtain ⟨hfloor, hbase, hcl, -, hwf⟩ := hwf
          exact Option.some.inj hstep ▸ .top hs (State.topStep hs _ _) rfl hdepth
            ⟨hslot, fun _ => ⟨_, _, _, _, _, rfl, hpos⟩, hfloor, hbase, hcl, hle, hwf⟩
        next => cases hstep
      next => cases hstep
    | execute counted funcSlot nargs =>
      dsimp only [stepTop] at hstep
      split at hstep
      next =>
        have hslot : floor seg.frames ≤ funcSlot := by simpa [regular, hs] using hreg
        obtain ⟨hwf', hdepth', -⟩ := executeInner_spec nargs (show FramesWf _ (.execute counted :: seg.frames) from hwf) hslot
        refine Option.some.inj hstep ▸ .top hs (State.topStep hs _ _) rfl ?_ hwf'
        rw [hdepth', depth, ← hdepth, Nat.add_comm]
      next => cases hstep
    | ret =>
      dsimp only [stepTop] at hstep
      split at hstep
      · exact h.leaveExecute hs hstep
      next f slot via fs _ hfs =>
        rw [hfs] at hdepth hwf
        exact Option.some.inj hstep ▸ .top hs (topStep_frames hs _) rfl hdepth hwf.2.2
      · exact h.leaveExecute hs hstep
    | raise => exact h.leaveExecute hs hstep
    | create f =>
      dsimp only [stepTop] at hstep
      split at hstep
      · exact .create f (Option.some.inj hstep).symm
      · exact .create f (Option.some.inj hstep).symm
      · cases hstep
    | resume co argsAt nargs =>
      dsimp only [stepTop] at hstep
      split at hstep
      · split at hstep
        next hco => exact h.doResume hs hco hstep
        next => cases hstep
      · split at hstep
        next hco => exact h.doResume hs hco.2 hstep
        next => cases hstep
      · cases hstep
    | yield ny =>
      dsimp only [stepTop] at hstep
      split at hstep
      next =>
        split at hstep
        next =>
          obtain ⟨l, hl, hfin⟩ := Option.bind_eq_some_iff.mp hstep
          have hwf₀ : FramesWf ({ s.threads seg.l with nyield := ny } : LuaState).stack seg.frames := hwf
          have hzero : l.cDepth = 0 := by
            rw [unwindYield_depth hwf₀ hl, hdepth, Nat.sub_self]
          have hcap : captures seg.frames = true := by simpa [regular, hs] using hreg
          have hok : l.SuspendOk := unwindYield_captured hwf₀ hcap hl
          obtain ⟨next, rest', hr⟩ := h.finish_returns hs hfin
          exact .returns hr hzero (.inl ⟨rfl, hok⟩)
        next => exact .same (Option.some.inj hstep).symm
      next => cases hstep

theorem Inv.of_change (h : s.Inv) (hc : Change s s') : s'.Inv := by
  cases hc with
  | same he => exact he ▸ h
  | top hs hstep hstatus hdepth hwf => exact h.topStep hs hstep hstatus hdepth hwf
  | returns hr hdepth hco => exact h.returns hr hdepth hco
  | resumes hs hco hsus hr hstatus hdepth hwf =>
    exact h.resumes hs hco (h.not_on (by simp [hsus]) (by simp [hsus])) hr hstatus hdepth hwf
  | create f he => exact he ▸ h.newThread f

end State

end LuajitRs.Coroutine
