import LuajitRs.Jit.Patch.Invariant
import Mathlib.Tactic.FinCases

/-! The invariant of the trace compiler over whole runs: patched bytecode always leads into live traces,
and flushing every trace leaves no link behind. -/
namespace LuajitRs.Jit

/-- What a trace knows about its start. -/
def GCtrace.start (tr : GCtrace) : TraceNo × ProtoRef × ℕ × BCIns :=
  (tr.root, tr.startpt, tr.startpc, tr.startins)

/-- The registered root traces name the instructions they start at. -/
def Names (js : JitState) : Naming := fun t p pc i =>
  ∃ tr, js.lookup t = some tr ∧ tr.root = 0 ∧ tr.startpt = p ∧ tr.startpc = pc ∧ tr.startins = i

structure Registry (prog : Program) (js : JitState) : Prop where
  zero : js.lookup 0 = none
  pos : 0 < js.trace.length
  size : js.trace.length ≤ maxtrace + 1
  rooted : ∀ {t tr}, js.lookup t = some tr → tr.root = 0 → Rooted prog tr

/-- Patched bytecode that fits the registry. -/
structure Linked (prog : Program) (s : State) : Prop where
  coded : Coded prog (Names s.js) s
  registry : Registry prog s.js

/-- The trace being recorded has a free number; a root trace still starts at an unpatched place. -/
structure Recording (prog : Program) (s : State) (r : Record) : Prop where
  fresh : s.js.lookup r.cur.traceno = none
  pos : 0 < r.cur.traceno
  range : r.cur.traceno < s.js.trace.length
  start : (r.cur.root = 0 ∧ Rooted prog r.cur) ∨ (r.cur.root ≠ 0 ∧ r.cur.startins.op = .jmp)

/-- Where an abort of the current recording is penalised. -/
def Abortable (prog : Program) (s : State) : Prop :=
  s.js.parent = 0 → ∀ p, s.js.startpt = some p → Settled prog s p s.js.startpc

structure Inv (prog : Program) (s : State) : Prop where
  linked : Linked prog s
  recording : ∀ r, s.js.recording = some r →
    s.js.state = .record ∧ Recording prog s r ∧ Abortable prog s

section Registry
variable {prog : Program} {s s' : State} {js js' : JitState}

theorem lookup_eq_some {t : TraceNo} {tr : GCtrace} : js.lookup t = some tr ↔ js.trace[t]? = some (some tr) := by
  simp [JitState.lookup, Option.join_eq_some_iff]

theorem names_mono (h : ∀ t, (js'.lookup t).map GCtrace.start = (js.lookup t).map GCtrace.start)
    {t p pc i} (hn : Names js t p pc i) : Names js' t p pc i := by
  obtain ⟨tr, htr, hroot, rfl, rfl, rfl⟩ := hn
  have ht := h t
  rw [htr, Option.map_some, Option.map_eq_some_iff] at ht
  obtain ⟨tr', htr', hs⟩ := ht
  simp only [GCtrace.start, Prod.mk.injEq] at hs
  exact ⟨tr', htr', hs.1.trans hroot, hs.2.1, hs.2.2.1, hs.2.2.2⟩

/-- Changes of the registry that keep every start keep the links. -/
theorem Linked.congr (h : Linked prog s) (hi : ∀ q k, s'.ins q k = s.ins q k)
    (ht : ∀ t, (s'.js.lookup t).map GCtrace.start = (s.js.lookup t).map GCtrace.start)
    (hlen : s'.js.trace.length = s.js.trace.length) : Linked prog s' where
  coded := h.coded.congr hi fun _ _ _ _ => names_mono ht
  registry := by
    refine ⟨?_, hlen ▸ h.registry.pos, hlen ▸ h.registry.size, fun {t tr} htr hroot => ?_⟩
    · simpa [h.registry.zero] using ht 0
    · have hs := ht t
      rw [htr, Option.map_some, eq_comm, Option.map_eq_some_iff] at hs
      obtain ⟨tr₀, htr₀, hs⟩ := hs
      simp only [GCtrace.start, Prod.mk.injEq] at hs
      have hr := h.registry.rooted htr₀ (hs.1.trans hroot)
      rwa [Rooted, hs.2.1, hs.2.2.1, hs.2.2.2] at hr

/-- The registry is all of the compiler state that the bytecode depends on. -/
theorem Linked.of_js (h : Linked prog s) (ht : js'.trace = s.js.trace) : Linked prog { s with js := js' } := by
  have hlookup : ∀ t, js'.lookup t = s.js.lookup t := fun t => by rw [JitState.lookup, JitState.lookup, ht]
  exact h.congr (fun _ _ => rfl) (fun t => congrArg _ (hlookup t)) (congrArg _ ht)

theorem lookup_modifyTrace {f : GCtrace → GCtrace} (hf : ∀ tr, (f tr).start = tr.start) (t t' : TraceNo) :
    ((js.modifyTrace t f).lookup t').map GCtrace.start = (js.lookup t').map GCtrace.start := by
  simp only [JitState.lookup, JitState.modifyTrace, List.getElem?_modify]
  split_ifs
  · cases js.trace[t']? with
    | none => rfl
    | some slot =>
      cases slot with
      | none => rfl
      | some tr => simp [hf]
  · simp

theorem length_modifyTrace (f : GCtrace → GCtrace) (t : TraceNo) :
    (js.modifyTrace t f).trace.length = js.trace.length := by simp [JitState.modifyTrace]

theorem Linked.modifyTrace (h : Linked prog s) {f : GCtrace → GCtrace} (hf : ∀ tr, (f tr).start = tr.start)
    (t : TraceNo) : Linked prog { s with js := s.js.modifyTrace t f } :=
  h.congr (fun _ _ => rfl) (lookup_modifyTrace hf t) (length_modifyTrace f t)

/-- A number handed out is free and inside the registry. -/
theorem traceFindfree_spec {t : TraceNo} (h : js.traceFindfree = some (t, js')) :
    ∃ l, js' = { js with trace := l } ∧ (∀ t', js'.lookup t' = js.lookup t') ∧
      js'.lookup t = none ∧ t < l.length ∧ js.trace.length ≤ l.length ∧
      (0 < js.trace.length → 0 < t) ∧ (js.trace.length ≤ maxtrace + 1 → l.length ≤ maxtrace + 1) := by
  unfold JitState.traceFindfree at h
  split at h
  · rename_i i hi
    obtain ⟨rfl, rfl⟩ : i + 1 = t ∧ js = js' := by simpa using h
    obtain ⟨hlt, hnone, -⟩ := List.findIdx?_eq_some_iff_getElem.mp hi
    rw [List.length_drop] at hlt
    rw [List.getElem_drop, Option.isNone_iff_eq_none] at hnone
    refine ⟨js.trace, rfl, fun _ => rfl, ?_, ?_, Nat.le_refl _, fun _ => Nat.succ_pos i, id⟩
    · rw [JitState.lookup, List.getElem?_eq_getElem (by omega : i + 1 < js.trace.length)]
      simpa [Nat.add_comm] using hnone
    · exact Nat.add_lt_of_lt_sub hlt
  · split_ifs at h with hmax
    obtain ⟨rfl, rfl⟩ : js.trace.length = t ∧ { js with trace := js.trace ++ [none] } = js' := by simpa using h
    refine ⟨_, rfl, fun t' => ?_, ?_, by simp, by simp, id, by simp; omega⟩
    · simp only [JitState.lookup, List.getElem?_append]
      split_ifs with hlt
      · rfl
      · rw [List.getElem?_eq_none (by omega : js.trace.length ≤ t')]
        cases h : t' - js.trace.length <;> simp
    · simp [JitState.lookup]

end Registry

section Abort
variable {prog : Program} {s s' : State} {p : ProtoRef} {pc rnd : ℕ} {e : TraceError}

theorem Linked.penaltyPc (h : Linked prog s) (hset : Settled prog s p pc)
    (hs : s.penaltyPc p pc rnd = some s') : Linked prog s' ∧ s'.js.recording = s.js.recording := by
  unfold State.penaltyPc at hs
  split at hs
  · simp only at hs
    split_ifs at hs
    · obtain ⟨s₁, hs₁, hcode, hun⟩ := h.coded.blacklistPc hset
      obtain rfl : s₁ = s' := by simpa [hs₁] using hs
      exact ⟨⟨hun.js ▸ hcode, hun.js ▸ h.registry⟩, by rw [hun.js]⟩
    · obtain rfl := Option.some.inj hs
      exact ⟨h.of_js rfl, rfl⟩
  · obtain rfl := Option.some.inj hs
    exact ⟨h.of_js rfl, rfl⟩

theorem Linked.penalizeStart (h : Linked prog s) (ha : Abortable prog s)
    (hs : s.penalizeStart e rnd = some s') : Linked prog s' ∧ s'.js.recording = s.js.recording := by
  unfold State.penalizeStart at hs
  split at hs
  · obtain rfl := Option.some.inj hs
    exact ⟨h, rfl⟩
  · rename_i p hp
    by_cases hroot : s.js.parent = 0 ∧ !s.js.startins.op.isRet ∧ s.js.exitno = 0
    · have hset := ha hroot.1 p hp
      rw [if_pos hroot] at hs
      split at hs
      · obtain rfl := Option.some.inj hs
        exact ⟨h, rfl⟩
      · obtain rfl := Option.some.inj hs
        exact ⟨h.congr (fun _ _ => by simp) (fun _ => rfl) rfl, rfl⟩
      · split_ifs at hs
        · obtain rfl := Option.some.inj hs
          exact ⟨h, rfl⟩
        · exact h.penaltyPc hset hs
      · exact h.penaltyPc hset hs
    · rw [if_neg hroot] at hs
      obtain rfl := Option.some.inj hs
      exact ⟨h, rfl⟩

/-- An abort ends the recording; the bytecode stays linked. -/
theorem Linked.traceAbort (h : Linked prog s) (ha : Abortable prog s)
    (hs : s.traceAbort e rnd = some s') : Inv prog s' := by
  simp only [State.traceAbort, Option.bind_eq_bind, Option.bind_eq_some_iff] at hs
  obtain ⟨s₁, hs₁, hs⟩ := hs
  have h₀ : Linked prog { s with js.recording := none } := h.of_js rfl
  obtain ⟨hl, hrec⟩ := h₀.penalizeStart ha hs₁
  obtain rfl := Option.some.inj hs
  exact ⟨hl.of_js rfl, fun r hr => by simp [hrec] at hr⟩

/-- Without a recording the invariant is the link of bytecode and registry. -/
theorem Linked.inv (h : Linked prog s) (hr : s.js.recording = none) : Inv prog s :=
  ⟨h, fun r h => by simp [hr] at h⟩

theorem Linked.idle (h : Linked prog s) (hr : s.js.recording = none) : Inv prog s.idle := by
  have hl : Linked prog s.idle := h.of_js rfl
  exact hl.inv hr

theorem Linked.abortWith (h : Linked prog s) (ha : Abortable prog s)
    (hs : s.abortWith e rnd = some s') : Inv prog s' := by
  have h₀ : Linked prog { s with js.state := .err } := h.of_js rfl
  exact h₀.traceAbort ha hs

end Abort

section Start
variable {prog : Program} {s s' : State} {p : ProtoRef} {pc rnd : ℕ} {setup : Setup} {r : Record}

theorem Linked.beginRecord (h : Linked prog s) (ha : Abortable prog s) (hr : Recording prog s r)
    (hs : s.beginRecord r setup rnd = some s') : Inv prog s' := by
  unfold State.beginRecord at hs
  split at hs
  · exact h.abortWith ha hs
  · obtain rfl := Option.some.inj hs
    refine ⟨h.of_js rfl, fun r' hr' => ⟨rfl, ?_, ha⟩⟩
    obtain rfl : r = r' := by simpa using hr'
    exact ⟨hr.fresh, hr.pos, hr.range, hr.start⟩

theorem Linked.setupRoot {op : BCOp} (h : Linked prog s) (ha : Abortable prog s)
    (hr : Recording prog s r) (hs : s.setupRoot p pc op r setup rnd = some s') : Inv prog s' := by
  unfold State.setupRoot at hs
  split_ifs at hs
  · simp only [Option.bind_eq_bind, Option.bind_eq_some_iff] at hs
    obtain ⟨prev, -, hs⟩ := hs
    split_ifs at hs
    · exact h.beginRecord ha hr hs
    · exact h.abortWith ha hs
    · exact h.abortWith ha hs
  · exact h.beginRecord ha hr hs

/-- A side trace belongs to a root trace, so flushes of root traces pass it by. -/
theorem Linked.setupSide (h : Linked prog s) (hp : s.js.parent ≠ 0) (hrec : s.js.recording = none)
    (hfresh : s.js.lookup r.cur.traceno = none) (hpos : 0 < r.cur.traceno)
    (hrange : r.cur.traceno < s.js.trace.length) (hs : s.setupSide r setup rnd = some s') :
    Inv prog s' := by
  simp only [State.setupSide, Option.bind_eq_bind, Option.bind_eq_some_iff] at hs
  obtain ⟨t, -, snap, -, hs⟩ := hs
  have hroot : (if t.root ≠ 0 then t.root else s.js.parent) ≠ 0 := by split_ifs <;> assumption
  generalize (if t.root ≠ 0 then t.root else s.js.parent) = root at hs hroot
  split_ifs at hs with hfull
  · obtain rfl := Option.some.inj hs
    have hm := h.modifyTrace (f := fun t => { t with snap := t.snap.modify s.js.exitno fun sn =>
      { sn with count := snapcountDone } }) (fun _ => rfl) s.js.parent
    refine Linked.inv ?_ hrec
    exact hm.of_js rfl
  · have hr : Recording prog s { r with cur.root := root, cur.startins := BCIns.sideJmp } :=
      ⟨hfresh, hpos, hrange, .inr ⟨hroot, rfl⟩⟩
    exact h.beginRecord (fun h0 => absurd h0 hp) hr hs

/-- Starting a trace: a root trace starts at a counting instruction, which is unpatched. -/
theorem Linked.traceStart (h : Linked prog s) (hrec : s.js.recording = none)
    (hhot : s.js.parent = 0 → ∃ i, s.ins p pc = some i ∧ i.op.isHot)
    (hs : s.traceStart p pc setup rnd = some s') : Inv prog s' := by
  have hset : s.js.parent = 0 → Settled prog s p pc := by
    intro h0
    obtain ⟨i, hi, hot⟩ := hhot h0
    exact ⟨i, h.coded.of_hot hi hot, hot, .inl hi⟩
  simp only [State.traceStart, Option.bind_eq_bind, Option.bind_eq_some_iff] at hs
  obtain ⟨startins, hstart, hs⟩ := hs
  by_cases hnojit : (s.protos p).nojit
  · rw [if_pos hnojit] at hs
    by_cases hroot : s.js.parent = 0 ∧ s.js.exitno = 0 ∧ startins.op ≠ .itern
    · obtain ⟨i, hi, hot⟩ := hhot hroot.1
      rw [State.startIns, if_neg (by simpa using hroot.1), hi, Option.some.injEq] at hstart
      subst hstart
      rw [if_pos hroot, State.setOp_eq hi, Option.bind_eq_some_iff] at hs
      obtain ⟨s₁, hs₁, hs⟩ := hs
      obtain ⟨hcode, hun⟩ := h.coded.interp (hset hroot.1) (h.coded.of_hot hi hot) hot
        (State.setIns_written hs₁)
      obtain rfl := Option.some.inj hs
      have hl : Linked prog (s₁.setIloop p) :=
        ⟨hun.js ▸ hcode.congr (fun _ _ => by simp) fun _ _ _ _ => id, hun.js ▸ h.registry⟩
      exact hl.idle (by simp [hun.js, hrec])
    · rw [if_neg hroot] at hs
      obtain rfl := Option.some.inj hs
      exact h.idle hrec
  · rw [if_neg hnojit] at hs
    by_cases hfound : s.js.parent = 0 ∧ s.js.findRootTrace p pc
    · rw [if_pos hfound] at hs
      obtain rfl := Option.some.inj hs
      exact h.idle hrec
    · rw [if_neg hfound] at hs
      set s₀ : State := { s with js.startpt := some p, js.startpc := pc, js.startins := startins } with hs₀
      have h₀ : Linked prog s₀ := h.of_js rfl
      have ha : Abortable prog s₀ := by
        intro h0 q hq
        obtain rfl : p = q := by simpa [hs₀] using hq
        exact hset h0
      by_cases hcold : s.js.parent = 0 ∧ !startins.op.isHot
      · rw [if_pos hcold] at hs
        exact h₀.abortWith ha hs
      · rw [if_neg hcold] at hs
        split at hs
        · obtain rfl := Option.some.inj hs
          exact h₀.idle hrec
        · rename_i traceno js hfree
          obtain ⟨l, rfl, hlookup, hnone, hlt, hle, hpos, hsize⟩ := traceFindfree_spec hfree
          have h₁ : Linked prog { s₀ with js := { s₀.js with trace := l } } := by
            refine ⟨h₀.coded.congr (fun _ _ => rfl) fun t q k i hn => ?_, ?_⟩
            · exact names_mono (fun t => congrArg _ (hlookup t)) hn
            · refine ⟨(hlookup 0).trans h₀.registry.zero, Nat.lt_of_lt_of_le h₀.registry.pos hle,
                hsize h₀.registry.size, fun {t tr} ht hroot => ?_⟩
              exact h₀.registry.rooted ((hlookup t).symm.trans ht) hroot
          rw [Option.bind_eq_some_iff] at hs
          obtain ⟨first, hfirst, hs⟩ := hs
          by_cases hp : s.js.parent = 0
          · obtain ⟨i, hi, hot⟩ := hhot hp
            obtain rfl : i = first := Option.some.inj (hi.symm.trans hfirst)
            rw [if_neg (by simpa using hp)] at hs
            refine h₁.setupRoot ha ⟨hnone, hpos h₀.registry.pos, hlt, .inl ⟨rfl, ?_⟩⟩ hs
            exact ⟨h.coded.of_hot hi hot, hot⟩
          · rw [if_pos (by simpa using hp)] at hs
            exact h₁.setupSide hp hrec hnone (hpos h₀.registry.pos) hlt hs

/-- Only idle time starts a trace, and then nothing is being recorded. -/
theorem Inv.not_recording (h : Inv prog s) (hidle : s.js.state = .idle) : s.js.recording = none := by
  cases hr : s.js.recording with
  | none => rfl
  | some r => exact absurd (h.recording r hr).1 (by simp [hidle])

theorem Inv.traceHot {i : BCIns} (h : Inv prog s) (hi : s.ins p pc = some i) (hot : i.op.isHot)
    (hs : s.traceHot p pc setup rnd = some s') : Inv prog s' := by
  unfold State.traceHot at hs
  split at hs
  · rename_i hidle
    have hl : Linked prog { s with js.parent := 0, js.exitno := 0, js.state := .start } := h.linked.of_js rfl
    exact hl.traceStart (h.not_recording hidle) (fun _ => ⟨i, hi, hot⟩) hs
  · obtain rfl := Option.some.inj hs
    exact h

theorem Inv.traceHotSide {parent : TraceNo} {exitno : ℕ} (h : Inv prog s)
    (hs : s.traceHotSide parent exitno setup rnd = some s') : Inv prog s' := by
  unfold State.traceHotSide at hs
  split at hs
  · obtain rfl := Option.some.inj hs
    exact h
  · rename_i hidle
    have hidle : s.js.state = .idle := by simpa using hidle
    simp only [Option.bind_eq_bind, Option.bind_eq_some_iff] at hs
    obtain ⟨t, ht, root, -, snap, -, hs⟩ := hs
    split at hs
    · obtain rfl := Option.some.inj hs
      exact h
    · have hparent : parent ≠ 0 := by
        rintro rfl
        simp [h.linked.registry.zero] at ht
      have hl : Linked prog { s with js.parent := parent, js.exitno := exitno, js.state := .start } :=
        h.linked.of_js rfl
      exact hl.traceStart (h.not_recording hidle) (fun h0 => absurd h0 hparent) hs

end Start

section Stop
variable {prog : Program} {s s' : State} {r : Record} {tr : GCtrace}

theorem lookup_set (t : TraceNo) (hlt : t < s.js.trace.length) (t' : TraceNo) :
    JitState.lookup { s.js with trace := s.js.trace.set t (some tr) } t' =
      if t' = t then some tr else s.js.lookup t' := by
  split_ifs with h
  · subst h
    simp [JitState.lookup, hlt]
  · simp [JitState.lookup, List.getElem?_set_ne (Ne.symm h)]

/-- Registering a trace under a free number keeps the other names. -/
theorem names_set {t : TraceNo} (hfresh : s.js.lookup t = none) (hlt : t < s.js.trace.length)
    {t' p pc i} (hn : Names s.js t' p pc i) :
    Names { s.js with trace := s.js.trace.set t (some tr) } t' p pc i := by
  obtain ⟨tr', htr', hrest⟩ := hn
  refine ⟨tr', ?_, hrest⟩
  rw [lookup_set t hlt, if_neg, htr']
  rintro rfl
  simp [hfresh] at htr'

theorem Registry.set {t : TraceNo} (h : Registry prog s.js) (hpos : 0 < t) (hlt : t < s.js.trace.length)
    (hr : tr.root = 0 → Rooted prog tr) :
    Registry prog { s.js with trace := s.js.trace.set t (some tr) } := by
  refine ⟨?_, ?_, ?_, fun {t' tr'} ht hroot => ?_⟩
  · rw [lookup_set t hlt, if_neg (Nat.ne_of_lt hpos), h.zero]
  · simpa using h.pos
  · simpa using h.size
  · rw [lookup_set t hlt] at ht
    split_ifs at ht
    · obtain rfl := Option.some.inj ht
      exact hr hroot
    · exact h.rooted ht hroot

/-- Linking a side trace touches only exit counts. -/
theorem Linked.linkSide (h : Linked prog s) (hs : s.linkSide r tr = some s') :
    Linked prog s' ∧ s'.js.recording = s.js.recording := by
  simp only [State.linkSide, Option.bind_eq_bind, Option.bind_eq_some_iff] at hs
  obtain ⟨-, -, -, -, -, -, hs⟩ := hs
  obtain rfl := Option.some.inj hs
  have hm := h.modifyTrace (f := fun t => { t with snap := t.snap.modify r.exitno fun sn =>
    { sn with count := snapcountDone, sidetrace := tr.traceno } }) (fun _ => rfl) r.parent
  exact ⟨hm.modifyTrace (f := fun t => { t with nchild := t.nchild + 1 }) (fun _ => rfl) tr.root, rfl⟩

/-- A finished trace is registered and linked. -/
theorem Inv.traceStop {snap : List SnapShot} {lnk : TraceNo} (h : Inv prog s)
    (hr : s.js.recording = some r)
    (hs : { s with js.recording := none }.traceStop r snap lnk = some s') : Inv prog s' := by
  obtain ⟨-, hrec, -⟩ := h.recording r hr
  have h₀ : Linked prog { s with js.recording := none } := h.linked.of_js rfl
  simp only [State.traceStop, Option.bind_eq_bind, Option.bind_eq_some_iff] at hs
  obtain ⟨s₂, hs₂, hs⟩ := hs
  obtain rfl := Option.some.inj hs
  set tr : GCtrace := { r.cur with link := lnk, snap := snap } with htr
  set js₁ : JitState := { s.js with recording := none, trace := s.js.trace.set r.cur.traceno (some tr) }
  have hnames : ∀ t q k i, Names s.js t q k i → Names js₁ t q k i :=
    fun t q k i => names_set hrec.fresh hrec.range
  suffices hl : Linked prog s₂ ∧ s₂.js.recording = none by
    have hl' : Linked prog { s₂ with js.startpt := none, js.state := .idle } := hl.1.of_js rfl
    exact hl'.inv hl.2
  rcases hrec.start with ⟨hroot, hrooted⟩ | ⟨hroot, hjmp⟩
  · have hreg : Registry prog js₁ := h₀.registry.set hrec.pos hrec.range fun _ => hrooted
    have hnew : Names js₁ tr.traceno tr.startpt tr.startpc tr.startins := by
      refine ⟨tr, ?_, hroot, rfl, rfl, rfl⟩
      exact (lookup_set r.cur.traceno hrec.range _).trans (if_pos rfl)
    have hcode : Coded prog (Names s.js) { s with js := js₁ } :=
      h.linked.coded.congr (fun _ _ => rfl) fun _ _ _ _ => id
    have hrooted' : Rooted prog tr := hrooted
    obtain ⟨s₃, hs₃, hcoded, hjs⟩ := hcode.patchRoot hrooted' hnames hnew
    have hpatch : s₃ = s₂ := by
      apply Option.some.inj (hs₃.symm.trans ?_)
      rcases BCOp.isHot_iff.mp hrooted.2 with hop | hop | hop | hop <;>
        simpa [State.linkTrace, htr, hop] using hs₂
    subst hpatch
    exact ⟨⟨hjs ▸ hcoded, hjs ▸ hreg⟩, by rw [hjs]⟩
  · have hl : Linked prog { s with js := js₁ } :=
      ⟨h.linked.coded.congr (fun _ _ => rfl) hnames,
        h₀.registry.set hrec.pos hrec.range fun h0 => absurd h0 hroot⟩
    have hlink : State.linkSide { s with js := js₁ } r tr = some s₂ := by
      simpa [State.linkTrace, htr, hjmp] using hs₂
    exact hl.linkSide hlink

end Stop

section Flush
variable {prog : Program} {s s' : State}

/-- Undoing patches keeps the invariant when the registry keeps its names. -/
theorem Inv.unpatched (h : Inv prog s) (hcode : Coded prog (Names s.js) s') (hun : Unpatched prog s s') :
    Inv prog s' := by
  refine ⟨⟨hun.js ▸ hcode, hun.js ▸ h.linked.registry⟩, fun r hr => ?_⟩
  rw [hun.js] at hr
  obtain ⟨hstate, hrec, ha⟩ := h.recording r hr
  refine ⟨hun.js ▸ hstate, ?_, ?_⟩
  · exact ⟨hun.js ▸ hrec.fresh, hrec.pos, hun.js ▸ hrec.range, hrec.start⟩
  · rw [Abortable, hun.js]
    exact fun h0 p hp => hun.settled (ha h0 p hp)

/-- A flushed root trace leaves the interpreted variant at its start. -/
theorem Inv.traceFlushBlacklist {traceno : TraceNo} (h : Inv prog s)
    (hs : s.traceFlushBlacklist traceno = some s') : Inv prog s' := by
  simp only [State.traceFlushBlacklist, Option.bind_eq_bind, Option.bind_eq_some_iff] at hs
  obtain ⟨slot, -, hs⟩ := hs
  generalize (slot.elim traceno fun t => if t.root = 0 then traceno else t.root) = root at hs
  obtain ⟨tr?, htr, hs⟩ := hs
  cases tr? with
  | none =>
    obtain rfl := Option.some.inj hs
    exact h
  | some tr =>
    simp only at hs
    split_ifs at hs with hroot
    · have hr := h.linked.registry.rooted (lookup_eq_some.mpr htr) hroot
      obtain ⟨s₁, hs₁, hcode₁, hun₁, hset⟩ := h.linked.coded.revert hr fun t q k i _ => id
      obtain ⟨s₂, hs₂, hcode₂, hun₂⟩ := hcode₁.blacklistPc hset
      obtain rfl : s₂ = s' := by simpa [hs₁, hs₂] using hs
      exact h.unpatched hcode₂ (hun₁.trans hun₂)
    · obtain rfl := Option.some.inj hs
      exact h

/-- The names that the traces of a list give, whatever their numbers. -/
def Listed (L : List GCtrace) : Naming := fun _ p pc _ => ∃ tr ∈ L, tr.startpt = p ∧ tr.startpc = pc

/-- Reverting every root trace leaves no name in use. -/
theorem Coded.revertAll {L : List GCtrace} (hL : ∀ tr ∈ L, Rooted prog tr)
    (h : Coded prog (Listed L) s) :
    ∃ s', L.foldlM (fun s tr => s.revert tr) s = some s' ∧ Coded prog (Listed []) s' ∧
      Unpatched prog s s' := by
  induction L generalizing s with
  | nil => exact ⟨s, rfl, h, rfl, id⟩
  | cons tr L ih =>
    have hN : ∀ t q k i, ¬ (q = tr.startpt ∧ k = tr.startpc) → Listed (tr :: L) t q k i →
        Listed L t q k i := by
      rintro t q k i hne ⟨tr', hmem, rfl, rfl⟩
      cases List.mem_cons.mp hmem with
      | inl heq => exact absurd ⟨by rw [heq], by rw [heq]⟩ hne
      | inr hmem => exact ⟨tr', hmem, rfl, rfl⟩
    obtain ⟨s₁, hs₁, hcode₁, hun₁, -⟩ := h.revert (hL tr List.mem_cons_self) hN
    obtain ⟨s₂, hs₂, hcode₂, hun₂⟩ := ih (fun tr' h' => hL tr' (List.mem_cons_of_mem _ h')) hcode₁
    exact ⟨s₂, by simp [List.foldlM_cons, hs₁, hs₂], hcode₂, hun₁.trans hun₂⟩

/-- Without names no instruction is a JIT variant. -/
theorem Coded.not_isJit {p : ProtoRef} {pc : ℕ} {i' : BCIns} (h : Coded prog (Listed []) s)
    (hi : s.ins p pc = some i') : i'.op.isJit = false := by
  obtain ⟨i, hc, hs⟩ := h.exists_code hi
  cases hs with
  | kept => exact (prog.plain_of hc).1
  | interp hot => exact (BCOp.offset_one hot).2.1
  | entry e l _ _ _ _ enters =>
    obtain ⟨t, -, tr, hmem, -⟩ := enters
    simp at hmem
  | compiled t _ named =>
    obtain ⟨tr, hmem, -⟩ := named
    simp at hmem

/-- Flushing every trace succeeds, keeps the invariant and removes every JIT variant. -/
theorem Inv.traceFlushAll (h : Inv prog s) :
    ∃ s', s.traceFlushAll = some s' ∧ Inv prog s' ∧
      ∀ p pc i', s'.ins p pc = some i' → i'.op.isJit = false := by
  set L := s.js.trace.reduceOption.filter fun t => t.root == 0 with hL
  have hmem : ∀ tr, tr ∈ L ↔ ∃ t, s.js.lookup t = some tr ∧ tr.root = 0 := by
    intro tr
    rw [hL, List.mem_filter, List.reduceOption_mem_iff, List.mem_iff_getElem?]
    simp only [lookup_eq_some, beq_iff_eq, exists_and_right]
  set s₀ : State := { s with js.trace := s.js.trace.map fun _ => none } with hs₀
  have hempty : ∀ t, s₀.js.lookup t = none := by
    intro t
    cases ht : s.js.trace[t]? <;> simp [hs₀, JitState.lookup, List.getElem?_map, ht, -List.map_const']
  have hins : ∀ q k, s₀.ins q k = s.ins q k := fun _ _ => rfl
  have hcode₀ : Coded prog (Listed L) s₀ := by
    apply h.linked.coded.congr hins
    rintro t q k i ⟨tr, htr, hroot, rfl, rfl, -⟩
    exact ⟨tr, (hmem tr).mpr ⟨t, htr, hroot⟩, rfl, rfl⟩
  have hrooted : ∀ tr ∈ L, Rooted prog tr := by
    intro tr htr
    obtain ⟨t, ht, hroot⟩ := (hmem tr).mp htr
    exact h.linked.registry.rooted ht hroot
  obtain ⟨s', hs', hcode, hun⟩ := hcode₀.revertAll hrooted
  have hlookup : ∀ t, s'.js.lookup t = none := fun t => by rw [hun.js, hempty]
  have hlen : s'.js.trace.length = s.js.trace.length := by rw [hun.js]; simp [hs₀]
  refine ⟨s', hs', ⟨⟨?_, ?_⟩, fun r hr => ?_⟩, fun p pc i' => hcode.not_isJit⟩
  · apply hcode.congr (fun _ _ => rfl)
    rintro t q k i ⟨tr, hmem, -⟩
    simp at hmem
  · exact ⟨hlookup 0, hlen ▸ h.linked.registry.pos, hlen ▸ h.linked.registry.size,
      fun {t tr} ht => by simp [hlookup] at ht⟩
  · obtain ⟨hstate, hrec, ha⟩ := h.recording r (by rw [hun.js] at hr; exact hr)
    refine ⟨by rw [hun.js]; exact hstate, ?_, ?_⟩
    · exact ⟨hlookup _, hrec.pos, hlen ▸ hrec.range, hrec.start⟩
    · rw [Abortable, hun.js]
      exact fun h0 p hp => hun.settled ((ha h0 p hp).congr rfl)

end Flush

section Runs
variable {prog : Program} {s s' : State}

/-- Counting an exit changes no start. -/
theorem Inv.count (h : Inv prog s) {f : GCtrace → GCtrace} (hf : ∀ tr, (f tr).start = tr.start)
    (t : TraceNo) : Inv prog { s with js := s.js.modifyTrace t f } := by
  refine ⟨h.linked.modifyTrace hf t, fun r hr => ?_⟩
  obtain ⟨hstate, hrec, ha⟩ := h.recording r hr
  refine ⟨hstate, ⟨?_, hrec.pos, ?_, hrec.start⟩, ha⟩
  · have hstart : ((s.js.modifyTrace t f).lookup r.cur.traceno).map GCtrace.start =
        (s.js.lookup r.cur.traceno).map GCtrace.start := lookup_modifyTrace hf t _
    rwa [hrec.fresh, Option.map_none, Option.map_eq_none_iff] at hstart
  · exact Nat.lt_of_lt_of_eq hrec.range (length_modifyTrace f t).symm

theorem Inv.traceExit {traceno : TraceNo} {exitno rnd : ℕ} {setup : Setup} (h : Inv prog s)
    (hs : s.traceExit traceno exitno setup rnd = some s') : Inv prog s' := by
  simp only [State.traceExit, Option.bind_eq_bind, Option.bind_eq_some_iff] at hs
  obtain ⟨tr, -, snap, -, hs⟩ := hs
  have hc := h.count (f := fun t => { t with snap := t.snap.modify exitno fun sn =>
    { sn with count := snap.count + 1 } }) (fun _ => rfl) traceno
  split_ifs at hs
  · obtain rfl := Option.some.inj hs
    exact h
  · obtain rfl := Option.some.inj hs
    exact hc
  · exact hc.traceFlushBlacklist hs
  · exact hc.traceHotSide hs
  · obtain rfl := Option.some.inj hs
    exact hc

/-- Every event keeps the invariant. -/
theorem Inv.step {e : Event} (h : Inv prog s) (hs : s.step e = some s') : Inv prog s' := by
  cases e with
  | hot p pc setup rnd =>
    simp only [State.step, Option.bind_eq_bind, Option.bind_eq_some_iff] at hs
    obtain ⟨i, hi, hs⟩ := hs
    split_ifs at hs with hot
    exact h.traceHot hi hot hs
  | exit traceno exitno setup rnd => exact h.traceExit hs
  | stop snap lnk =>
    simp only [State.step, Option.bind_eq_bind, Option.bind_eq_some_iff] at hs
    obtain ⟨r, hr, hs⟩ := hs
    exact h.traceStop hr hs
  | fail e long snap rnd =>
    simp only [State.step, Option.bind_eq_bind, Option.bind_eq_some_iff] at hs
    obtain ⟨r, hr, hs⟩ := hs
    split_ifs at hs
    · exact h.traceStop hr hs
    · exact h.linked.abortWith (h.recording r hr).2.2 hs
  | flushBlacklist traceno => exact h.traceFlushBlacklist hs
  | flushAll =>
    obtain ⟨s₁, hs₁, hinv, -⟩ := h.traceFlushAll
    obtain rfl : s₁ = s' := Option.some.inj (hs₁.symm.trans hs)
    exact hinv

theorem Program.start_inv (prog : Program) : Inv prog prog.start := by
  refine ⟨⟨⟨fun hc => hc, fun hc => ⟨_, hc, .kept⟩⟩, ?_⟩, fun r hr => by simp [Program.start, JitState.new] at hr⟩
  refine ⟨rfl, Nat.one_pos, Nat.succ_le_succ (Nat.zero_le _), fun {t tr} ht => ?_⟩
  cases t <;> simp [Program.start, JitState.new, JitState.lookup] at ht

/-- The states a run of events reaches. -/
inductive Reached (prog : Program) : State → Prop
  | start : Reached prog prog.start
  | step {s s' : State} {e : Event} (h : Reached prog s) (hs : s.step e = some s') : Reached prog s'

theorem Reached.inv (h : Reached prog s) : Inv prog s := by
  induction h with
  | start => exact prog.start_inv
  | step _ hs ih => exact ih.step hs

/-- What holds of the bytecode between any two events. -/
structure Patching (prog : Program) (s : State) : Prop where
  /-- Every instruction is the compiled one or a variant it can be restored from. -/
  shows : ∀ {p} {pc : ℕ} {i}, (prog.code p)[pc]? = some i →
    ∃ i', s.ins p pc = some i' ∧ Shows prog (Names s.js) s p pc i i'
  /-- Nothing is added. -/
  length : ∀ {p} {pc : ℕ}, (prog.code p)[pc]? = none → s.ins p pc = none
  /-- A JIT variant other than a loop head names the live trace that starts there. -/
  live : ∀ {p pc i'}, s.ins p pc = some i' → i'.op.isJit → i'.op ≠ .jfori →
    ∃ tr, s.js.lookup i'.d.toNat = some tr ∧ tr.startpt = p ∧ tr.startpc = pc ∧
      (prog.code p)[pc]? = some tr.startins
  /-- A patched loop head keeps its jump, which leads to a loop end that enters a trace. -/
  head : ∀ {p pc i'}, s.ins p pc = some i' → i'.op = .jfori →
    ∃ (e : ℕ) (l : BCIns), (e : ℤ) = pc + i'.bcJ ∧ s.ins p e = some l ∧ l.op = .jforl
  /-- Flushing every trace succeeds and leaves no JIT variant. -/
  flush : ∃ s', s.traceFlushAll = some s' ∧ ∀ p pc i', s'.ins p pc = some i' → i'.op.isJit = false

theorem Registry.lt_of_lookup {js : JitState} (h : Registry prog js) {t : TraceNo} {tr : GCtrace}
    (ht : js.lookup t = some tr) : t < 65536 := by
  have hlt := (List.getElem?_eq_some_iff.mp (lookup_eq_some.mp ht)).1
  have hsize := h.size
  unfold maxtrace at hsize
  exact Nat.lt_of_lt_of_le hlt (by omega)

/-- In every run the patched bytecode stays restorable and leads into live traces. -/
theorem reached_patching (h : Reached prog s) : Patching prog s := by
  have hcode := h.inv.linked.coded
  have hreg := h.inv.linked.registry
  constructor
  · exact hcode.shows
  · exact hcode.none
  · intro p pc i' hi hjit hne
    obtain ⟨i, hc, hs⟩ := hcode.exists_code hi
    cases hs with
    | kept => exact absurd hjit (by simp [(prog.plain_of hc).1])
    | interp hot => exact absurd hjit (by simpa [BCIns.setOp] using (BCOp.offset_one hot).2.1)
    | entry => exact absurd rfl hne
    | compiled t hot named =>
      obtain ⟨tr, htr, -, hpt, hpc, rfl⟩ := named
      have hlt := hreg.lt_of_lookup htr
      refine ⟨tr, ?_, hpt, hpc, hc⟩
      rwa [BCIns.setD, UInt16.toNat_ofNat', Nat.mod_eq_of_lt hlt]
  · intro p pc i' hi hop
    obtain ⟨i, hc, hs⟩ := hcode.exists_code hi
    cases hs with
    | kept => exact absurd (prog.plain_of hc).1 (by simp [hop, BCOp.isJit])
    | interp hot => exact absurd (BCOp.offset_one hot).2.1 (by
        rw [show i.op.offset 1 = .jfori from hop]
        decide)
    | entry e l head tail loop pair enters =>
      obtain ⟨t, ht, -⟩ := enters
      obtain ⟨f, j, hf, hj, -, hjump⟩ := prog.paired tail loop
      obtain rfl : f = pc := by omega
      obtain rfl : j = i := by simpa [hj] using hc
      exact ⟨e, _, hjump, ht, by rw [loop]; rfl⟩
    | compiled t hot => exact absurd hop (BCOp.offset_two hot).2.2.2
  · obtain ⟨s', hs', -, hclean⟩ := h.inv.traceFlushAll
    exact ⟨s', hs', hclean⟩

/-- One numeric loop: a function header, the loop head, a body instruction and the loop end. -/
def oneLoop : Program where
  code p := if p = 0 then
    [⟨.funcf, 0, 0⟩, ⟨.fori, 0, 0x8002⟩, ⟨.other 18, 0, 0⟩, ⟨.forl, 0, 0x7ffe⟩] else []
  nojit _ := false
  plain p i hi := by
    split_ifs at hi
    · fin_cases hi <;> decide
    · simp at hi
  paired {p pc i} hi hop := by
    split_ifs at hi with hp
    · match pc with
      | 0 | 1 | 2 => simp at hi; subst hi; simp at hop
      | 3 => simp at hi; subst hi; exact ⟨1, _, by decide, by rw [if_pos hp]; rfl, rfl, by decide⟩
      | pc+4 => simp at hi
    · simp at hi

/-- The compiled loop, once its trace is finished. -/
def oneLoopCompiled : Option State := do
  let s ← oneLoop.start.step (.hot 0 3 none 0)
  s.step (.stop [] 1)

theorem oneLoop_reached {s : State} (h : oneLoopCompiled = some s) : Reached oneLoop s := by
  simp only [oneLoopCompiled, Option.bind_eq_bind, Option.bind_eq_some_iff] at h
  obtain ⟨s₁, h₁, h₂⟩ := h
  exact .step (.step .start h₁) h₂

/-- The operand of a patched loop head is a jump and names no trace. -/
theorem loop_head_not_live : ¬ ∀ (prog : Program) (s : State), Reached prog s →
    ∀ p pc i', s.ins p pc = some i' → i'.op.isJit →
      ∃ tr, s.js.lookup i'.d.toNat = some tr ∧ tr.startpt = p ∧ tr.startpc = pc := by
  intro hall
  cases hs : oneLoopCompiled with
  | none => exact absurd (congrArg Option.isSome hs) (by decide)
  | some s =>
    have hins : s.ins 0 1 = some ⟨.jfori, 0, 0x8002⟩ := by
      have : oneLoopCompiled.bind (·.ins 0 1) = some ⟨.jfori, 0, 0x8002⟩ := by decide
      simpa [hs] using this
    obtain ⟨tr, htr, -⟩ := hall oneLoop s (oneLoop_reached hs) 0 1 _ hins rfl
    have hnone : oneLoopCompiled.bind (fun s => (s.js.lookup 0x8002).map (·.startpc)) = none := by decide
    rw [hs, Option.bind_some] at hnone
    rw [show (0x8002 : UInt16).toNat = 0x8002 from rfl] at htr
    simp [htr] at hnone

/-- The compiled loop is a state of a run, and its patches are in order. -/
theorem reached_patching_loop : ∃ s, oneLoopCompiled = some s ∧ Patching oneLoop s := by
  cases hs : oneLoopCompiled with
  | none => exact absurd (congrArg Option.isSome hs) (by decide)
  | some s => exact ⟨s, rfl, reached_patching (oneLoop_reached hs)⟩

end Runs

end LuajitRs.Jit
