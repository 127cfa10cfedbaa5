import LuajitRs.Jit.Patch
import Mathlib.Tactic.SplitIfs

/-! What a patched prototype can look like: every instruction is the compiled one, its interpreted
variant, or a link into a registered trace from which the compiled one can be restored. -/
namespace LuajitRs.Jit

/-- Bytecode as the compiler emits it: no patched opcode, and every numeric loop end jumps back over a
loop head that jumps over it. -/
structure Program where
  code : ProtoRef → List BCIns
  nojit : ProtoRef → Bool
  plain : ∀ p, ∀ i ∈ code p, i.op.isJit = false ∧ i.op.isInterp = false
  paired : ∀ {p} {pc : ℕ} {i}, (code p)[pc]? = some i → i.op = .forl → ∃ (f : ℕ) (j : BCIns),
    (f : ℤ) = pc + i.bcJ ∧ (code p)[f]? = some j ∧ j.op = .fori ∧ (pc : ℤ) = f + j.bcJ

/-- The prototypes as loaded, with no trace compiled. -/
def Program.start (prog : Program) : State where
  protos p := ⟨prog.code p, prog.nojit p, false⟩
  js := .new

namespace BCOp
variable {o : BCOp}

theorem isHot_iff : o.isHot ↔ o = forl ∨ o = loop ∨ o = iterl ∨ o = funcf := by
  simp [isHot, or_assoc]

/-- The interpreted variant follows its counting instruction. -/
theorem offset_one (h : o.isHot) :
    (o.offset 1).isInterp ∧ (o.offset 1).isJit = false ∧ (o.offset 1).isHot = false := by
  rcases isHot_iff.mp h with rfl | rfl | rfl | rfl <;> decide

/-- The JIT variant comes two after its counting instruction. -/
theorem offset_two (h : o.isHot) :
    (o.offset 2).isJit ∧ (o.offset 2).isInterp = false ∧ (o.offset 2).isHot = false ∧
      o.offset 2 ≠ .jfori := by
  rcases isHot_iff.mp h with rfl | rfl | rfl | rfl <;> decide

end BCOp

/-- Which trace numbers stand for which instructions. -/
abbrev Naming := TraceNo → ProtoRef → ℕ → BCIns → Prop

section Shows
variable (prog : Program) (N : Naming) (s : State) (p : ProtoRef)

/-- The instruction at `e` enters a trace that stands for it. -/
def Enters (e : ℕ) (l : BCIns) : Prop :=
  ∃ t, s.ins p e = some ((l.setOp (l.op.offset 2)).setD t) ∧ N t p e l

/-- The forms in which the instruction `i` at `pc` may be found. -/
inductive Shows (pc : ℕ) (i : BCIns) : BCIns → Prop
  | kept : Shows pc i i
  | interp (hot : i.op.isHot) : Shows pc i (i.setOp (i.op.offset 1))
  | entry (e : ℕ) (l : BCIns) (head : i.op = .fori) (tail : (prog.code p)[e]? = some l)
      (loop : l.op = .forl) (pair : (pc : ℤ) = e + l.bcJ) (enters : Enters N s p e l) :
      Shows pc i (i.setOp .jfori)
  | compiled (t : TraceNo) (hot : i.op.isHot) (named : N t p pc i) :
      Shows pc i ((i.setOp (i.op.offset 2)).setD t)

/-- All bytecode is in a permitted form. -/
structure Coded : Prop where
  none : ∀ {p} {pc : ℕ}, (prog.code p)[pc]? = none → s.ins p pc = none
  shows : ∀ {p} {pc : ℕ} {i}, (prog.code p)[pc]? = some i → ∃ i', s.ins p pc = some i' ∧ Shows prog N s p pc i i'

end Shows

section Forms
variable {prog : Program} {N N' : Naming} {s s' : State} {p q : ProtoRef} {pc k : ℕ} {i i' : BCIns}

theorem Shows.mono (h : Shows prog N s p pc i i')
    (hN : ∀ t, i.op.isHot → N t p pc i → N' t p pc i)
    (hE : ∀ (e : ℕ) l, (prog.code p)[e]? = some l → l.op = .forl → (pc : ℤ) = e + l.bcJ →
      Enters N s p e l → Enters N' s' p e l) :
    Shows prog N' s' p pc i i' := by
  cases h with
  | kept => exact .kept
  | interp hot => exact .interp hot
  | entry e l head tail loop pair enters =>
    exact .entry e l head tail loop pair (hE e l tail loop pair enters)
  | compiled t hot named => exact .compiled t hot (hN t hot named)

theorem Coded.exists_code (h : Coded prog N s) (hi : s.ins p pc = some i') :
    ∃ i, (prog.code p)[pc]? = some i ∧ Shows prog N s p pc i i' := by
  cases hc : (prog.code p)[pc]? with
  | none => exact absurd (h.none hc) (by simp [hi])
  | some i =>
    obtain ⟨j, hj, hs⟩ := h.shows hc
    obtain rfl : j = i' := by simpa [hj] using hi
    exact ⟨i, rfl, hs⟩

theorem Program.plain_of (prog : Program) (hi : (prog.code p)[pc]? = some i) :
    i.op.isJit = false ∧ i.op.isInterp = false :=
  prog.plain p i (List.mem_of_getElem? hi)

/-- A counting instruction is found unpatched. -/
theorem Coded.of_hot (h : Coded prog N s) (hi : s.ins p pc = some i') (hot : i'.op.isHot) :
    (prog.code p)[pc]? = some i' := by
  obtain ⟨i, hc, hs⟩ := h.exists_code hi
  cases hs with
  | kept => exact hc
  | interp hi' => exact absurd hot (by simpa [BCIns.setOp] using (BCOp.offset_one hi').2.2)
  | entry e l head => exact absurd hot (by simp [BCIns.setOp, BCOp.isHot])
  | compiled t hi' =>
    exact absurd hot (by simpa [BCIns.setOp, BCIns.setD] using (BCOp.offset_two hi').2.2.1)

/-- No trace is entered at `pc`: the instruction there is the compiled one or its interpreted variant. -/
def Settled (prog : Program) (s : State) (p : ProtoRef) (pc : ℕ) : Prop :=
  ∃ i, (prog.code p)[pc]? = some i ∧ i.op.isHot ∧
    (s.ins p pc = some i ∨ s.ins p pc = some (i.setOp (i.op.offset 1)))

theorem Settled.not_enters (h : Settled prog s p pc) (hi : (prog.code p)[pc]? = some i) :
    ¬ Enters N s p pc i := by
  rintro ⟨t, ht, _⟩
  obtain ⟨j, hj, hot, hins⟩ := h
  obtain rfl : j = i := by simpa [hj] using hi
  have h₁ := BCOp.offset_one hot
  have h₂ := BCOp.offset_two hot
  rcases hins with hins | hins
  · have hop := congrArg BCIns.op (Option.some.inj (hins.symm.trans ht))
    rw [show j.op = j.op.offset 2 from hop] at hot
    simp [h₂.2.2.1] at hot
  · have hop := congrArg BCIns.op (Option.some.inj (hins.symm.trans ht))
    rw [show j.op.offset 1 = j.op.offset 2 from hop] at h₁
    simp [h₂.1] at h₁

end Forms

/-! Writing instructions. -/

/-- `s'` is `s` with the instruction `i` written at one place. -/
structure Written (s s' : State) (p : ProtoRef) (pc : ℕ) (i : BCIns) : Prop where
  js : s'.js = s.js
  self : s'.ins p pc = some i
  other : ∀ {q k}, (q = p → k ≠ pc) → s'.ins q k = s.ins q k

namespace State
variable {s s' : State} {p : ProtoRef} {pc : ℕ} {i i₀ : BCIns}

theorem setIns_written (h : s.setIns p pc i = some s') : Written s s' p pc i := by
  unfold setIns at h
  split_ifs at h with hlt
  obtain rfl := Option.some.inj h
  refine ⟨rfl, ?_, ?_⟩
  · simp [ins, hlt]
  · intro q k hk
    by_cases hq : q = p
    · subst hq
      simp [ins, List.getElem?_set_ne (Ne.symm (hk rfl))]
    · simp [ins, Function.update_of_ne hq]

theorem exists_setIns (h : s.ins p pc = some i₀) : ∃ s', s.setIns p pc i = some s' := by
  have hlt : pc < (s.protos p).bc.length := (List.getElem?_eq_some_iff.mp h).1
  exact ⟨_, if_pos hlt⟩

theorem setOp_eq (h : s.ins p pc = some i₀) (o : BCOp) : s.setOp p pc o = s.setIns p pc (i₀.setOp o) := by
  simp [setOp, h]

@[simp] theorem ins_setIloop (q : ProtoRef) (k : ℕ) : (s.setIloop p).ins q k = s.ins q k := by
  by_cases hq : q = p
  · subst hq; simp [setIloop, ins]
  · simp [setIloop, ins, Function.update_of_ne hq]

@[simp] theorem ins_setNojit (q : ProtoRef) (k : ℕ) : (s.setNojit p).ins q k = s.ins q k := by
  by_cases hq : q = p
  · subst hq; simp [setNojit, ins]
  · simp [setNojit, ins, Function.update_of_ne hq]

@[simp] theorem js_setIloop : (s.setIloop p).js = s.js := rfl
@[simp] theorem js_setNojit : (s.setNojit p).js = s.js := rfl

end State

section Write
variable {prog : Program} {N N' : Naming} {s s' : State} {p : ProtoRef} {pc : ℕ} {i : BCIns}

/-- Rewriting the instructions in `W`: each has a permitted form afterwards, the names of the others
stay, and no other loop head leads to a rewritten loop end. -/
theorem Coded.rewrite (h : Coded prog N s) (W : ProtoRef → ℕ → Prop)
    (hsame : ∀ q k, ¬ W q k → s'.ins q k = s.ins q k)
    (hW : ∀ q k, W q k → ∃ i i', (prog.code q)[k]? = some i ∧ s'.ins q k = some i' ∧
      Shows prog N' s' q k i i')
    (hN : ∀ t q k i, ¬ W q k → N t q k i → N' t q k i)
    (hE : ∀ q (k e : ℕ) l, ¬ W q k → (prog.code q)[e]? = some l → l.op = .forl →
      (k : ℤ) = e + l.bcJ → Enters N s q e l → ¬ W q e) : Coded prog N' s' where
  none {q k} hc := by
    by_cases hk : W q k
    · obtain ⟨i, _, hi, _⟩ := hW q k hk
      simp [hc] at hi
    · exact (hsame q k hk).trans (h.none hc)
  shows {q k i} hc := by
    by_cases hk : W q k
    · obtain ⟨j, i', hj, hi', hs⟩ := hW q k hk
      obtain rfl : j = i := by simpa [hj] using hc
      exact ⟨i', hi', hs⟩
    · obtain ⟨i', hi', hs⟩ := h.shows hc
      refine ⟨i', (hsame q k hk).trans hi', hs.mono (fun t _ => hN t q k i hk) ?_⟩
      intro e l hl hop pair henters
      have he := hE q k e l hk hl hop pair henters
      obtain ⟨t, ht, hn⟩ := henters
      exact ⟨t, (hsame q e he).trans ht, hN t q e l he hn⟩

/-- Only the instructions matter, and the names. -/
theorem Coded.congr (h : Coded prog N s) (hi : ∀ q k, s'.ins q k = s.ins q k)
    (hN : ∀ t q k j, N t q k j → N' t q k j) : Coded prog N' s' := by
  apply h.rewrite (fun _ _ => False)
  · exact fun q k _ => hi q k
  · exact fun _ _ h => h.elim
  · exact fun t q k j _ => hN t q k j
  · exact fun _ _ _ _ _ _ _ _ _ h => h

/-- Settled places stay settled, and the compiler state is not touched. -/
structure Unpatched (prog : Program) (s s' : State) : Prop where
  js : s'.js = s.js
  settled : ∀ {p pc}, Settled prog s p pc → Settled prog s' p pc

theorem Unpatched.trans {s₁ s₂ s₃ : State} (h : Unpatched prog s₁ s₂) (h' : Unpatched prog s₂ s₃) :
    Unpatched prog s₁ s₃ :=
  ⟨h'.js.trans h.js, fun hs => h'.settled (h.settled hs)⟩

theorem Settled.congr {p pc} (h : Settled prog s p pc) (hi : s'.ins p pc = s.ins p pc) :
    Settled prog s' p pc := by
  obtain ⟨i, hc, hot, hins⟩ := h
  exact ⟨i, hc, hot, by rwa [hi]⟩

/-- A settled instruction may become its interpreted variant. -/
theorem Coded.interp (h : Coded prog N s) (hset : Settled prog s p pc)
    (hi : (prog.code p)[pc]? = some i) (hot : i.op.isHot)
    (hw : Written s s' p pc (i.setOp (i.op.offset 1))) :
    Coded prog N s' ∧ Unpatched prog s s' := by
  constructor
  · apply h.rewrite (fun q k => q = p ∧ k = pc)
    · exact fun q k hk => hw.other fun hq hkk => hk ⟨hq, hkk⟩
    · rintro q k ⟨rfl, rfl⟩
      exact ⟨i, _, hi, hw.self, .interp hot⟩
    · exact fun _ _ _ _ _ => id
    · rintro q k e l - hl - - henters ⟨rfl, rfl⟩
      exact hset.not_enters hl henters
  · refine ⟨hw.js, fun {q k} hs => ?_⟩
    by_cases hk : q = p ∧ k = pc
    · obtain ⟨rfl, rfl⟩ := hk
      exact ⟨i, hi, hot, .inr hw.self⟩
    · exact hs.congr (hw.other fun hq hkk => hk ⟨hq, hkk⟩)

/-- Blacklisting a settled instruction makes it the interpreted variant. -/
theorem Coded.blacklistPc (h : Coded prog N s) (hset : Settled prog s p pc) :
    ∃ s', s.blacklistPc p pc = some s' ∧ Coded prog N s' ∧ Unpatched prog s s' := by
  obtain ⟨i, hc, hot, hins⟩ := id hset
  rcases hins with hins | hins
  · obtain ⟨s₁, hs₁⟩ := State.exists_setIns (i := i.setOp (i.op.offset 1)) hins
    obtain ⟨hcode, hun⟩ := h.interp hset hc hot (State.setIns_written hs₁)
    refine ⟨s₁.setIloop p, ?_, ?_, ?_⟩
    · rcases BCOp.isHot_iff.mp hot with hop | hop | hop | hop <;> rw [hop] at hs₁ <;>
        simp [State.blacklistPc, hins, hop, State.setOp_eq hins, hs₁]
    · exact hcode.congr (fun _ _ => by simp) fun _ _ _ _ => id
    · exact ⟨hun.js, fun hs => (hun.settled hs).congr (by simp)⟩
  · refine ⟨s, ?_, h, rfl, id⟩
    rcases BCOp.isHot_iff.mp hot with hop | hop | hop | hop <;>
      simp [State.blacklistPc, hins, hop, BCIns.setOp, BCOp.offset, BCOp.code, BCOp.ofCode]

/-- A registered root trace knows the instruction it starts at. -/
def Rooted (prog : Program) (tr : GCtrace) : Prop :=
  (prog.code tr.startpt)[tr.startpc]? = some tr.startins ∧ tr.startins.op.isHot

theorem Shows.patch {i' : BCIns} (h : Shows prog N s p pc i i') (hot : i.op.isHot) (o : BCOp) (t : ℕ) :
    (i'.setOp o).setD t = (i.setOp o).setD t := by
  cases h with
  | entry e l head => exact absurd hot (by simp [head, BCOp.isHot])
  | _ => rfl

theorem Shows.head {i' : BCIns} (h : Shows prog N s p pc i i') (hop : i.op = .fori) (o : BCOp) :
    i'.setOp o = i.setOp o := by
  cases h with
  | interp hot => exact absurd hot (by simp [hop, BCOp.isHot])
  | compiled t hot => exact absurd hot (by simp [hop, BCOp.isHot])
  | _ => rfl

/-- The places a root trace patches: its start, and for a numeric loop the loop head before it. -/
def Place (tr : GCtrace) (q : ProtoRef) (k : ℕ) : Prop :=
  q = tr.startpt ∧ (k = tr.startpc ∨ tr.startins.op = .forl ∧ (k : ℤ) = tr.startpc + tr.startins.bcJ)

/-- A loop head outside the places of a trace does not lead to one of them. -/
theorem Rooted.not_place {tr : GCtrace} {q : ProtoRef} {k e : ℕ} {l : BCIns} (hr : Rooted prog tr)
    (hk : ¬ Place tr q k) (hl : (prog.code q)[e]? = some l) (hop : l.op = .forl)
    (pair : (k : ℤ) = e + l.bcJ) : ¬ Place tr q e := by
  rintro ⟨rfl, rfl | ⟨hfor, he⟩⟩
  · obtain rfl : l = tr.startins := by simpa [hl] using hr.1
    exact hk ⟨rfl, .inr ⟨hop, pair⟩⟩
  · obtain ⟨f, j, hf, hj, hjop, -⟩ := prog.paired hr.1 hfor
    obtain rfl : e = f := by omega
    obtain rfl : l = j := by simpa [hl] using hj
    simp [hjop] at hop

theorem index_natCast (k : ℕ) : State.index (k : ℤ) = some k := by simp [State.index]

/-- Writing one opcode at the loop head and one instruction at the start, as patching and reverting do. -/
theorem Coded.places {tr : GCtrace} (h : Coded prog N s) (hr : Rooted prog tr) (o : BCOp) (i' : BCIns) :
    ∃ s₁ s', s.patchHead tr o = some s₁ ∧
      s₁.ins tr.startpt tr.startpc = s.ins tr.startpt tr.startpc ∧
      s₁.setIns tr.startpt tr.startpc i' = some s' ∧ s'.js = s.js ∧
      (∀ q k, ¬ Place tr q k → s'.ins q k = s.ins q k) ∧ s'.ins tr.startpt tr.startpc = some i' ∧
      (tr.startins.op = .forl → ∃ (f : ℕ) (j : BCIns), (f : ℤ) = tr.startpc + tr.startins.bcJ ∧
        (prog.code tr.startpt)[f]? = some j ∧ j.op = .fori ∧ s'.ins tr.startpt f = some (j.setOp o)) := by
  obtain ⟨i₀, hi₀, -⟩ := h.shows hr.1
  unfold State.patchHead
  split_ifs with hop
  · obtain ⟨f, j, hf, hj, hjop, -⟩ := prog.paired hr.1 hop
    obtain ⟨j', hj', hs⟩ := h.shows hj
    have hne : tr.startpc ≠ f := by
      rintro rfl
      obtain rfl : j = tr.startins := by simpa [hj] using hr.1
      simp [hjop] at hop
    obtain ⟨s₁, hs₁⟩ := State.exists_setIns (i := j'.setOp o) hj'
    have w₁ := State.setIns_written hs₁
    have hpc : s₁.ins tr.startpt tr.startpc = s.ins tr.startpt tr.startpc := w₁.other fun _ => hne
    obtain ⟨s', hs'⟩ := State.exists_setIns (i := i') (hpc.trans hi₀)
    have w := State.setIns_written hs'
    refine ⟨s₁, s', ?_, hpc, hs', w.js.trans w₁.js, ?_, w.self, fun _ => ⟨f, j, hf, hj, hjop, ?_⟩⟩
    · rw [← hf, index_natCast, Option.bind_eq_bind, Option.bind_some, State.setOp_eq hj', hs₁]
    · intro q k hk
      rw [w.other fun hq hkk => hk ⟨hq, .inl hkk⟩,
        w₁.other fun hq hkk => hk ⟨hq, .inr ⟨hop, by rw [hkk, hf]⟩⟩]
    · rw [w.other fun _ hkk => hne hkk.symm, w₁.self, hs.head hjop]
  · obtain ⟨s', hs'⟩ := State.exists_setIns (i := i') hi₀
    have w := State.setIns_written hs'
    exact ⟨s, s', rfl, rfl, hs', w.js, fun q k hk => w.other fun hq hkk => hk ⟨hq, .inl hkk⟩, w.self,
      fun hop' => absurd hop' hop⟩

/-- Reverting a root trace gives its places their compiled instructions back. -/
theorem Coded.revert {tr : GCtrace} (h : Coded prog N s) (hr : Rooted prog tr)
    (hN : ∀ t q k i, ¬ (q = tr.startpt ∧ k = tr.startpc) → N t q k i → N' t q k i) :
    ∃ s', s.revert tr = some s' ∧ Coded prog N' s' ∧ Unpatched prog s s' ∧
      Settled prog s' tr.startpt tr.startpc := by
  obtain ⟨s₁, s', hhead, -, hstart, hjs, hsame, hself, hfori⟩ := h.places hr .fori tr.startins
  have hset : Settled prog s' tr.startpt tr.startpc := ⟨tr.startins, hr.1, hr.2, .inl hself⟩
  refine ⟨s', ?_, ?_, ⟨hjs, fun {q k} hs => ?_⟩, hset⟩
  · simp only [State.revert, hhead, Option.bind_eq_bind, Option.bind_some, hstart]
  · apply h.rewrite (Place tr) hsame
    · rintro q k ⟨rfl, rfl | ⟨hop, hk⟩⟩
      · exact ⟨_, _, hr.1, hself, .kept⟩
      · obtain ⟨f, j, hf, hj, hjop, hins⟩ := hfori hop
        obtain rfl : k = f := by omega
        refine ⟨j, _, hj, hins, ?_⟩
        rw [show j.setOp .fori = j by rw [← hjop]; rfl]
        exact .kept
    · exact fun t q k i hk => hN t q k i fun ⟨hq, hkk⟩ => hk ⟨hq, .inl hkk⟩
    · exact fun q k e l hk hl hop pair _ => hr.not_place hk hl hop pair
  · by_cases hk : q = tr.startpt ∧ k = tr.startpc
    · obtain ⟨rfl, rfl⟩ := hk
      exact hset
    · apply hs.congr (hsame q k _)
      rintro ⟨hq, hkk | ⟨hop, hkk⟩⟩
      · exact hk ⟨hq, hkk⟩
      · obtain ⟨f, j, hf, hj, hjop, -⟩ := hfori hop
        obtain rfl : k = f := by omega
        obtain ⟨i, hi, hot, -⟩ := hs
        obtain rfl : i = j := by simpa [hq, hj] using hi.symm
        simp [hjop, BCOp.isHot] at hot

/-- Linking a finished root trace into the bytecode. -/
theorem Coded.patchRoot {tr : GCtrace} (h : Coded prog N s) (hr : Rooted prog tr)
    (hN : ∀ t q k i, N t q k i → N' t q k i) (hnew : N' tr.traceno tr.startpt tr.startpc tr.startins) :
    ∃ s', s.patchRoot tr = some s' ∧ Coded prog N' s' ∧ s'.js = s.js := by
  obtain ⟨i₀, hi₀, hs₀⟩ := h.shows hr.1
  obtain ⟨s₁, s', hhead, hpc, hstart, hjs, hsame, hself, hfori⟩ := h.places hr .jfori
    ((tr.startins.setOp (tr.startins.op.offset 2)).setD tr.traceno)
  refine ⟨s', ?_, ?_, hjs⟩
  · simp only [State.patchRoot, hhead, Option.bind_eq_bind, Option.bind_some, hpc, hi₀]
    rw [hs₀.patch hr.2]
    exact hstart
  · apply h.rewrite (Place tr) hsame
    · rintro q k ⟨rfl, rfl | ⟨hop, hk⟩⟩
      · exact ⟨_, _, hr.1, hself, .compiled tr.traceno hr.2 hnew⟩
      · obtain ⟨f, j, hf, hj, hjop, hins⟩ := hfori hop
        obtain rfl : k = f := by omega
        exact ⟨j, _, hj, hins, .entry tr.startpc tr.startins hjop hr.1 hop hk ⟨_, hself, hnew⟩⟩
    · exact fun t q k i _ => hN t q k i
    · exact fun q k e l hk hl hop pair _ => hr.not_place hk hl hop pair

end Write

end LuajitRs.Jit
