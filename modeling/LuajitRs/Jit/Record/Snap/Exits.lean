import LuajitRs.Jit.Record.Snap.Runs
import LuajitRs.Jit.Frame

/-! Exits of a recorded trace. The snapshot of an exit is the last one at or below the failing guard; the run
passed through it, and what it did since left tables, upvalues and the outside world alone. -/
namespace LuajitRs.Ir
open Lib.Checkpoint

variable {H : Type} {R : Runtime H} {tr : Trace} {buf : IrBuf} {m m' c c' : Machine H} {ins : IRIns} {e : Effect H}

/-- Only `jit_uset`, foreign calls that get as far as the call, and the buffer change what `obs` sees of the
runtime: upvalues, the calls made so far, the buffer. -/
structure Quiet {α : Type} (R : Runtime H) (obs : H → α) : Prop where
  call : ∀ idx args w, idx ≠ 10 → idx ≠ 13 → obs (R.call idx args w).1 = obs w.rest
  ffi : ∀ args w, typecheck (R.call 13 args w).2 .num = false → obs (R.call 13 args w).1 = obs w.rest
  cnew : ∀ x y h, obs (R.cnew x y h).1 = obs h

/-- What is observable of a world has not changed: the tables that were there, and the runtime. -/
structure Unchanged (R : Runtime H) (w w' : World H) : Prop where
  tables : ∀ a, (w.tables a).isSome → w'.tables a = w.tables a
  rest : ∀ {α : Type} (obs : H → α), Quiet R obs → obs w'.rest = obs w.rest

theorem Unchanged.refl (w : World H) : Unchanged R w w := ⟨fun _ _ => rfl, fun _ _ => rfl⟩

theorem Unchanged.trans {w w' w'' : World H} (h : Unchanged R w w') (h' : Unchanged R w' w'') : Unchanged R w w'' := by
  refine ⟨fun a ha => ?_, fun obs hq => (h'.rest obs hq).trans (h.rest obs hq)⟩
  have heq := h.tables a ha
  rw [h'.tables a (by rw [heq]; exact ha), heq]

/-! ### Instructions without an effect -/

theorem unchanged_alloc {w w' : World H} {a : ℕ} {t : LuaTable} (h : w.alloc a t = some w') : Unchanged R w w' := by
  rw [World.alloc] at h
  split at h
  · next hnone =>
    obtain rfl := Option.some.inj h
    refine ⟨fun b hb => Function.update_of_ne ?_ _ _, fun _ _ => rfl⟩
    intro hba
    rw [hba, Option.isNone_iff_eq_none.mp hnone] at hb
    cases hb
  · cases h

/-- Helper calls, allocations and the buffer aside, an instruction leaves the runtime alone. -/
theorem evalIns_rest (hop : ins.op ≠ .calll ∧ ins.op ≠ .cnew ∧ ins.op ≠ .bufhdr ∧ ins.op ≠ .bufput ∧ ins.op ≠ .bufstr)
    (htab : isTableWrite ins.op = false) (h : evalIns R buf m ins = some e) : e.world.rest = m.world.rest := by
  rcases ins with ⟨op, t, op1, op2, prev⟩
  simp only [isTableWrite] at htab hop
  cases op
  all_goals first | (cases h; done) | (simp at htab; done) | (simp at hop; done) | skip
  all_goals
    simp only [evalIns, Option.bind_eq_bind, Option.bind_eq_some_iff, Option.pure_def, Option.some.injEq] at h
  all_goals first
    | (subst h; rfl)
    | (obtain ⟨x, -, rfl⟩ := h
       first | rfl | exact congrArg _ (evalConv_world _))
    | (obtain ⟨x, -, y, -, rfl⟩ := h; rfl)
    | (obtain ⟨x, -, y, -, z, -, rfl⟩ := h; rfl)
    | (obtain ⟨x, -, y, -, h⟩ := h
       first | exact congrArg _ (evalHload_world h) | exact congrArg _ (evalAload_world h))
    | (obtain ⟨x, -, h⟩ := h; exact congrArg _ (evalFload_world h))

theorem evalIns_unchanged (heff : effectful ins = false) (h : evalIns R buf m ins = some e) :
    Unchanged R m.world e.world := by
  by_cases htab : isTableWrite ins.op = false
  · refine ⟨fun a _ => congrFun (evalIns_tables htab h) a, fun obs hq => ?_⟩
    by_cases hop : ins.op ≠ .calll ∧ ins.op ≠ .cnew
    · refine congrArg obs (evalIns_rest ⟨hop.1, hop.2, ?_, ?_, ?_⟩ htab h)
      all_goals
        intro hb
        simp [effectful, hb] at heff
    · rw [not_and_or, not_not, not_not] at hop
      cases hop with
      | inl hcall =>
        simp only [evalIns, hcall, Option.bind_eq_bind, Option.bind_eq_some_iff] at h
        obtain ⟨args, -, h⟩ := h
        obtain rfl := Option.some.inj h
        simp only [effectful, hcall, decide_true, Bool.true_and, Bool.or_eq_false_iff, decide_eq_false_iff_not] at heff
        exact hq.call ins.op2 args m.world heff.2.1 heff.2.2
      | inr hcnew =>
        simp only [evalIns, hcnew, Option.bind_eq_bind, Option.bind_eq_some_iff] at h
        obtain ⟨x, -, y, -, h⟩ := h
        obtain rfl := Option.some.inj h
        exact hq.cnew x y m.world.rest
  · have hcases : ins.op = .tnew ∨ ins.op = .tdup := by
      simp only [effectful, Bool.or_eq_false_iff, decide_eq_false_iff_not] at heff
      simp only [isTableWrite, Bool.or_eq_false_iff, decide_eq_false_iff_not] at htab
      tauto
    cases hcases with
    | inl hnew =>
      simp only [evalIns, hnew, Option.bind_eq_bind, Option.bind_eq_some_iff] at h
      obtain ⟨t, -, w, hw, h⟩ := h
      obtain rfl := Option.some.inj h
      exact unchanged_alloc hw
    | inr hdup =>
      simp only [evalIns, hdup, Option.bind_eq_bind, Option.bind_eq_some_iff] at h
      obtain ⟨v, -, t, -, w, hw, h⟩ := h
      obtain rfl := Option.some.inj h
      exact unchanged_alloc hw

/-- An instruction that has an effect does not have it when it leaves the trace. -/
theorem evalIns_leave (hclean : isClean ins = true) (hl : leaver ins = true) (h : evalIns R buf m ins = some e)
    (hleave : e.leave = true) : Unchanged R m.world e.world := by
  by_cases heff : effectful ins = true
  · simp only [isClean, hl, heff, Bool.and_self, Bool.not_true, Bool.false_or, Bool.or_eq_true, Bool.and_eq_true,
      decide_eq_true_eq] at hclean
    rcases hclean with hop | ⟨⟨hop, hidx⟩, hty⟩
    · simp only [evalIns, hop, Option.bind_eq_bind, Option.bind_eq_some_iff] at h
      obtain ⟨kv, -, tv, -, k, -, v, -, h⟩ := h
      simp only [evalAstore, Option.bind_eq_bind, Option.bind_eq_some_iff] at h
      obtain ⟨p, -, h⟩ := h
      -- The store itself stays on the trace.
      have hstay : ∀ {w : World H}, some (Effect.skip w) ≠ some e := by
        intro w hs
        rw [← Option.some.inj hs] at hleave
        cases hleave
      split at h
      · split at h
        · obtain ⟨t, -, h⟩ := Option.bind_eq_some_iff.mp h
          exact absurd h hstay
        · obtain rfl := Option.some.inj h
          exact .refl _
      · obtain rfl := Option.some.inj h
        exact .refl _
    · simp only [evalIns, hop, hidx, Option.bind_eq_bind, Option.bind_eq_some_iff] at h
      obtain ⟨args, -, h⟩ := h
      obtain rfl := Option.some.inj h
      refine ⟨fun _ _ => rfl, fun obs hq => hq.ffi args m.world ?_⟩
      simp only [Effect.check, Bool.not_eq_true', Bool.or_eq_false_iff, hty] at hleave
      exact hleave.2
  · exact evalIns_unchanged (by simpa using heff) h

/-- Straight-line execution without effects. -/
theorem Straight.unchanged (h : Straight R buf c c') (hq : ∀ q, c.r ≤ q → q < c'.r → ¬ buf.Has effectful q)
    (hr : REF_BIAS ≤ c.r) : Unchanged R c.world c'.world := by
  induction h with
  | refl => exact .refl _
  | @tail b d hb hn ih =>
    have hle := Straight.r_le hb
    have hrd := hn.r
    refine (ih fun q hlo hhi => hq q hlo (by omega)).trans ?_
    obtain ⟨-, i, f, hi, hf, -, rfl⟩ := hn
    refine evalIns_unchanged ?_ hf
    by_contra heff
    exact hq b.r hle (by rw [hrd]; exact Nat.lt_succ_self _) ⟨hr.trans hle, i, hi, by simpa using heff⟩

/-! ### The snapshot of an exit -/

theorem cursor_eq (r : ℕ) (l : List SnapShot) (idx : ℕ) : ∃ n ≤ l.length, Trace.cursor r l idx = idx + n ∧
    (∀ s ∈ l.take n, s.iref ≤ r) ∧ ∀ s, l[n]? = some s → r < s.iref := by
  induction l generalizing idx with
  | nil => exact ⟨0, Nat.le_refl _, rfl, fun s hs => (nomatch hs), fun s hs => (nomatch hs)⟩
  | cons s l ih =>
    rw [Trace.cursor]
    split
    · next hle =>
      obtain ⟨n, hn, hcur, hall, hnext⟩ := ih (idx + 1)
      refine ⟨n + 1, Nat.succ_le_succ hn, by rw [hcur]; omega, fun s' hs' => ?_, hnext⟩
      rw [List.take_succ_cons] at hs'
      cases List.mem_cons.mp hs' with
      | inl heq => rw [heq]; exact hle
      | inr hin => exact hall s' hin
    · next hlt =>
      refine ⟨0, Nat.zero_le _, rfl, fun s' hs' => (nomatch hs'), fun s' hs' => ?_⟩
      obtain rfl : s = s' := Option.some.inj hs'
      exact Nat.lt_of_not_le hlt

/-- With the snapshots in order, an exit takes the last one at or below it. -/
theorem snapFor_last {s₀ : SnapShot} {l : List SnapShot} {r : ℕ} (hsnap : tr.snap = s₀ :: l)
    (hs : (tr.snap.map (·.iref)).Pairwise (· ≤ ·)) (h₀ : s₀.iref ≤ r) :
    ∃ sn, tr.snap[tr.snapFor r]? = some sn ∧ sn.iref ≤ r ∧ ∀ s ∈ tr.snap, s.iref ≤ r → s.iref ≤ sn.iref := by
  obtain ⟨n, hn, hcur, hall, hnext⟩ := cursor_eq r l 0
  have hfor : tr.snapFor r = n := by rw [Trace.snapFor, hsnap, List.drop_one, List.tail_cons, hcur, Nat.zero_add]
  rw [List.pairwise_map] at hs
  rw [hfor, hsnap] at *
  have hlt : n < (s₀ :: l).length := Nat.lt_succ_of_le hn
  refine ⟨(s₀ :: l)[n], List.getElem?_eq_getElem hlt, ?_, fun s hin hsr => ?_⟩
  · cases n with
    | zero => exact h₀
    | succ n => exact hall _ (List.mem_take_iff_getElem.mpr ⟨n, by simp at hlt; omega, by simp⟩)
  · obtain ⟨j, hj, rfl⟩ := List.mem_iff_getElem.mp hin
    have hle : j ≤ n := by
      by_contra hgt
      have hn' : n < l.length := by simp at hj; omega
      have hnlt := hnext l[n] (List.getElem?_eq_getElem hn')
      have hord := hs.rel_get_of_lt (a := ⟨n + 1, by simp at hj ⊢; omega⟩) (b := ⟨j, hj⟩)
      rcases Nat.lt_or_ge (n + 1) j with hnj | hnj
      · have := hord (Fin.mk_lt_mk.mpr hnj)
        simp only [List.get_eq_getElem, List.getElem_cons_succ] at this
        omega
      · obtain rfl : j = n + 1 := by omega
        rw [List.getElem_cons_succ] at hsr
        omega
    rcases Nat.lt_or_ge j n with hjn | hjn
    · exact hs.rel_get_of_lt (a := ⟨j, hj⟩) (b := ⟨n, hlt⟩) (Fin.mk_lt_mk.mpr hjn)
    · obtain rfl : j = n := by omega
      exact Nat.le_refl _

/-! ### Runs of a trace without a loop instruction -/

/-- A run is at the end of a pass over the instructions. -/
theorem runs_pass (hloop : tr.ir.chain .loop = 0) (hm : m.r = REF_FIRST) (h : tr.Runs R m c) :
    ∃ m₁, tr.Runs R m m₁ ∧ m₁.r = REF_FIRST ∧ Straight R tr.ir m₁ c := by
  induction h with
  | refl => exact ⟨m, .refl, hm, .refl⟩
  | @tail b d hb hstep ih =>
    by_cases hr : b.r < tr.ir.nins
    · obtain ⟨m₁, hruns, hr₁, hpass⟩ := ih
      obtain ⟨ins, e, hi, he, hl, hd⟩ := step_run hr hstep
      exact ⟨m₁, hruns, hr₁, hpass.tail ⟨hr, ins, e, hi, he, hl, hd⟩⟩
    · -- The tail starts another pass.
      refine ⟨d, Relation.ReflTransGen.tail hb hstep, ?_, .refl⟩
      rw [Trace.step, if_neg hr, Trace.tail] at hstep
      simp only [hloop, ne_eq, not_true_eq_false, if_false, Option.bind_eq_bind] at hstep
      split at hstep
      · obtain ⟨w, -, hw⟩ := Option.bind_eq_some_iff.mp hstep
        cases hw
        rfl
      · split at hstep
        · obtain ⟨s, -, hstep⟩ := Option.bind_eq_some_iff.mp hstep
          obtain ⟨w, -, hw⟩ := Option.bind_eq_some_iff.mp hstep
          cases hw
          rfl
        · obtain ⟨w, -, hw⟩ := Option.bind_eq_some_iff.mp hstep
          cases hw

theorem Straight.r_le_nins (h : Straight R buf c c') (hr : c.r ≤ buf.nins) : c'.r ≤ buf.nins := by
  cases h with
  | refl => exact hr
  | tail _ hn =>
    rw [hn.r]
    exact hn.1

/-- A run from `m` reaches `c`, where a guard fails or the instructions end, and the trace is left through
`exitno` with the world `w`, onto which the snapshot is restored. -/
structure Trace.Leaves (R : Runtime H) (tr : Trace) (m c : Machine H) (exitno : ℕ) (w : World H) : Prop where
  runs : tr.Runs R m c
  exits : ∃ gc m', tr.step R c = some (.exit exitno gc m')
  world : (∃ ins e, c.r < tr.ir.nins ∧ tr.ir.ir c.r = some ins ∧ leaver ins = true ∧
    evalIns R tr.ir c ins = some e ∧ w = e.world) ∨ (tr.ir.nins ≤ c.r ∧ w = c.world)

/-- Effects are neither repeated nor lost: an exit takes a snapshot that the run has passed, with no effect since,
and finds what was observable there. -/
def EffectsExact (R : Runtime H) (tr : Trace) : Prop :=
  ∀ m c exitno w, m.r = REF_FIRST → tr.Leaves R m c exitno w →
    ∃ sn c₀, tr.snap[exitno]? = some sn ∧ tr.Runs R m c₀ ∧ c₀.r = sn.iref ∧ Straight R tr.ir c₀ c ∧
      (∀ q, sn.iref ≤ q → q < c.r → ¬ tr.ir.Has effectful q) ∧ Unchanged R c₀.world w

/-- Where an exit leaves from, and through which snapshot. -/
theorem leaves_snapshot {exitno : ℕ} {w : World H} (h : tr.Leaves R m c exitno w) (hr : c.r ≤ tr.ir.nins) :
    (c.r < tr.ir.nins ∧ tr.ir.Has leaver c.r ∧ exitno = tr.snapFor c.r ∨
      c.r = tr.ir.nins ∧ exitno = tr.snap.length - 1) ∨ c.r < REF_BIAS := by
  obtain ⟨-, ⟨gc, m', hstep⟩, hworld⟩ := h
  rcases hworld with ⟨ins, e, hlt, hi, hl, he, -⟩ | ⟨hge, -⟩
  · rcases Nat.lt_or_ge c.r REF_BIAS with hlo | hlo
    · exact .inr hlo
    · refine .inl (.inl ⟨hlt, ⟨hlo, ins, hi, hl⟩, ?_⟩)
      rw [Trace.step, if_pos hlt, hi] at hstep
      simp only [Option.bind_eq_bind, Option.bind_some, he] at hstep
      split at hstep
      · obtain ⟨w', -, hw⟩ := Option.bind_eq_some_iff.mp hstep
        cases hw
        rfl
      · cases hstep
  · refine .inl (.inr ⟨Nat.le_antisymm hr hge, ?_⟩)
    rw [Trace.step, if_neg (Nat.not_lt.mpr hge), Trace.tail] at hstep
    simp only [Option.bind_eq_bind] at hstep
    split at hstep
    · split at hstep
      · obtain ⟨w', -, hw⟩ := Option.bind_eq_some_iff.mp hstep
        cases hw
      · obtain ⟨w', -, hw⟩ := Option.bind_eq_some_iff.mp hstep
        cases hw
    · split at hstep
      · obtain ⟨s, -, hstep⟩ := Option.bind_eq_some_iff.mp hstep
        obtain ⟨w', -, hw⟩ := Option.bind_eq_some_iff.mp hstep
        cases hw
      · obtain ⟨w', -, hw⟩ := Option.bind_eq_some_iff.mp hstep
        cases hw
        rfl

namespace Recording
variable {N : ℕ → ℕ} {P : ℕ → List ℕ} {k : ℕ} {s : Recording}

/-- The exits of a trace that keeps the invariant and ends with a snapshot. -/
theorem Inv.effectsExact (h : Inv N P k s) (hend : ∃ sn, s.snap.getLast? = some sn ∧ sn.iref = s.ir.nins)
    (R : Runtime H) (traceno : ℕ) (linktype : TraceLink) (link : ℕ) :
    EffectsExact R (s.trace traceno linktype link) := by
  intro m c exitno w hm hleaves
  obtain ⟨c₁, rest, hmarks, hfirst⟩ := h.head
  obtain ⟨s₀, l, hsnap, hs₀, -⟩ : ∃ s₀ l, s.snap = s₀ :: l ∧ s₀.iref = c₁ ∧ l.map (·.iref) = rest := by
    cases hl : s.snap with
    | nil =>
      rw [marks, hl] at hmarks
      cases hmarks
    | cons a l =>
      rw [marks, hl, List.map_cons, List.cons.injEq] at hmarks
      exact ⟨a, l, rfl, hmarks.1, hmarks.2⟩
  have hb₀ := h.bound c₁ (by rw [hmarks]; exact List.mem_cons_self)
  obtain ⟨m₁, hruns₁, hr₁, hpass⟩ := runs_pass h.loop hm hleaves.runs
  have hge : REF_FIRST ≤ c.r := hr₁ ▸ Straight.r_le hpass
  have hle : c.r ≤ s.ir.nins := Straight.r_le_nins hpass (by rw [hr₁]; exact hb₀.1.trans hb₀.2)
  -- The snapshot of the exit, and that no effect lies between it and the exit.
  obtain ⟨sn, hget, hsn, hno⟩ : ∃ sn, s.snap[exitno]? = some sn ∧ sn.iref ≤ c.r ∧
      ∀ q, sn.iref ≤ q → q < c.r → ¬ s.ir.Has effectful q := by
    rcases leaves_snapshot hleaves hle with (⟨-, hl, rfl⟩ | ⟨hr, rfl⟩) | hlo
    · have hs := h.sorted
      have hsnap' : (s.trace traceno linktype link).snap = s₀ :: l := hsnap
      obtain ⟨sn, hget, hsn, hlast⟩ := snapFor_last hsnap' hs (hs₀ ▸ hfirst c.r hl)
      refine ⟨sn, hget, hsn, fun q hlo hhi => h.covered.rollback hl (fun d hd hdr => ?_) hlo hhi⟩
      obtain ⟨s', hs', rfl⟩ := List.mem_map.mp hd
      exact hlast s' hs' hdr
    · obtain ⟨sn, hlast, hiref⟩ := hend
      refine ⟨sn, by rw [← hlast, List.getLast?_eq_getElem?]; rfl, by rw [hiref, hr]; exact Nat.le_refl _, ?_⟩
      intro q hlo hhi
      rw [hiref] at hlo
      rw [hr] at hhi
      exact absurd hhi (Nat.not_lt.mpr hlo)
    · exact absurd hlo (Nat.not_lt.mpr ((Nat.le_succ _).trans hge))
  have hmem : sn.iref ∈ s.marks := List.mem_map_of_mem (List.mem_of_getElem? hget)
  obtain ⟨c₀, hto, hr₀, hfrom⟩ := Straight.at hpass (hr₁ ▸ (h.bound _ hmem).1) hsn
  refine ⟨sn, c₀, hget, hruns₁.trans hto.runs, hr₀, hfrom, hno, ?_⟩
  have hun : Unchanged R c₀.world c.world :=
    hfrom.unchanged (hr₀ ▸ hno) (by rw [hr₀]; exact (Nat.le_succ _).trans (h.bound _ hmem).1)
  obtain ⟨-, ⟨gc, m', hstep⟩, hworld⟩ := hleaves
  rcases hworld with ⟨ins, e, hlt, hi, hl, he, rfl⟩ | ⟨-, rfl⟩
  · refine hun.trans (evalIns_leave ?_ hl he ?_)
    · by_contra hcl
      exact h.clean c.r ⟨(Nat.le_succ _).trans hge, ins, hi, by simpa using hcl⟩
    · rw [Trace.step, if_pos hlt, hi] at hstep
      simp only [Option.bind_eq_bind, Option.bind_some, he] at hstep
      by_contra hstay
      rw [if_neg hstay] at hstep
      cases hstep
  · exact hun

/-- The effects in front of each snapshot are those of the bytecodes before the one it resumes at. -/
def Aligned (s : Recording) (N : ℕ → ℕ) (P : ℕ → List ℕ) (k : ℕ) : Prop :=
  ∀ sn ∈ s.snap, ∃ i ≤ k, (∀ q, s.ir.Has effectful q → (q < sn.iref ↔ q < N i)) ∧ sn.pc ∈ P i

/-- A recording whose bytecodes all meet their condition, in any runtime: its exits repeat no effect and lose
none. -/
theorem recorded_effects {parent exitno pc pc₀ : ℕ} {inherited : List Inherited} {slots : Slots} {bs : List Bytecode}
    {l : List Act} (hm : (Recording.new parent exitno inherited slots pc₀).Meets bs)
    (hl : ActsMeet (((Recording.new parent exitno inherited slots pc₀).record bs).start pc) l)
    (R : Runtime H) (traceno : ℕ) (linktype : TraceLink) (link : ℕ) :
    let s := Recording.new parent exitno inherited slots pc₀
    EffectsExact R (((s.record bs).finish pc l).trace traceno linktype link) ∧
      ((s.record bs).finish pc l).Aligned (s.starts bs) (s.locations bs pc l) bs.length := by
  intro s
  have hinv := recorded_inv hm hl
  refine ⟨hinv.effectsExact ⟨_, List.getLast?_concat, rfl⟩ R traceno linktype link, hinv.aligned⟩

/-! ### A table store, and an upvalue write, with a type check behind them -/

section Example

/-- The guarded load of a stack slot. -/
def sloadNum (slot : ℕ) : PlainIns := ⟨.new .sload (guarded .num) slot 4, rfl⟩

def noSlots : Slots := ⟨fun _ => 0, false, 2, 2⟩

/-- Snapshot #0 at pc 1, with nothing recorded. -/
def atOne : Recording := .new 0 0 [] noSlots 1

theorem not_pending_of_ins (h : ∀ ins ∈ s.ir.ins, Ir.unflagged ins = false) : ¬ s.Pending := by
  intro hp
  obtain ⟨q, ⟨hq, ins, hi, hu⟩, -⟩ := hp
  rw [IrBuf.ir, if_pos hq] at hi
  rw [h ins (List.mem_of_getElem? hi)] at hu
  cases hu

/-- `TSETV` with the table, the key and the value in the first three registers. -/
def tsetFirst : Bytecode where
  pc := 1
  acts := [.emit ⟨.new .sload (guarded .tab) 2 4, rfl⟩, .emit (sloadNum 3), .emit (sloadNum 4)]
  last := .tset 0 8 false REF_FIRST (REF_FIRST + 1) (REF_FIRST + 2)
  slots := noSlots

/-- Behind the store a snapshot is due, so a type check in the next bytecode finds it. -/
theorem recorded_effects_store : ∃ bs l, (bs.any fun b => b.last matches .tset ..) = true ∧ l ≠ [] ∧
    EffectsExact Runtime.bare (((atOne.record bs).finish 2 l).trace 1 .interp 0) := by
  have hstart : ∀ ins ∈ ((atOne.start 1).acts tsetFirst.acts).ir.ins, Ir.unflagged ins = false := by decide
  have hstart₀ : ∀ ins ∈ (atOne.start 1).ir.ins, Ir.unflagged ins = false := by decide
  have hstart₁ : ∀ ins ∈ ((atOne.start 1).acts (tsetFirst.acts.take 1)).ir.ins, Ir.unflagged ins = false := by
    decide
  have hstart₂ : ∀ ins ∈ ((atOne.start 1).acts (tsetFirst.acts.take 2)).ir.ins, Ir.unflagged ins = false := by
    decide
  have hnext : ((atOne.record [tsetFirst]).start 2).marks.getLast? = some ((atOne.record [tsetFirst]).start 2).ir.nins := by
    decide
  have hc : ((atOne.start 1).acts tsetFirst.acts).ir.chain .gcstep = 0 := by decide
  have hm : atOne.Meets [tsetFirst] := by
    refine ⟨⟨⟨?_, ?_, ?_, trivial⟩, ?_⟩, trivial⟩
    · exact fun _ => not_pending_of_ins hstart₀
    · exact fun _ => not_pending_of_ins hstart₁
    · exact fun _ => not_pending_of_ins hstart₂
    · let s := (atOne.start 1).acts tsetFirst.acts
      change if s.ir.chain .gcstep = 0 then ¬ s.Pending else if false = true then s.StoreReady else True
      rw [if_pos hc]
      exact not_pending_of_ins hstart
  have hl : ActsMeet ((atOne.record [tsetFirst]).start 2) [.emit (sloadNum 5)] := by
    refine ⟨fun _ hp => ?_, trivial⟩
    obtain ⟨q, hq, hlast⟩ := hp
    exact absurd (hlast _ (List.mem_of_getLast? hnext)) (Nat.not_le.mpr hq.lt_nins)
  exact ⟨[tsetFirst], [.emit (sloadNum 5)], rfl, List.cons_ne_nil _ _, (recorded_effects hm hl .bare 1 .interp 0).1⟩

/-- `USETV` of the first register. -/
def usetFirst : Bytecode where
  pc := 1
  acts := [.emit (sloadNum 2), .const (.kint64 4096)]
  last := .uset (REF_BIAS - 4) REF_FIRST
  slots := noSlots

/-- A runtime that counts the upvalue writes. -/
def usets : Runtime ℕ where
  hash _ := 0
  pow x _ := x
  upval _ v := v
  call idx _ w := (if idx = 10 then w.rest + 1 else w.rest, .num .zero)
  cnew _ _ h := (h, .nil)
  bufStart _ h := h
  bufAppend _ h := h
  bufStr h := (h, .nil)
  shouldCollect _ := false
  fresh n := n

/-- The second register is a number while recording and nil later. -/
def secondNil : Machine ℕ where
  r := REF_FIRST
  env _ := .nil
  world := ⟨fun i => if i = 3 then .nil else .num (.ofInt 7), fun _ => none, 0⟩
  cbase := 2
  clock := 0

/-- No snapshot follows the upvalue write, so the type check of the next bytecode exits in front of it, and the
write is done a second time. -/
theorem upvalue_write_repeated : ∃ bs l, let tr := ((atOne.record bs).finish 2 l).trace 1 .interp 0
    (∃ c w sn, tr.Leaves usets secondNil c 0 w ∧ w.rest = 1 ∧ tr.snap[0]? = some sn ∧ sn.pc = 1 ∧
      sn.iref = REF_FIRST) ∧ secondNil.world.rest = 0 ∧ ¬ EffectsExact usets tr := by
  refine ⟨[usetFirst], [.emit (sloadNum 3)], ?_⟩
  intro tr
  have hexit : exitAfter usets tr secondNil 3 = some (0, .num (.ofInt 7), 1) := by decide
  have hrun : (advance usets tr.ir 3 secondNil).map (fun c => c.world.rest) = some 1 := by decide
  have hget : tr.snap[0]? = some ⟨0, REF_FIRST, 1, 2, 4, 0⟩ := by decide
  have hnins : tr.ir.nins = REF_FIRST + 4 := by decide
  have hload : (tr.ir.ir (REF_FIRST + 3)).any fun ins => ins.op = .sload && leaver ins := by decide
  have hcall : (tr.ir.ir (REF_FIRST + 2)).any effectful := by decide
  obtain ⟨c, gc, d, hc, hd, -, -⟩ := exitAfter_step hexit
  have hr : c.r = REF_FIRST + 3 := advance_r hc
  rw [hc, Option.map_some, Option.some.injEq] at hrun
  obtain ⟨ins, hins, hp⟩ := (Option.any_eq_true _ _).mp hload
  rw [Bool.and_eq_true, decide_eq_true_eq] at hp
  have hleaves : tr.Leaves usets secondNil c 0 c.world := by
    let v := c.world.stack (c.cbase + ins.op1 - 2)
    let e : Effect ℕ := .check c.world v (!ins.isGuard || typecheck v ins.t.ty)
    refine ⟨(advance_straight hc).runs, ⟨gc, d, hd⟩, .inl ⟨ins, e, by omega, by rw [hr, hins], hp.2, ?_, rfl⟩⟩
    simp only [evalIns, hp.1]
    rfl
  refine ⟨⟨c, c.world, _, hleaves, hrun, hget, rfl, rfl⟩, rfl, fun h => ?_⟩
  obtain ⟨sn, c₀, hsn, -, -, -, hno, -⟩ := h secondNil c 0 c.world rfl hleaves
  rw [hget, Option.some.injEq] at hsn
  obtain ⟨ins, hins, hp⟩ := (Option.any_eq_true _ _).mp hcall
  have hiref : sn.iref = REF_FIRST := by rw [← hsn]
  have hbias : REF_FIRST = REF_BIAS + 1 := rfl
  exact hno (REF_FIRST + 2) (by omega) (by omega) ⟨by omega, ins, hins, hp⟩

end Example

end Recording
end LuajitRs.Ir
