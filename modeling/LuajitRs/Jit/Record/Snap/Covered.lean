import LuajitRs.Jit.Record.Snap
import LuajitRs.Jit.Record.Replay
import LuajitRs.Lib.Checkpoint

/-! Which snapshots stand between the effects of a recording and its guards. The recording is a log of effects
and exits with the snapshots as marks; every step of the recorder that meets its condition keeps it covered. -/
namespace LuajitRs.Ir
open Lib.Checkpoint

namespace IrBuf
variable {b c : IrBuf} {p : IRIns → Bool} {r : ℕ}

theorem Has.lt_nins (h : b.Has p r) : r < b.nins := by
  obtain ⟨hr, ins, hi, -⟩ := h
  rw [ir, if_pos hr] at hi
  obtain ⟨hlt, -⟩ := List.getElem?_eq_some_iff.mp hi
  rw [nins]
  omega

theorem has_congr (h : c.ins = b.ins) : c.Has p r ↔ b.Has p r := by
  refine and_congr_right fun hr => ?_
  rw [ir, ir, if_pos hr, if_pos hr, h]

theorem has_emitIns (hp : ∀ ins n, p { ins with prev := n } = p ins) (ins : IRIns) :
    (b.emitIns ins).1.Has p r ↔ b.Has p r ∨ (r = b.nins ∧ p ins = true) := by
  have hins : (b.emitIns ins).1.ins = b.ins ++ [{ ins with prev := b.chain ins.op }] := rfl
  constructor
  · intro h
    obtain ⟨hr, i, hi, hpi⟩ := h
    rw [ir, if_pos hr, hins] at hi
    rcases Nat.lt_or_ge (r - REF_BIAS) b.ins.length with hlt | hge
    · rw [List.getElem?_append_left hlt] at hi
      exact .inl ⟨hr, i, by rw [ir, if_pos hr, hi], hpi⟩
    · rw [List.getElem?_append_right hge, List.getElem?_singleton] at hi
      split at hi
      · refine .inr ⟨by rw [nins]; omega, ?_⟩
        rw [← hp ins, Option.some.inj hi, hpi]
      · cases hi
  · intro h
    cases h with
    | inl h =>
      obtain ⟨hr, i, hi, hpi⟩ := h
      refine ⟨hr, i, ?_, hpi⟩
      rw [ir, if_pos hr] at hi ⊢
      obtain ⟨hlt, -⟩ := List.getElem?_eq_some_iff.mp hi
      rw [hins, List.getElem?_append_left hlt, hi]
    | inr h =>
      obtain ⟨rfl, hpi⟩ := h
      exact ⟨b.nins_ge, _, b.ir_emitIns ins, by rw [hp, hpi]⟩

/-- Interning a constant leaves the instructions and the chains of instructions alone. -/
theorem intern_frame (b : IrBuf) (k : Constant) : (k.intern b).ins = b.ins ∧ (k.intern b).guardemit = b.guardemit ∧
    ∀ op, op.isConst = false → (k.intern b).chain op = b.chain op := by
  have hpush : ∀ (ins : IRIns) (v : LuaValue), ins.op.isConst = true → (b.pushK ins v).1.ins = b.ins ∧
      (b.pushK ins v).1.guardemit = b.guardemit ∧
        ∀ op, op.isConst = false → (b.pushK ins v).1.chain op = b.chain op := by
    intro ins v hc
    refine ⟨rfl, rfl, fun op hop => Function.update_of_ne ?_ _ _⟩
    intro heq
    rw [heq, hc] at hop
    cases hop
  cases k with
  | kgc v ty =>
    simp only [Constant.intern, kgc, intern]
    split
    · exact ⟨rfl, rfl, fun _ _ => rfl⟩
    · exact hpush _ _ rfl
  | kint64 u =>
    simp only [Constant.intern, kint64, intern]
    split
    · exact ⟨rfl, rfl, fun _ _ => rfl⟩
    · exact hpush _ _ rfl
  | knum x =>
    simp only [Constant.intern, knum]
    split
    · exact ⟨rfl, rfl, fun _ _ => rfl⟩
    · exact hpush _ _ rfl
  | kint k =>
    simp only [Constant.intern, kint]
    split
    · exact ⟨rfl, rfl, fun _ _ => rfl⟩
    · exact hpush _ _ rfl

end IrBuf

namespace Recording

/-- The references that the snapshots start at. -/
def marks (s : Recording) : List ℕ := s.snap.map (·.iref)

/-- An effect that no snapshot was asked for lies behind the last snapshot. -/
def Pending (s : Recording) : Prop := ∃ q, s.ir.Has unflagged q ∧ ∀ c ∈ s.marks, c ≤ q

/-- The last snapshot may be merged into its successor, since the one before it covers the effects too. -/
def Mergeable (s : Recording) : Prop :=
  s.snap.length = 1 ∨ Settled (s.ir.Has effectful) s.marks.dropLast

/-- An array store can be recorded: it leaves the trace without being marked as a guard. -/
def StoreReady (s : Recording) : Prop :=
  ¬ s.Pending ∧ (s.ir.guardemit = true ∨ s.mergesnap = false ∨ s.Mergeable)

end Recording

/-- What the recorder must not be in the middle of, for each thing that it does. -/
def Act.Meets (s : Recording) : Act → Prop
  | .emit ins => ins.1.isGuard = true → ¬ s.Pending
  | .gcstep _ _ => s.ir.chain .gcstep = 0 → ¬ s.Pending
  | _ => True

def Last.Meets (s : Recording) : Last → Prop
  | .tset _ _ array _ _ _ =>
    if s.ir.chain .gcstep = 0 then ¬ s.Pending else if array = true then s.StoreReady else True
  | .tableStore _ _ _ => s.StoreReady
  | .ffiCall _ _ _ _ _ _ => s.ir.chain .gcstep ≠ 0 ∧ ¬ s.Pending
  | .bufCat _ _ _ _ => s.ir.chain .gcstep ≠ 0
  | _ => True

/-- Each act meets its condition in the state that it finds. -/
def ActsMeet (s : Recording) : List Act → Prop
  | [] => True
  | a :: rest => a.Meets s ∧ ActsMeet (s.act a) rest

def Bytecode.Meets (s : Recording) (b : Bytecode) : Prop :=
  ActsMeet (s.start b.pc) b.acts ∧ b.last.Meets ((s.start b.pc).acts b.acts)

/-- Each bytecode of a sequence meets its condition in the state that it finds. -/
def Recording.Meets (s : Recording) : List Bytecode → Prop
  | [] => True
  | b :: rest => b.Meets s ∧ (s.recordIns b).Meets rest

/-- An instruction that may leave the trace and has an effect does one of the two only. -/
def isClean (ins : IRIns) : Bool :=
  !(leaver ins && effectful ins) || ins.op = .astore || (ins.op = .calll && ins.op2 = 13 && ins.t.ty = .num)

namespace Recording

/-- What holds of every recording: `N` gives the end of the buffer at the start of each bytecode, and `P` the
locations that belong to it. -/
structure Inv (N : ℕ → ℕ) (P : ℕ → List ℕ) (k : ℕ) (s : Recording) : Prop where
  head : ∃ c rest, s.marks = c :: rest ∧ ∀ r, s.ir.Has leaver r → c ≤ r
  sorted : s.marks.Pairwise (· ≤ ·)
  bound : ∀ c ∈ s.marks, REF_FIRST ≤ c ∧ c ≤ s.ir.nins
  loop : s.ir.chain .loop = 0
  clean : ∀ r, ¬ s.ir.Has (fun ins => !isClean ins) r
  covered : Covered (s.ir.Has effectful) (s.ir.Has leaver) s.marks
  starts : ∀ i ≤ k, N i ≤ s.ir.nins
  /-- The effects in front of a snapshot are those of the bytecodes before the one it resumes at. -/
  aligned : ∀ sn ∈ s.snap, ∃ i ≤ k, (∀ q, s.ir.Has effectful q → (q < sn.iref ↔ q < N i)) ∧ sn.pc ∈ P i

variable {N : ℕ → ℕ} {P : ℕ → List ℕ} {k : ℕ} {s : Recording}

/-- The parts of a recording that the invariant is about. -/
theorem Inv.congr {s' : Recording} (h : Inv N P k s) (hins : s'.ir.ins = s.ir.ins)
    (hloop : s'.ir.chain .loop = s.ir.chain .loop) (hsnap : s'.snap = s.snap) : Inv N P k s' := by
  have hhas : ∀ p, s'.ir.Has p = s.ir.Has p := fun p => funext fun r => propext (IrBuf.has_congr hins)
  have hmarks : s'.marks = s.marks := by rw [marks, marks, hsnap]
  have hnins : s'.ir.nins = s.ir.nins := by rw [IrBuf.nins, IrBuf.nins, hins]
  exact ⟨by rw [hmarks, hhas]; exact h.head, by rw [hmarks]; exact h.sorted, by rw [hmarks, hnins]; exact h.bound,
    by rw [hloop]; exact h.loop, by rw [hhas]; exact h.clean, by rw [hmarks, hhas, hhas]; exact h.covered,
    by rw [hnins]; exact h.starts, by rw [hsnap, hhas]; exact h.aligned⟩

/-- Emitting an instruction: it may leave the trace only where no effect lies behind the last snapshot. -/
theorem Inv.emit (h : Inv N P k s) {ins : IRIns} (hloop : ins.op ≠ .loop) (hclean : isClean ins = true)
    (hleave : leaver ins = true → Settled (s.ir.Has effectful) s.marks) : Inv N P k (s.emit ins) := by
  have hnins : (s.emit ins).ir.nins = s.ir.nins + 1 := by
    simp [Recording.emit, IrBuf.nins, IrBuf.emitIns, Nat.add_assoc]
  have hw : ∀ q, (s.emit ins).ir.Has effectful q ↔ s.ir.Has effectful q ∨ (q = s.ir.nins ∧ effectful ins = true) :=
    fun q => IrBuf.has_emitIns (fun _ _ => rfl) ins
  have ha : ∀ q, (s.emit ins).ir.Has leaver q ↔ s.ir.Has leaver q ∨ (q = s.ir.nins ∧ leaver ins = true) :=
    fun q => IrBuf.has_emitIns (fun _ _ => rfl) ins
  refine ⟨?_, h.sorted, fun c hc => ?_, ?_, fun r hr => ?_, ?_, fun i hi => ?_, fun sn hsn => ?_⟩
  · obtain ⟨c, rest, hm, hc⟩ := h.head
    refine ⟨c, rest, hm, fun r hr => ?_⟩
    cases (ha r).mp hr with
    | inl hold => exact hc r hold
    | inr hnew =>
      rw [hnew.1]
      exact (h.bound c (by rw [hm]; exact List.mem_cons_self)).2
  · have := h.bound c hc
    exact ⟨this.1, by rw [hnins]; omega⟩
  · exact (Function.update_of_ne hloop.symm _ _).trans h.loop
  · cases (IrBuf.has_emitIns (fun _ _ => rfl) ins).mp hr with
    | inl hold => exact h.clean r hold
    | inr hnew => simp [hclean] at hnew
  · have habort : Covered (s.ir.Has effectful) ((s.emit ins).ir.Has leaver) s.marks := by
      by_cases hl : leaver ins = true
      · refine h.covered.abort (n := s.ir.nins) (hleave hl) (fun c hc => (h.bound c hc).2) fun r hr => ?_
        exact ((ha r).mp hr).imp_right And.left
      · refine h.covered.congr (fun _ hq => hq) fun r hr => ?_
        exact ((ha r).mp hr).resolve_right fun hn => hl hn.2
    refine habort.write (n := s.ir.nins) (fun r hr => ?_) fun q hq => ((hw q).mp hq).imp_right And.left
    have := hr.lt_nins
    omega
  · exact (h.starts i hi).trans (by rw [hnins]; exact Nat.le_succ _)
  · obtain ⟨i, hi, hq, hpc⟩ := h.aligned sn hsn
    refine ⟨i, hi, fun q hqe => ?_, hpc⟩
    cases (hw q).mp hqe with
    | inl hold => exact hq q hold
    | inr hnew =>
      -- A new effect lies behind all snapshots and behind the starts of all bytecodes.
      have hb := (h.bound sn.iref (List.mem_map_of_mem hsn)).2
      have hs := h.starts i hi
      omega

/-! ### Snapshots -/

/-- The last snapshot may go when the one before it covers the effects. -/
theorem Inv.dropLast (h : Inv N P k s) (hlen : s.snap.length ≠ 1)
    (hc : Covered (s.ir.Has effectful) (s.ir.Has leaver) s.marks.dropLast) (snapmap : List SnapEntry) :
    Inv N P k { s with snap := s.snap.dropLast, snapmap := snapmap } := by
  have hmarks : marks { s with snap := s.snap.dropLast, snapmap := snapmap } = s.marks.dropLast :=
    List.map_dropLast
  refine ⟨?_, ?_, fun c hc => ?_, h.loop, h.clean, by rw [hmarks]; exact hc, h.starts, fun sn hsn => ?_⟩
  · obtain ⟨c, rest, hm, hfirst⟩ := h.head
    have hrest : rest ≠ [] := by
      intro hnil
      refine hlen ?_
      rw [← List.length_map (f := SnapShot.iref), ← marks, hm, hnil]
      rfl
    refine ⟨c, rest.dropLast, ?_, hfirst⟩
    rw [hmarks, hm, List.dropLast_cons_of_ne_nil hrest]
  · rw [hmarks]
    exact h.sorted.sublist (List.dropLast_sublist _)
  · rw [hmarks] at hc
    exact h.bound c (List.dropLast_subset _ hc)
  · exact h.aligned sn (List.dropLast_subset _ hsn)

theorem Inv.snapMerge (h : Inv N P k s) (hm : s.mergesnap = true → s.ir.guardemit = false → s.snap.length ≠ 1 →
      Covered (s.ir.Has effectful) (s.ir.Has leaver) s.marks.dropLast) :
    Inv N P k s.snapMerge ∧ s.snapMerge.pc = s.pc ∧
      ∀ q, s.snapMerge.ir.Has effectful q ↔ s.ir.Has effectful q := by
  rw [Recording.snapMerge]
  split
  case isFalse => exact ⟨h, rfl, fun _ => Iff.rfl⟩
  rename_i hmerge
  split
  · refine ⟨h.emit (by decide) rfl (fun hl => absurd hl (by decide)), rfl, fun q => ?_⟩
    refine (IrBuf.has_emitIns (fun _ _ => rfl) _).trans (or_iff_left ?_)
    intro hn
    exact absurd hn.2 (by decide)
  · next hlen =>
    refine ⟨h.dropLast hlen ?_ _, rfl, fun _ => Iff.rfl⟩
    rw [merges, Bool.or_eq_true, Bool.and_eq_true, Bool.not_eq_true'] at hmerge
    cases hmerge with
    | inr hreq => exact hm hreq.1 hreq.2 hlen
    | inl hnone =>
      -- Nothing was emitted since the last snapshot, so no exit needs it.
      refine h.covered.unmark (m := s.ir.nins) (fun r hr => hr.lt_nins) fun c hc => ?_
      obtain ⟨last, hlast, heq⟩ := (Option.any_eq_true _ _).mp hnone
      obtain ⟨init, hinit⟩ := List.getLast?_eq_some_iff.mp hlast
      rw [marks, hinit, List.map_append] at hc ⊢
      rw [List.map_singleton, List.dropLast_concat]
      cases List.mem_append.mp hc with
      | inl hin => exact .inr hin
      | inr hin =>
        rw [List.map_singleton, List.mem_singleton] at hin
        exact .inl (hin.trans (of_decide_eq_true heq))

/-- After `snap_add` every effect is covered, also without the new snapshot. -/
structure Fresh (s : Recording) : Prop where
  settled : Settled (s.ir.Has effectful) s.marks
  merge : Covered (s.ir.Has effectful) (s.ir.Has leaver) s.marks.dropLast
  guardemit : s.ir.guardemit = false

theorem Inv.snapAdd (h : Inv N P k s) (hm : s.mergesnap = true → s.ir.guardemit = false → s.snap.length ≠ 1 →
      Covered (s.ir.Has effectful) (s.ir.Has leaver) s.marks.dropLast)
    (hbelow : ∀ q, s.ir.Has effectful q → q < N k) (hpc : s.pc ∈ P k) :
    Inv N P k s.snapAdd ∧ Fresh s.snapAdd ∧ s.snapAdd.pc = s.pc ∧
      ∀ q, s.snapAdd.ir.Has effectful q ↔ s.ir.Has effectful q := by
  obtain ⟨h1, hpc1, hq1⟩ := h.snapMerge hm
  have hhas : ∀ p, s.snapAdd.ir.Has p = s.snapMerge.ir.Has p :=
    fun p => funext fun r => propext (IrBuf.has_congr rfl)
  have hmarks : s.snapAdd.marks = s.snapMerge.marks ++ [s.snapMerge.ir.nins] := by
    simp only [marks, Recording.snapAdd, List.map_append, List.map_singleton, snapshotStack]
  have hnins : s.snapAdd.ir.nins = s.snapMerge.ir.nins := rfl
  refine ⟨⟨?_, ?_, fun c hc => ?_, h1.loop, by rw [hhas]; exact h1.clean, ?_, h1.starts, fun sn hsn => ?_⟩,
    ⟨fun q hq => ?_, ?_, rfl⟩, hpc1, by rw [hhas]; exact hq1⟩
  · obtain ⟨c, rest, hc, hfirst⟩ := h1.head
    exact ⟨c, rest ++ [_], by rw [hmarks, hc]; rfl, by rw [hhas]; exact hfirst⟩
  · rw [hmarks, List.pairwise_append]
    refine ⟨h1.sorted, List.pairwise_singleton _ _, fun c hc d hd => ?_⟩
    rw [List.mem_singleton.mp hd]
    exact (h1.bound c hc).2
  · rw [hmarks] at hc
    cases List.mem_append.mp hc with
    | inl hold => exact h1.bound c hold
    | inr hnew =>
      obtain ⟨d, rest, hd, -⟩ := h1.head
      have hb := h1.bound d (by rw [hd]; exact List.mem_cons_self)
      rw [List.mem_singleton.mp hnew, hnins]
      omega
  · rw [hmarks, hhas, hhas]
    exact h1.covered.mono fun c hc => List.mem_append_left _ hc
  · rw [hhas]
    cases List.mem_append.mp hsn with
    | inl hold => exact h1.aligned sn hold
    | inr hnew =>
      refine ⟨k, Nat.le_refl k, fun q hq => ?_, ?_⟩
      · rw [List.mem_singleton.mp hnew]
        exact iff_of_true hq.lt_nins (hbelow q ((hq1 q).mp hq))
      · rw [List.mem_singleton.mp hnew]
        change s.snapMerge.pc ∈ P k
        rwa [hpc1]
  · rw [hhas] at hq
    exact ⟨_, by rw [hmarks]; exact List.mem_append_right _ (List.mem_singleton_self _), hq.lt_nins⟩
  · rw [hmarks, List.dropLast_concat, hhas, hhas]
    exact h1.covered

end Recording
end LuajitRs.Ir
