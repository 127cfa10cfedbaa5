import LuajitRs.Jit.Exec
import Mathlib.Logic.Relation

/-! Running a trace: its instructions in order, the loop edge with the parallel assignment of the PHIs, the
recursive tail, and the exits through snapshots. One step of the machine is one instruction or one tail. -/
namespace LuajitRs.Ir

/-- A compressed snapshot entry. -/
structure SnapEntry where
  slot : ℕ
  norestore : Bool
  ref : ℕ
  deriving DecidableEq, Repr

structure SnapShot where
  mapofs : ℕ
  /-- First IR reference of this snapshot: the guards from here on use it. -/
  iref : ℕ
  pc : ℕ
  baseslot : ℕ
  nslots : ℕ
  nent : ℕ
  deriving DecidableEq, Repr

inductive TraceLink
  | none | root | loop | tailrec | uprec | downrec | interp | return | stitch
  deriving DecidableEq, Repr

/-- A trace as the executor sees it. -/
structure Trace where
  traceno : ℕ
  ir : IrBuf
  snap : List SnapShot
  snapmap : List SnapEntry
  linktype : TraceLink
  link : ℕ

namespace Trace
variable {H : Type} (R : Runtime H) (tr : Trace)

def looping : Bool := tr.linktype = .loop ∧ tr.link = tr.traceno
def recursing : Bool := (tr.linktype = .uprec ∨ tr.linktype = .tailrec) ∧ tr.link = tr.traceno

/-- The snapshot cursor at `r`, moved on from `idx`. -/
def cursor (r : ℕ) : List SnapShot → ℕ → ℕ
  | [], idx => idx
  | s :: rest, idx => if s.iref ≤ r then cursor r rest (idx + 1) else idx

/-- The snapshot through which a guard at `r` exits. -/
def snapFor (r : ℕ) : ℕ := cursor r (tr.snap.drop 1) 0

/-- The map entries of a snapshot. -/
def entries (s : SnapShot) : Option (List SnapEntry) :=
  if s.mapofs + s.nent ≤ tr.snapmap.length then some ((tr.snapmap.drop s.mapofs).take s.nent) else none

/-- Restoring one slot; the buffer marker is flushed to its string. -/
def restoreEntry (env : ℕ → LuaValue) (base : ℕ) (w : World H) (sn : SnapEntry) : Option (World H) :=
  if sn.norestore then some w
  else do
    let v ← readRef tr.ir env sn.ref
    let (rest, v) := if v = LuaValue.BUF_MARK then R.bufStr w.rest else (w.rest, v)
    pure { w with stack := Function.update w.stack (base + sn.slot - 2) v, rest := rest }

/-- `restore_snapshot`: write the slots of a snapshot back to the stack. -/
def restoreSnapshot (m : Machine H) (idx : ℕ) : Option (World H) := do
  let s ← tr.snap[idx]?
  let es ← tr.entries s
  es.foldlM (tr.restoreEntry R m.env m.cbase) m.world

/-- The result of a step: the machine runs on, or has left through an exit with its world restored. -/
inductive Result (H : Type)
  | run (m : Machine H)
  | exit (exitno : ℕ) (gc : Bool) (m : Machine H)

/-- `exit_snapshot`. -/
def exitSnapshot (m : Machine H) (idx : ℕ) (gc : Bool) : Option (Result H) := do
  let w ← tr.restoreSnapshot R m idx
  pure (.exit idx gc { m with world := w })

/-- The operands of the PHIs at the end of the trace, from the last one down to `loopref`. -/
def phisFrom (loopref : ℕ) : ℕ → List (ℕ × ℕ)
  | 0 => []
  | k+1 =>
    let r := REF_BIAS + k
    if loopref < r then
      match tr.ir.ir r with
      | some ins => if ins.op = .phi then (ins.op1, ins.op2) :: phisFrom loopref k else []
      | none => []
    else []

def phis (loopref : ℕ) : List (ℕ × ℕ) := tr.phisFrom loopref tr.ir.ins.length

/-- The parallel assignment of the PHIs: all right operands are read before any left one is written; a
left operand that is a constant panics. -/
def assignPhis (env : ℕ → LuaValue) (ps : List (ℕ × ℕ)) : Option (ℕ → LuaValue) := do
  let vs ← ps.mapM fun p => readRef tr.ir env p.2
  if ps.all fun p => REF_BIAS ≤ p.1 then
    some ((ps.zip vs).foldl (fun env p => Function.update env p.1.1 p.2) env)
  else none

/-- The end of the instructions: the loop edge, a recursive tail, or the final exit. -/
def tail (m : Machine H) : Option (Result H) :=
  let last := tr.snap.length - 1
  let loopref := tr.ir.chain .loop
  if tr.looping then
    if loopref ≠ 0 then do
      let env ← tr.assignPhis m.env (tr.phis loopref)
      pure (.run { m with env := env, r := loopref + 1 })
    else do
      let w ← tr.restoreSnapshot R m last
      pure (.run { m with world := w, r := REF_FIRST })
  else if tr.recursing then do
    let s ← tr.snap[last]?
    let w ← tr.restoreSnapshot R m last
    pure (.run { m with world := w, r := REF_FIRST, cbase := m.cbase + s.baseslot - 2 })
  else tr.exitSnapshot R m last false

/-- One step of the executor. -/
def step (m : Machine H) : Option (Result H) :=
  if m.r < tr.ir.nins then do
    let ins ← tr.ir.ir m.r
    let e ← evalIns R tr.ir m ins
    if e.leave then tr.exitSnapshot R (commit m e) (tr.snapFor m.r) e.gc
    else pure (.run (commit m e))
  else tr.tail R m

/-- The machine runs from `m` to `m'` without leaving the trace. -/
def Runs : Machine H → Machine H → Prop :=
  Relation.ReflTransGen fun m m' => tr.step R m = some (.run m')

/-- A run from `m` leaves through an exit in state `m'`. -/
def Exits (m : Machine H) (exitno : ℕ) (gc : Bool) (m' : Machine H) : Prop :=
  ∃ c, tr.Runs R m c ∧ tr.step R c = some (.exit exitno gc m')

/-- The executor is deterministic. -/
theorem Exits.unique {m w w' : Machine H} {x x' : ℕ} {g g' : Bool} (h : tr.Exits R m x g w)
    (h' : tr.Exits R m x' g' w') : x = x' ∧ g = g' ∧ w = w' := by
  obtain ⟨c, hc, hx⟩ := h
  obtain ⟨c', hc', hx'⟩ := h'
  have huniq : Relator.RightUnique fun m m' : Machine H => tr.step R m = some (.run m') := by
    intro a b b' hb hb'
    rw [hb] at hb'
    cases hb'
    rfl
  -- A state that exits is the end of its run.
  have hlast : ∀ {a b : Machine H} {y : ℕ} {k : Bool} {v : Machine H}, tr.step R a = some (.exit y k v) →
      tr.Runs R a b → a = b := by
    intro a b y k v ha hab
    rcases Relation.ReflTransGen.cases_head hab with rfl | ⟨d, hd, -⟩
    · rfl
    · rw [ha] at hd
      cases hd
  have hcc : c = c' := by
    rcases Relation.ReflTransGen.total_of_right_unique huniq hc hc' with hr | hr
    · exact hlast hx hr
    · exact (hlast hx' hr).symm
  subst hcc
  rw [hx] at hx'
  cases hx'
  exact ⟨rfl, rfl, rfl⟩

/-! ### The PHIs of the loop edge -/

section Phis
variable {tr}

theorem mem_phisFrom {l k : ℕ} {p : ℕ × ℕ} (h : p ∈ tr.phisFrom l k) :
    ∃ r ins, l < r ∧ REF_BIAS ≤ r ∧ tr.ir.ir r = some ins ∧ ins.op = .phi ∧ p = (ins.op1, ins.op2) := by
  induction k with
  | zero => simp [phisFrom] at h
  | succ k ih =>
    simp only [phisFrom] at h
    split at h
    · rename_i hl
      split at h
      · rename_i ins hi
        split at h
        · rename_i hop
          rcases List.mem_cons.mp h with h | h
          · exact ⟨_, ins, hl, Nat.le_add_right _ _, hi, hop, h⟩
          · exact ih h
        · cases h
      · cases h
    · cases h

/-- The parallel assignment leaves the other slots alone. -/
theorem assignPhis_env {env env' : ℕ → LuaValue} {ps : List (ℕ × ℕ)} {q : ℕ} (hq : ∀ p ∈ ps, p.1 ≠ q)
    (h : tr.assignPhis env ps = some env') : env' q = env q := by
  simp only [assignPhis, Option.bind_eq_bind, Option.bind_eq_some_iff] at h
  obtain ⟨vs, -, h⟩ := h
  split at h
  case isFalse => cases h
  obtain rfl := Option.some.inj h
  have hfold : ∀ (l : List ((ℕ × ℕ) × LuaValue)) (env : ℕ → LuaValue), (∀ p ∈ l, p.1.1 ≠ q) →
      l.foldl (fun env p => Function.update env p.1.1 p.2) env q = env q := by
    intro l
    induction l with
    | nil => exact fun env _ => rfl
    | cons p l ih =>
      intro env hl
      rw [List.foldl_cons, ih _ fun p hp => hl p (List.mem_cons_of_mem _ hp)]
      exact Function.update_of_ne (hl p List.mem_cons_self).symm _ _
  exact hfold _ env fun p hp => hq p.1 (List.of_mem_zip hp).1

end Phis

/-! ### The same trace with another buffer -/

section Congr
variable {R tr} {b : IrBuf} (hk : ∀ r, b.constBits r = tr.ir.constBits r)
include hk

theorem restoreSnapshot_congr (m : Machine H) (idx : ℕ) :
    { tr with ir := b }.restoreSnapshot R m idx = tr.restoreSnapshot R m idx := by
  have hentry : { tr with ir := b }.restoreEntry R m.env m.cbase = tr.restoreEntry R m.env m.cbase := by
    funext w sn
    simp only [restoreEntry, readRef_congr hk]
  simp only [restoreSnapshot, hentry]
  rfl

theorem exitSnapshot_congr (m : Machine H) (idx : ℕ) (gc : Bool) :
    { tr with ir := b }.exitSnapshot R m idx gc = tr.exitSnapshot R m idx gc := by
  simp only [exitSnapshot, restoreSnapshot_congr hk]

omit hk in
theorem snapFor_congr (r : ℕ) : { tr with ir := b }.snapFor r = tr.snapFor r := rfl

theorem tail_congr (hl : b.chain .loop = tr.ir.chain .loop)
    (hp : ∀ l, { tr with ir := b }.phis l = tr.phis l) (m : Machine H) :
    { tr with ir := b }.tail R m = tr.tail R m := by
  simp only [tail, hl, hp, assignPhis, readRef_congr hk, restoreSnapshot_congr hk, exitSnapshot_congr hk]
  rfl

end Congr

end Trace
end LuajitRs.Ir
