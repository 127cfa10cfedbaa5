import LuajitRs.Runtime.Table.Refinement

/-! `next` as a scan over positions. The array slots come first and the nodes after them, and a key
that was returned is mapped back to the position behind its own. The helper that the JIT calls in
place of `next` has its own loops and is shown to agree. -/
namespace LuajitRs
open Lib.Chain

namespace LuaTable

/-! ### The traversal helper of the JIT -/

/-- The array loop of `jit_tnextk` over `k` slots from `i` on. -/
def jitArrayLoop (t : LuaTable) : ℕ → ℕ → Except Fault (Option LuaValue)
  | 0, _ => .ok none
  | k+1, i => do
    let v ← t.arrayAt i
    if !v.isNil then pure (some (.ofInt i)) else jitArrayLoop t k (i + 1)

/-- The node loop of `jit_tnextk` over `k` nodes from `idx` on. -/
def jitHashLoop (t : LuaTable) : ℕ → ℕ → Except Fault (Option LuaValue)
  | 0, _ => .ok none
  | k+1, idx => do
    let nd ← t.nodeSlot idx
    if !nd.val.isNil then pure (some nd.key) else jitHashLoop t k (idx + 1)

def jitHashScan (t : LuaTable) : Except Fault (Option LuaValue) :=
  if t.hasHpart then t.jitHashLoop (t.hmask + 1) 0 else .ok none

/-- The next key after `key`, or nil at the end. -/
def jitTnextk (h : LuaValue → UInt32) (t : LuaTable) (key : LuaValue) : Except Fault LuaValue :=
  match key.asInt32Exact.filter fun k => 0 ≤ k ∧ k.toNat < t.asize with
  | some k => do
    match ← t.jitArrayLoop (t.asize - (k.toNat + 1)) (k.toNat + 1) with
    | some nk => pure nk
    | none => do
      match ← t.jitHashScan with
      | some nk => pure nk
      | none => pure .nil
  | none => do
    match ← t.next h key with
    | some (nk, _) => pure nk
    | none => pure .nil

variable {h : LuaValue → UInt32} {t t' : LuaTable} {k v : LuaValue}

/-! ### Positions -/

/-- The number of positions. -/
def size (t : LuaTable) : ℕ := t.asize + t.node.length

/-- The key and the value at a position. -/
def entryAt (t : LuaTable) (p : ℕ) : LuaValue × LuaValue :=
  if p < t.asize then (.ofInt p, t.array.getD p .nil)
  else ((t.nodeAt (p - t.asize)).key, (t.nodeAt (p - t.asize)).val)

/-- The first entry with a value among the `k` positions from `p` on. -/
def scan (t : LuaTable) (k p : ℕ) : Option (LuaValue × LuaValue) :=
  ((List.range' p k).find? fun q => !(t.entryAt q).2.isNil).map t.entryAt

theorem scan_succ (k p : ℕ) :
    t.scan (k+1) p = if (t.entryAt p).2.isNil then t.scan k (p+1) else some (t.entryAt p) := by
  cases hnil : (t.entryAt p).2.isNil <;> simp [scan, List.range'_succ, hnil]

theorem scan_add (k l p : ℕ) : t.scan (k + l) p = (t.scan k p).or (t.scan l (p + k)) := by
  rw [scan, ← List.range'_append_1, List.find?_append, scan, scan]
  cases (List.range' p k).find? fun q => !(t.entryAt q).2.isNil <;> rfl

theorem scan_eq_some {n p : ℕ} (hs : t.scan n p = some (k, v)) :
    ∃ q, p ≤ q ∧ q < p + n ∧ t.entryAt q = (k, v) ∧ v ≠ .nil ∧
      ∀ r, p ≤ r → r < q → (t.entryAt r).2 = .nil := by
  induction n generalizing p with
  | zero => simp [scan] at hs
  | succ n ih =>
    rw [scan_succ] at hs
    split_ifs at hs with hnil
    · obtain ⟨q, hpq, hq, he, hv, hbefore⟩ := ih hs
      refine ⟨q, by omega, by omega, he, hv, fun r hpr hrq => ?_⟩
      obtain rfl | hlt := Nat.eq_or_lt_of_le hpr
      · exact of_decide_eq_true hnil
      · exact hbefore r hlt hrq
    · rw [Option.some.injEq] at hs
      refine ⟨p, le_rfl, by omega, hs, ?_, fun r hpr hrp => by omega⟩
      rw [hs] at hnil
      simpa [LuaValue.isNil] using hnil

theorem scan_eq_none {n p : ℕ} (hs : t.scan n p = none) :
    ∀ r, p ≤ r → r < p + n → (t.entryAt r).2 = .nil := by
  intro r hpr hr
  simp only [scan, Option.map_eq_none_iff, List.find?_eq_none, List.mem_range'_1] at hs
  simpa [LuaValue.isNil] using hs r ⟨hpr, hr⟩

/-! ### `next` is a scan -/

section Scan
variable (w : t.Wf)
include w

theorem nextArray_eq (n p : ℕ) (hp : p + n ≤ t.asize) : t.nextArray n p = .ok (t.scan n p) := by
  induction n generalizing p with
  | zero => rfl
  | succ n ih =>
    have hat : t.entryAt p = (.ofInt p, t.array.getD p .nil) := by rw [entryAt, if_pos (by omega)]
    rw [nextArray, arrayAt_eq (by rw [← w.asize_eq]; omega), scan_succ, hat]
    simp only [bind, Except.bind]
    split_ifs
    · exact ih (p+1) (by omega)
    · rfl

theorem nextHash_eq (n i : ℕ) (hi : i + n ≤ t.node.length) :
    t.nextHash n i = .ok (t.scan n (t.asize + i)) := by
  induction n generalizing i with
  | zero => rfl
  | succ n ih =>
    have hat : t.entryAt (t.asize + i) = ((t.nodeAt i).key, (t.nodeAt i).val) := by
      rw [entryAt, if_neg (by omega), Nat.add_sub_cancel_left]
    rw [nextHash, w.nodeSlot_eq (by omega), scan_succ, hat]
    simp only [bind, Except.bind]
    split_ifs
    · exact ih (i+1) (by omega)
    · rfl

theorem nextFrom_eq {p : ℕ} (hp : p ≤ t.size) : t.nextFrom p = .ok (t.scan (t.size - p) p) := by
  have hlen : t.size = t.asize + t.node.length := rfl
  have hhash : (if t.hasHpart then t.nextHash (t.hmask + 1 - (p - t.asize)) (p - t.asize) else pure none) =
      Except.ok (ε := Fault) (t.scan (t.node.length - (p - t.asize)) (t.asize + (p - t.asize))) := by
    split_ifs with hpart
    · rw [w.hmask_eq hpart]
      exact nextHash_eq w _ _ (by omega)
    · rw [w.hasHpart_iff] at hpart
      rw [show t.node.length - (p - t.asize) = 0 by omega]
      rfl
  have hsum : t.size - p = (t.asize - p) + (t.node.length - (p - t.asize)) := by omega
  rw [nextFrom, hsum, scan_add]
  by_cases hpa : p ≤ t.asize
  · rw [nextArray_eq w _ p (by omega)]
    simp only [bind, Except.bind]
    cases t.scan (t.asize - p) p with
    | some kv => rfl
    | none => rw [show p + (t.asize - p) = t.asize + (p - t.asize) by omega]; exact hhash
  · rw [show t.asize - p = 0 by omega]
    simp only [nextArray, bind, Except.bind]
    rw [show p + 0 = t.asize + (p - t.asize) by omega]
    exact hhash

theorem jitArrayLoop_eq (n p : ℕ) (hp : p + n ≤ t.asize) :
    t.jitArrayLoop n p = .ok ((t.scan n p).map Prod.fst) := by
  induction n generalizing p with
  | zero => rfl
  | succ n ih =>
    have hat : t.entryAt p = (.ofInt p, t.array.getD p .nil) := by rw [entryAt, if_pos (by omega)]
    rw [jitArrayLoop, arrayAt_eq (by rw [← w.asize_eq]; omega), scan_succ, hat]
    simp only [bind, Except.bind]
    cases (t.array.getD p .nil).isNil
    · rfl
    · exact ih (p+1) (by omega)

theorem jitHashLoop_eq (n i : ℕ) (hi : i + n ≤ t.node.length) :
    t.jitHashLoop n i = .ok ((t.scan n (t.asize + i)).map Prod.fst) := by
  induction n generalizing i with
  | zero => rfl
  | succ n ih =>
    have hat : t.entryAt (t.asize + i) = ((t.nodeAt i).key, (t.nodeAt i).val) := by
      rw [entryAt, if_neg (by omega), Nat.add_sub_cancel_left]
    rw [jitHashLoop, w.nodeSlot_eq (by omega), scan_succ, hat]
    simp only [bind, Except.bind]
    cases (t.nodeAt i).val.isNil
    · rfl
    · exact ih (i+1) (by omega)

/-- The key of an entry, or nil at the end of a traversal. -/
def keyOrNil : Option (LuaValue × LuaValue) → LuaValue
  | some kv => kv.1
  | none => .nil

/-- On every key the JIT's helper returns the key that `next` returns. -/
theorem jitTnextk_eq (h : LuaValue → UInt32) (key : LuaValue) :
    t.jitTnextk h key = (t.next h key).map keyOrNil := by
  unfold jitTnextk
  have hgeneric : (do match ← t.next h key with
      | some (nk, _) => pure nk
      | none => pure .nil) = (t.next h key).map keyOrNil := by
    rcases t.next h key with _ | (_ | _) <;> rfl
  cases hf : key.asInt32Exact.filter fun k => 0 ≤ k ∧ k.toNat < t.asize with
  | none => exact hgeneric
  | some k =>
    obtain ⟨hk, hb⟩ := Option.filter_eq_some_iff.mp hf
    have hb : 0 ≤ k ∧ k.toNat < t.asize := of_decide_eq_true hb
    have hmax := w.asize_le
    have hidx : t.arrayIdx key = some k.toNat := by
      refine arrayIdx_eq_some.mpr ⟨?_, hb.2⟩
      rw [arrayKey, hk]
      exact if_pos ⟨hb.1, by omega⟩
    have hnil : key.isNil = false := by
      cases key <;> first | rfl | cases hk
    have hnext : t.next h key = .ok (t.scan (t.size - (k.toNat + 1)) (k.toNat + 1)) := by
      have hpos : k.toNat + 1 ≤ t.size := by unfold size; omega
      rw [next, keyIndex, hnil, hidx]
      exact nextFrom_eq w hpos
    have hhash : t.jitHashScan = .ok ((t.scan t.node.length t.asize).map Prod.fst) := by
      unfold jitHashScan
      split_ifs with hpart
      · rw [w.hmask_eq hpart]
        exact jitHashLoop_eq w _ 0 (by omega)
      · rw [w.hasHpart_iff] at hpart
        rw [show t.node.length = 0 by omega]
        rfl
    have hsum : t.size - (k.toNat + 1) = (t.asize - (k.toNat + 1)) + t.node.length := by unfold size; omega
    have harr := jitArrayLoop_eq w (t.asize - (k.toNat + 1)) (k.toNat + 1) (by omega)
    rw [hnext, hsum, scan_add, show k.toNat + 1 + (t.asize - (k.toNat + 1)) = t.asize by omega]
    simp only [harr, hhash, bind, Except.bind]
    cases t.scan (t.asize - (k.toNat + 1)) (k.toNat + 1) with
    | some kv => rfl
    | none => cases t.scan t.node.length t.asize <;> rfl

end Scan

end LuaTable
end LuajitRs
