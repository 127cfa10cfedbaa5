import Mathlib.Data.Finset.Card
import LuajitRs.Lib.Chain
import LuajitRs.Runtime.Table

/-! The hash part of a table as a forest of chains. `LuaTable.Wf` collects what holds of the node
array whatever the hash of a key is; `LuaTable.Chained` adds, for a fixed hash, where the keys sit. -/
namespace LuajitRs
open Lib.Chain

namespace LuaTable

/-- A node by index, empty past the end. -/
def nodeAt (t : LuaTable) (i : ℕ) : Node := t.node.getD i .EMPTY

/-- The chain links of the hash part. -/
def nextOf (t : LuaTable) (i : ℕ) : Option ℕ :=
  if (t.nodeAt i).next = NIL_NODE then none else some (t.nodeAt i).next

def Live (t : LuaTable) (i : ℕ) : Prop := (t.nodeAt i).val ≠ .nil
def Keyed (t : LuaTable) (i : ℕ) : Prop := (t.nodeAt i).key ≠ .nil

/-- Well-formedness without reference to a hash: sizes, links, and nodes that were never used. -/
structure Wf (t : LuaTable) : Prop where
  asize_eq : t.asize = t.array.length
  asize_le : t.asize ≤ LJ_MAX_ASIZE
  size : (t.hmask = 0 ∧ t.node = []) ∨
    ∃ b, 0 < b ∧ b ≤ LJ_MAX_HBITS ∧ t.node.length = 2^b ∧ t.hmask = 2^b - 1
  freetop_le : t.freetop ≤ t.node.length
  next_lt : ∀ i j, t.nextOf i = some j → j < t.node.length
  forest : Forest t.nextOf
  fresh : ∀ i, ¬ t.Keyed i → Fresh t.nextOf i ∧ ¬ t.Live i
  top_keyed : ∀ i, t.freetop ≤ i → i < t.node.length → t.Keyed i
  valid : ∀ i, t.Keyed i → (t.nodeAt i).key.ValidKey
  split : ∀ i, t.Live i → t.arrayIdx (t.nodeAt i).key = none

section NodeAt
variable {t : LuaTable} {i j : ℕ}

theorem nodeAt_of_ge (hi : t.node.length ≤ i) : t.nodeAt i = .EMPTY := by
  simp [nodeAt, hi]

theorem lt_of_keyed (hi : t.Keyed i) : i < t.node.length := by
  by_contra hge
  exact hi (by rw [nodeAt_of_ge (by omega)]; rfl)

theorem nextOf_eq_some : t.nextOf i = some j ↔ (t.nodeAt i).next = j ∧ j ≠ NIL_NODE := by
  unfold nextOf
  split_ifs with hn
  · simp only [false_iff, not_and, not_not]
    exact fun hj => hj ▸ hn
  · simp only [Option.some.injEq]
    exact ⟨fun hj => ⟨hj, hj ▸ hn⟩, fun hj => hj.1⟩

theorem nextOf_eq_none : t.nextOf i = none ↔ (t.nodeAt i).next = NIL_NODE := by
  unfold nextOf
  split_ifs with hn <;> simp [hn]

theorem lt_of_nextOf (hi : t.nextOf i = some j) : i < t.node.length := by
  by_contra hge
  have := (nextOf_eq_some.mp hi)
  rw [nodeAt_of_ge (by omega)] at this
  exact this.2 this.1.symm

end NodeAt

namespace Wf
variable {t : LuaTable} (w : t.Wf) {i : ℕ}
include w

theorem length_lt : t.node.length < NIL_NODE := by
  obtain ⟨_, hn⟩ | ⟨b, _, hb, hlen, _⟩ := w.size
  · simp [hn, NIL_NODE]
  · have : 2^b ≤ 2^26 := Nat.pow_le_pow_right (by norm_num) hb
    simp only [NIL_NODE]
    omega

theorem keyed_of_live (hi : t.Live i) : t.Keyed i := by
  by_contra hk
  exact (w.fresh i hk).2 hi

theorem hasHpart_iff : t.hasHpart = true ↔ 0 < t.node.length := by
  simp only [hasHpart, ne_eq, decide_not, Bool.not_eq_true', decide_eq_false_iff_not]
  obtain ⟨hm, hn⟩ | ⟨b, hb0, hb, hlen, hm⟩ := w.size
  · simp [hm, hn]
  · have : 2^1 ≤ 2^b := Nat.pow_le_pow_right (by norm_num) hb0
    omega

theorem length_of_hpart (hp : t.hasHpart = true) :
    ∃ b, 0 < b ∧ b ≤ LJ_MAX_HBITS ∧ t.node.length = 2^b ∧ t.hmask = 2^b - 1 := by
  obtain ⟨hm, _⟩ | hb := w.size
  · simp [hasHpart, hm] at hp
  · exact hb

theorem hmask_eq (hp : t.hasHpart = true) : t.hmask + 1 = t.node.length := by
  obtain ⟨b, _, _, hlen, hm⟩ := w.length_of_hpart hp
  have := Nat.two_pow_pos b
  omega

theorem hashSlot_lt (h : LuaValue → UInt32) (hp : t.hasHpart = true) (key : LuaValue) :
    t.hashSlot h key < t.node.length := by
  have := w.hmask_eq hp
  have : t.hashSlot h key ≤ t.hmask := Nat.and_le_right
  omega

theorem nodeSlot_eq (hi : i < t.node.length) : t.nodeSlot i = .ok (t.nodeAt i) := by
  have hp := w.hasHpart_iff.mpr (by omega)
  simp only [hasHpart, decide_eq_true_eq] at hp
  simp [nodeSlot, nodeAt, Nat.pos_of_ne_zero hp, hi]

theorem reach_lt {j : ℕ} (hi : i < t.node.length) (hr : Reach t.nextOf i j) : j < t.node.length :=
  hr.mem (S := {x | x < t.node.length}) (fun x _ y hxy => w.next_lt x y hxy) hi

end Wf

/-! ### Walks -/

section Walk
variable {t : LuaTable} {key : LuaValue}

/-- The property that stops the walk for `key`. -/
def holds (t : LuaTable) (key : LuaValue) (i : ℕ) : Bool := (t.nodeAt i).key = key

theorem walk_eq (hslot : ∀ i, i < t.node.length → t.nodeSlot i = .ok (t.nodeAt i))
    (hlt : ∀ i j, t.nextOf i = some j → j < t.node.length) (fuel n : ℕ) (hn : n < t.node.length) :
    t.walk key fuel n = match findFrom t.nextOf (t.holds key) fuel n with
      | some r => .ok r
      | none => .error .diverge := by
  induction fuel generalizing n with
  | zero => rfl
  | succ k ih =>
    rw [walk, hslot n hn]
    simp only [bind, Except.bind, pure, Except.pure, findFrom]
    by_cases hk : (t.nodeAt n).key = key
    · simp [holds, hk]
    · simp only [holds, hk, if_false, decide_false, Bool.false_eq_true]
      by_cases hnil : (t.nodeAt n).next = NIL_NODE
      · simp [hnil, nextOf_eq_none.mpr hnil]
      · have hnext := nextOf_eq_some.mpr ⟨rfl, hnil⟩
        simp only [hnil, if_false, hnext]
        exact ih _ (hlt n _ hnext)

/-- The walk for a key on chains that are linked inside the hash part. -/
theorem findKey_linked (hslot : ∀ i, i < t.node.length → t.nodeSlot i = .ok (t.nodeAt i))
    (hlt : ∀ i j, t.nextOf i = some j → j < t.node.length) (forest : Forest t.nextOf) {h : LuaValue → UInt32}
    (hn : t.hashSlot h key < t.node.length) :
    ∃ r, t.findKey h key = .ok r ∧
      FirstMatch t.nextOf (t.holds key) (t.hashSlot h key) r := by
  obtain ⟨r, hr, hm⟩ := findFrom_spec (t.holds key) (Finset.range t.node.length)
    (fun a _ b hab => Finset.mem_range.mpr (hlt a b hab)) (forest.acyclicFrom _) (Finset.mem_range.mpr hn)
    (k := t.node.length + 1) (by simp)
  exact ⟨r, by rw [findKey, walk_eq hslot hlt _ _ hn, hr], hm⟩

/-- The walk for a key finds the first node with that key on the chain of its main position. -/
theorem findKey_spec (w : t.Wf) (h : LuaValue → UInt32) (hp : t.hasHpart = true) (key : LuaValue) :
    ∃ r, t.findKey h key = .ok r ∧
      FirstMatch t.nextOf (t.holds key) (t.hashSlot h key) r :=
  findKey_linked (fun _ => w.nodeSlot_eq) w.next_lt w.forest (w.hashSlot_lt h hp key)

theorem findPred_of_findFrom (w : t.Wf) {n b : ℕ} (hn : n < t.node.length) (fuel a : ℕ)
    (ha : a < t.node.length)
    (hf : findFrom t.nextOf (fun i => t.nextOf i = some n) fuel a = some (some b)) :
    t.findPred n fuel a = .ok b := by
  induction fuel generalizing a with
  | zero => simp [findFrom] at hf
  | succ k ih =>
    have hnil : n ≠ NIL_NODE := by have := w.length_lt; omega
    rw [findPred, w.nodeSlot_eq ha]
    simp only [bind, Except.bind, pure, Except.pure]
    by_cases hp : t.nextOf a = some n
    · simp only [findFrom, hp, decide_true, if_true, Option.some.injEq] at hf
      rw [if_pos (nextOf_eq_some.mp hp).1, hf]
    · have hne : (t.nodeAt a).next ≠ n := fun he => hp (nextOf_eq_some.mpr ⟨he, hnil⟩)
      simp only [findFrom, hp, decide_false, Bool.false_eq_true, if_false] at hf
      cases hnext : t.nextOf a with
      | none => simp [hnext] at hf
      | some c =>
        simp only [hnext] at hf
        have hc := (nextOf_eq_some.mp hnext).1
        rw [if_neg hne, hc]
        exact ih c (w.next_lt a c hnext) hf

/-- The predecessor walk from a node whose chain reaches `n` ends at the predecessor of `n`. -/
theorem findPred_spec (w : t.Wf) {n a : ℕ} (hn : n < t.node.length) (ha : a < t.node.length)
    (hr : Reach t.nextOf a n) (hne : a ≠ n) :
    ∃ p, t.findPred n (t.node.length + 1) a = .ok p ∧ t.nextOf p = some n := by
  obtain ⟨r, hf, hm⟩ := findFrom_spec (fun i => t.nextOf i = some n)
    (Finset.range t.node.length) (fun a _ b hab => Finset.mem_range.mpr (w.next_lt a b hab))
    (w.forest.acyclicFrom a) (Finset.mem_range.mpr ha) (k := t.node.length + 1) (by simp)
  cases r with
  | none =>
    obtain ⟨c, hac, hcn⟩ := hr.pred_of_ne hne
    exact absurd (decide_eq_true hcn) (hm c hac)
  | some p => exact ⟨p, findPred_of_findFrom w hn _ a ha hf, of_decide_eq_true hm.2.1⟩

end Walk

/-! ### Free nodes -/

/-- The nodes that no key ever occupied. -/
def freeSet (t : LuaTable) : Finset ℕ :=
  (Finset.range t.node.length).filter fun i => (t.nodeAt i).key = .nil

theorem mem_freeSet {t : LuaTable} {i : ℕ} : i ∈ t.freeSet ↔ i < t.node.length ∧ ¬ t.Keyed i := by
  simp [freeSet, Keyed]

theorem findFree_spec {t : LuaTable} (w : t.Wf) (k : ℕ) (hk : k ≤ t.node.length) :
    (∃ f, t.findFree k = .ok (some f) ∧ f < k ∧ ¬ t.Keyed f ∧ ∀ i, f < i → i < k → t.Keyed i) ∨
      (t.findFree k = .ok none ∧ ∀ i < k, t.Keyed i) := by
  induction k with
  | zero => exact .inr ⟨rfl, by simp⟩
  | succ k ih =>
    have hslot := w.nodeSlot_eq (show k < t.node.length by omega)
    by_cases hnil : (t.nodeAt k).key = .nil
    · refine .inl ⟨k, ?_, by omega, not_not.mpr hnil, fun i _ _ => by omega⟩
      simp [findFree, hslot, bind, Except.bind, pure, Except.pure, LuaValue.isNil, hnil]
    · have hstep : t.findFree (k+1) = t.findFree k := by
        simp [findFree, hslot, bind, Except.bind, LuaValue.isNil, hnil]
      rw [hstep]
      obtain ⟨f, hf, hlt, hfree, habove⟩ | ⟨hf, hall⟩ := ih (by omega)
      · refine .inl ⟨f, hf, by omega, hfree, fun i hfi hik => ?_⟩
        obtain rfl | hne := Nat.eq_or_lt_of_le (Nat.le_of_lt_succ hik)
        · exact hnil
        · exact habove i hfi hne
      · refine .inr ⟨hf, fun i hik => ?_⟩
        obtain rfl | hne := Nat.eq_or_lt_of_le (Nat.le_of_lt_succ hik)
        · exact hnil
        · exact hall i hne

/-- With an unused node left, the scan from `freetop` finds one. -/
theorem findFree_of_freeSet {t : LuaTable} (w : t.Wf) (hfree : t.freeSet.Nonempty) :
    ∃ f, t.findFree t.freetop = .ok (some f) ∧ f < t.freetop ∧ ¬ t.Keyed f ∧
      ∀ i, f < i → i < t.freetop → t.Keyed i := by
  obtain h | ⟨_, hall⟩ := findFree_spec w t.freetop w.freetop_le
  · exact h
  · obtain ⟨i, hi⟩ := hfree
    obtain ⟨hlt, hnk⟩ := mem_freeSet.mp hi
    by_cases htop : i < t.freetop
    · exact absurd (hall i htop) hnk
    · exact absurd (w.top_keyed i (by omega) hlt) hnk

/-! ### Where the keys are -/

/-- Every node of a class is on the chain of its key's main position. -/
def Homed (h : LuaValue → UInt32) (t : LuaTable) (T : ℕ → Prop) : Prop :=
  ∀ i, T i → Reach t.nextOf (t.hashSlot h (t.nodeAt i).key) i

/-- The live nodes can be found: each is the first node with its key on the chain of the key's
main position. This is all that lookups rely on, and it does not constrain dead keys. -/
structure Findable (h : LuaValue → UInt32) (t : LuaTable) : Prop where
  homed : t.Homed h t.Live
  first : ∀ i, t.Live i → ∀ j, Reach t.nextOf (t.hashSlot h (t.nodeAt i).key) j →
    (t.nodeAt j).key = (t.nodeAt i).key → Reach t.nextOf i j

/-- Only the hash of the live keys matters. -/
theorem Findable.congr {h h' : LuaValue → UInt32} {t : LuaTable} (fd : t.Findable h)
    (hh : ∀ i, t.Live i → h' (t.nodeAt i).key = h (t.nodeAt i).key) : t.Findable h' := by
  have hslot : ∀ i, t.Live i → t.hashSlot h' (t.nodeAt i).key = t.hashSlot h (t.nodeAt i).key := by
    intro i hi
    simp only [hashSlot, hh i hi]
  constructor
  · intro i hi
    rw [hslot i hi]
    exact fd.homed i hi
  · intro i hi
    rw [hslot i hi]
    exact fd.first i hi

/-- The chain invariant for a hash that has not changed since the nodes were linked. Dead keys
are included, since they still link the chains. -/
structure Chained (h : LuaValue → UInt32) (t : LuaTable) : Prop extends t.Wf where
  homed : t.Homed h t.Keyed
  unique : ∀ i j, t.Keyed i → (t.nodeAt i).key = (t.nodeAt j).key → i = j
  /-- A node outside its key's main position exists only while the occupant of that position is
  in its own main position. -/
  foreign : ∀ i, t.Keyed i → t.hashSlot h (t.nodeAt i).key ≠ i →
    t.hashSlot h (t.nodeAt (t.hashSlot h (t.nodeAt i).key)).key = t.hashSlot h (t.nodeAt i).key

theorem Chained.findable {h : LuaValue → UInt32} {t : LuaTable} (c : t.Chained h) : t.Findable h where
  homed i hi := c.homed i (c.toWf.keyed_of_live hi)
  first i hi j _ hj := by
    rw [c.unique i j (c.toWf.keyed_of_live hi) hj.symm]

end LuaTable
end LuajitRs
