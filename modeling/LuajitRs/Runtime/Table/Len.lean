import LuajitRs.Runtime.Table.Links
import LuajitRs.Runtime.Table.Traversal
import Mathlib.Order.Interval.Finset.Nat

/-! The length operator. A search of the array part, or of doubled keys in the hash part, ends at a border:
a key without a value whose predecessor has one. -/
namespace LuajitRs

/-- The cast `n as i32` of a `u32`. -/
def u32AsI32 (n : ℕ) : ℤ := (n : ℤ).bmod (2^32)

theorem u32AsI32_eq {n : ℕ} (h : n < 2^31) : u32AsI32 n = n := Int.bmod_eq_of_le (by omega) (by omega)

namespace LuaTable

/-! ### Machine arithmetic -/

def addU32 (a b : ℕ) : Except Fault ℕ := if a + b < 2^32 then .ok (a + b) else .error .overflow
def subU32 (a b : ℕ) : Except Fault ℕ := if b ≤ a then .ok (a - b) else .error .overflow
def mulU32 (a b : ℕ) : Except Fault ℕ := if a * b < 2^32 then .ok (a * b) else .error .overflow

theorem addU32_eq {a b : ℕ} (h : a + b < 2^32) : addU32 a b = .ok (a + b) := if_pos h
theorem subU32_eq {a b : ℕ} (h : b ≤ a) : subU32 a b = .ok (a - b) := if_pos h
theorem mulU32_eq {a b : ℕ} (h : a * b < 2^32) : mulU32 a b = .ok (a * b) := if_pos h

/-! ### The searches -/

section Search
variable (absent : ℕ → Except Fault Bool)

/-- The binary search between a key `lo` with a value and a key `hi` without one. -/
def bisect : ℕ → ℕ → ℕ → Except Fault ℕ
  | 0, _, _ => .error .diverge
  | fuel+1, lo, hi => do
    if 1 < (← subU32 hi lo) then
      let mid := (← addU32 lo hi) / 2
      if ← absent mid then bisect fuel lo mid else bisect fuel mid hi
    else pure lo

/-- The linear search for keys that double beyond the `i32` range. -/
def linear : ℕ → ℕ → Except Fault ℕ
  | 0, _ => .error .diverge
  | fuel+1, i => do
    if ← absent i then subU32 i 1 else linear fuel (← addU32 i 1)

/-- The unbound search: `hi` doubles until it has no value. -/
def unbound (size : ℕ) : ℕ → ℕ → ℕ → Except Fault ℕ
  | 0, _, _ => .error .diverge
  | fuel+1, lo, hi => do
    if ← absent hi then bisect absent hi lo hi
    else if (0x7fffffff - 2) / 2 < hi then linear absent (size + 1) 1
    else unbound size fuel hi (← mulU32 hi 2)

end Search

section Len
variable (h : LuaValue → UInt32) (t : LuaTable)

/-- `get_int(k as i32).is_nil()`. -/
def intAbsent (k : ℕ) : Except Fault Bool := (t.getInt h (u32AsI32 k)).map LuaValue.isNil

def lenHash (hi : ℕ) : Except Fault ℕ := do
  unbound (t.intAbsent h) (t.asize + t.node.length) 32 hi (← addU32 hi 1)

/-- Table length. -/
def len : Except Fault ℕ := do
  let hi := t.asize - 1
  let topNil ← if 0 < hi then (t.arrayAt hi).map LuaValue.isNil else pure false
  if topNil then bisect (fun i => (t.arrayAt i).map LuaValue.isNil) hi 0 hi
  else if !t.hasHpart then pure hi
  else t.lenHash h hi

end Len

/-! ### Lookups -/

section Look
variable {h : LuaValue → UInt32} {t : LuaTable} {k : LuaValue} {i : ℕ}

/-- What a program reads under a key. -/
def look (h : LuaValue → UInt32) (t : LuaTable) (k : LuaValue) : LuaValue :=
  match t.get h k with
  | .ok v => v
  | .error _ => .nil

theorem look_of_array (l : t.Linked) (hidx : t.arrayIdx k = some i) :
    t.get h k = .ok (t.array.getD i .nil) := by
  rw [get, hidx]
  exact arrayAt_eq (by rw [← l.asize_eq]; exact (arrayIdx_eq_some.mp hidx).2)

/-- A value that is not in the array part is in a node with its key. -/
theorem get_hash (l : t.Linked) (hidx : t.arrayIdx k = none) :
    ∃ v, t.get h k = .ok v ∧ (v ≠ .nil → ∃ j, j < t.node.length ∧ (t.nodeAt j).key = k) := by
  rw [get, hidx]
  dsimp only
  split_ifs with hc
  · exact ⟨.nil, rfl, fun hv => absurd rfl hv⟩
  · rw [Bool.or_eq_true, not_or, Bool.not_eq_true', Bool.not_eq_false] at hc
    obtain ⟨r, hr, hm⟩ := l.findKey (h := h) hc.2 k
    rw [getChain, hr]
    cases r with
    | none => exact ⟨.nil, rfl, fun hv => absurd rfl hv⟩
    | some n =>
      have hn : n < t.node.length := hm.1.mem (S := {x | x < t.node.length})
        (fun x _ y hxy => l.next_lt x y hxy) (l.hashSlot_lt hc.2 k)
      simp only [bind, Except.bind, l.nodeSlot_eq hn]
      exact ⟨_, rfl, fun _ => ⟨n, hn, of_decide_eq_true hm.2.1⟩⟩

theorem get_look (l : t.Linked) (k : LuaValue) : t.get h k = .ok (t.look h k) := by
  obtain ⟨v, hv⟩ : ∃ v, t.get h k = .ok v := by
    cases hidx : t.arrayIdx k with
    | some i => exact ⟨_, look_of_array l hidx⟩
    | none =>
      obtain ⟨v, hv, -⟩ := get_hash (h := h) l hidx
      exact ⟨v, hv⟩
  rw [look, hv]

theorem arrayIdx_lt (l : t.Linked) (hi : i < t.asize) : t.arrayIdx (.ofInt i) = some i :=
  arrayIdx_ofInt (t := t.skeleton) l hi

theorem getInt_look (l : t.Linked) (i : ℕ) : t.getInt h i = .ok (t.look h (.ofInt i)) := by
  rw [getInt]
  split_ifs with hb
  · have hi : i < t.asize := hb.2
    have harr : t.arrayAt i = .ok (t.array.getD i .nil) := arrayAt_eq (by rw [← l.asize_eq]; exact hi)
    rw [← get_look l, look_of_array l (arrayIdx_lt l hi)]
    exact harr
  · exact get_look l _

end Look

/-! ### Borders -/

section Border
variable {h : LuaValue → UInt32} {t : LuaTable}

/-- The table has a value under the key `n`, if `n` is positive, and none under `n + 1`. -/
structure Border (h : LuaValue → UInt32) (t : LuaTable) (n : ℕ) : Prop where
  lt : n < 2^31
  last : n ≠ 0 → ∃ v, t.get h (.ofInt n) = .ok v ∧ v ≠ .nil
  next : t.get h (.ofInt (n + 1 : ℕ)) = .ok .nil

theorem border_of_look (l : t.Linked) {n : ℕ} (hn : n < 2^31) (hlast : n ≠ 0 → t.look h (.ofInt n) ≠ .nil)
    (hnext : t.look h (.ofInt (n + 1 : ℕ)) = .nil) : t.Border h n :=
  ⟨hn, fun h0 => ⟨_, get_look l _, hlast h0⟩, by rw [get_look l, hnext]⟩

/-- What a search needs of its probe below `b`. -/
def Probes (h : LuaValue → UInt32) (t : LuaTable) (absent : ℕ → Except Fault Bool) (b : ℕ) : Prop :=
  ∀ i, i < b → absent i = .ok (t.look h (.ofInt i)).isNil

variable {absent : ℕ → Except Fault Bool} {b : ℕ} (l : t.Linked)
include l

/-- The binary search keeps a value at `lo` and none at `hi`. -/
theorem bisect_border (hp : t.Probes h absent b) (fuel lo hi : ℕ) (hlt : lo < hi) (hb : hi < b) (h31 : hi ≤ 2^31)
    (hfuel : hi - lo ≤ fuel) (hlo : lo ≠ 0 → t.look h (.ofInt lo) ≠ .nil) (hhi : t.look h (.ofInt hi) = .nil) :
    ∃ n, bisect absent fuel lo hi = .ok n ∧ t.Border h n := by
  induction fuel generalizing lo hi with
  | zero => omega
  | succ fuel ih =>
    rw [bisect, subU32_eq hlt.le, addU32_eq (by omega)]
    simp only [bind, Except.bind]
    split
    next hgap =>
      have hmid : lo < (lo + hi) / 2 ∧ (lo + hi) / 2 < hi := by omega
      simp only [hp _ (hmid.2.trans hb)]
      cases hv : (t.look h (.ofInt ((lo + hi) / 2 : ℕ))).isNil with
      | true => exact ih lo _ hmid.1 (by omega) (by omega) (by omega) hlo (of_decide_eq_true hv)
      | false => exact ih _ hi hmid.2 hb h31 (by omega) (fun _ => of_decide_eq_false hv) hhi
    next hgap =>
      have hlast : hi = lo + 1 := by omega
      subst hlast
      exact ⟨lo, rfl, border_of_look l (by omega) hlo hhi⟩

theorem size_lt : t.size < 2^30 := by
  have hmax : LJ_MAX_ASIZE = 134217729 := rfl
  have hle := l.asize_le
  unfold size
  obtain ⟨-, hn⟩ | ⟨b, -, hb, hlen, -⟩ := l.size
  · rw [hn, List.length_nil]
    omega
  · have hpow : 2^b ≤ 2^26 := Nat.pow_le_pow_right (by norm_num) hb
    omega

omit l in
theorem ofInt_inj {i j : ℕ} (hi : i < 2^31) (hj : j < 2^31) (he : LuaValue.ofInt i = LuaValue.ofInt j) : i = j := by
  rw [LuaValue.ofInt_eq (by omega), LuaValue.ofInt_eq (by omega)] at he
  exact_mod_cast F64.ofInt_inj (by omega) (by omega) (LuaValue.num.inj he)

/-- A value under an integer key has a position of its own. -/
theorem exists_position {i : ℕ} (hi : i < 2^31) (hv : t.look h (.ofInt i) ≠ .nil) :
    ∃ p < t.size, (p < t.asize → p = i) ∧ (t.asize ≤ p → (t.nodeAt (p - t.asize)).key = .ofInt i) := by
  rw [size]
  cases hidx : t.arrayIdx (.ofInt i) with
  | some j =>
    have hj := (arrayIdx_eq_some.mp hidx).2
    have hkey := eq_ofInt_of_arrayIdx (LuaValue.validKey_ofInt (by omega)).normal hidx
    have hij : i = j := ofInt_inj hi (by have := l.asize_le; simp only [LJ_MAX_ASIZE, LJ_MAX_ABITS] at this; omega) hkey
    exact ⟨j, by omega, fun _ => hij.symm, fun hle => by omega⟩
  | none =>
    obtain ⟨v, hget, hnode⟩ := get_hash (h := h) l hidx
    rw [get_look l, Except.ok.injEq] at hget
    obtain ⟨j, hj, hkey⟩ := hnode (hget ▸ hv)
    refine ⟨t.asize + j, by omega, fun hlt => by omega, fun _ => ?_⟩
    rw [Nat.add_sub_cancel_left, hkey]

/-- The positive keys that have a value are no more than the positions of the table. -/
theorem exists_absent : ∃ i, 0 < i ∧ i ≤ t.size + 1 ∧ t.look h (.ofInt i) = .nil := by
  by_contra hall
  have hsize := size_lt l
  have hval : ∀ i ∈ Finset.Icc 1 (t.size + 1), ∃ p < t.size,
      (p < t.asize → p = i) ∧ (t.asize ≤ p → (t.nodeAt (p - t.asize)).key = .ofInt i) := by
    intro i hi
    rw [Finset.mem_Icc] at hi
    exact exists_position (h := h) l (by omega) fun hnil => hall ⟨i, hi.1, hi.2, hnil⟩
  choose! pos hpos using hval
  have hmaps : Set.MapsTo pos (Finset.Icc 1 (t.size + 1)) (Finset.range t.size) := by
    intro i hi
    exact Finset.mem_coe.mpr (Finset.mem_range.mpr (hpos i hi).1)
  have hinj : Set.InjOn pos (Finset.Icc 1 (t.size + 1)) := by
    intro i hi j hj he
    obtain ⟨-, hai, hni⟩ := hpos i hi
    obtain ⟨-, haj, hnj⟩ := hpos j hj
    rw [Finset.mem_coe, Finset.mem_Icc] at hi hj
    rw [← he] at haj hnj
    by_cases hlt : pos i < t.asize
    · rw [← hai hlt, ← haj hlt]
    · exact ofInt_inj (by omega) (by omega) ((hni (by omega)).symm.trans (hnj (by omega)))
  have hcard := Finset.card_le_card_of_injOn pos hmaps hinj
  rw [Nat.card_Icc, Finset.card_range] at hcard
  omega

/-- The linear search ends at the first key without a value. -/
theorem linear_border (hp : t.Probes h absent b) (fuel i : ℕ) {j : ℕ} (hj : t.look h (.ofInt j) = .nil) (hij : i ≤ j)
    (hjb : j < b) (h31 : j ≤ 2^31) (hfuel : j - i < fuel) (hi : 0 < i)
    (hlast : i - 1 ≠ 0 → t.look h (.ofInt (i - 1 : ℕ)) ≠ .nil) :
    ∃ n, linear absent fuel i = .ok n ∧ t.Border h n := by
  induction fuel generalizing i with
  | zero => omega
  | succ fuel ih =>
    rw [linear]
    simp only [hp i (by omega), bind, Except.bind]
    cases hv : (t.look h (.ofInt i)).isNil with
    | true =>
      have hnext : t.look h (.ofInt (i - 1 + 1 : ℕ)) = .nil := by
        rw [Nat.sub_add_cancel hi]
        exact of_decide_eq_true hv
      exact ⟨i - 1, subU32_eq hi, border_of_look l (by omega) hlast hnext⟩
    | false =>
      have hne : t.look h (.ofInt i) ≠ .nil := of_decide_eq_false hv
      have hij' : i ≠ j := by
        rintro rfl
        exact hne hj
      rw [addU32_eq (by omega)]
      exact ih (i + 1) (by omega) (by omega) (by omega) fun _ => hne

/-- The unbound search stays in the `i32` range. -/
theorem unbound_border (hp : t.Probes h absent (2^31)) (fuel lo hi : ℕ) (hlt : lo < hi)
    (hhi : hi ≤ 0x7fffffff - 2) (hfuel : 2^31 < hi * 2^fuel) (hlo : lo ≠ 0 → t.look h (.ofInt lo) ≠ .nil) :
    ∃ n, unbound absent t.size fuel lo hi = .ok n ∧ t.Border h n := by
  induction fuel generalizing lo hi with
  | zero => omega
  | succ fuel ih =>
    rw [unbound]
    simp only [hp hi (by omega), bind, Except.bind]
    cases hv : (t.look h (.ofInt hi)).isNil with
    | true =>
      exact bisect_border l hp hi lo hi hlt (by omega) (by omega) (by omega) hlo (of_decide_eq_true hv)
    | false =>
      simp only [Bool.false_eq_true, if_false]
      split
      next hbig =>
        obtain ⟨j, hpos, hle, hnil⟩ := exists_absent (h := h) l
        have hsize := size_lt l
        exact linear_border l hp (t.size + 1) 1 hnil hpos (by omega) (by omega) (by omega) Nat.one_pos (by simp)
      next hbig =>
        rw [mulU32_eq (by omega)]
        refine ih hi (hi * 2) (by omega) (by omega) ?_ fun _ => of_decide_eq_false hv
        rw [Nat.mul_assoc, ← Nat.pow_succ']
        exact hfuel

/-- The length of a table whose links are well-formed is a border. -/
theorem len_border (h : LuaValue → UInt32) : ∃ n, t.len h = .ok n ∧ t.Border h n := by
  have hmax : LJ_MAX_ASIZE = 134217729 := rfl
  have hle := l.asize_le
  have hsize := l.asize_eq
  have harr : ∀ i, i < t.asize → t.arrayAt i = .ok (t.look h (.ofInt i)) := by
    intro i hi
    rw [← get_look l, look_of_array l (arrayIdx_lt l hi)]
    exact arrayAt_eq (by omega)
  have hhash : t.Probes h (t.intAbsent h) (2^31) := by
    intro i hi
    rw [intAbsent, u32AsI32_eq hi, getInt_look l i]
    rfl
  have hvalue : t.asize - 1 ≠ 0 → t.arrayAt (t.asize - 1) = .ok (t.look h (.ofInt (t.asize - 1 : ℕ))) :=
    fun h0 => harr _ (by omega)
  rw [len]
  generalize htop : t.asize - 1 = hi at hvalue ⊢
  simp only [bind, Except.bind, pure, Except.pure]
  -- A table whose array part is empty or ends in a value is searched beyond it.
  have hbeyond : (hi ≠ 0 → t.look h (.ofInt hi) ≠ .nil) →
      ∃ n, (if !t.hasHpart then .ok hi else t.lenHash h hi) = .ok n ∧ t.Border h n := by
    intro hlast
    cases hp : t.hasHpart with
    | false =>
      have hnone : t.arrayIdx (.ofInt (hi + 1 : ℕ)) = none := by
        by_contra hne
        obtain ⟨i, hi'⟩ := Option.ne_none_iff_exists'.mp hne
        obtain ⟨hkey, hlt⟩ := arrayIdx_eq_some.mp hi'
        rw [arrayKey, LuaValue.asInt32Exact_ofInt (by omega) (by omega)] at hkey
        simp only at hkey
        split at hkey
        · have := Option.some.inj hkey
          omega
        · cases hkey
      refine ⟨hi, rfl, border_of_look l (by omega) hlast ?_⟩
      rw [look, get, hnone, hp]
      simp
    | true =>
      have hadd : addU32 hi 1 = .ok (hi + 1) := addU32_eq (by omega)
      simp only [Bool.not_true, Bool.false_eq_true, if_false, lenHash, hadd, bind, Except.bind]
      exact unbound_border l hhash 32 hi (hi + 1) (by omega) (by omega) (by omega) hlast
  by_cases h0 : 0 < hi
  · rw [if_pos h0, hvalue (by omega)]
    simp only [Except.map]
    cases hv : (t.look h (.ofInt hi)).isNil with
    | true =>
      have hprobe : t.Probes h (fun i => (t.arrayAt i).map LuaValue.isNil) t.asize :=
        fun i hi => congrArg (Except.map LuaValue.isNil) (harr i hi)
      exact bisect_border l hprobe hi 0 hi h0 (by omega) (by omega) (by omega) (fun h => absurd rfl h)
        (of_decide_eq_true hv)
    | false => exact hbeyond fun _ => of_decide_eq_false hv
  · rw [if_neg h0]
    exact hbeyond fun h => absurd (Nat.pos_of_ne_zero h) h0

end Border

/-! ### The tables of a program -/

/-- The length of every table of a program that stores under no nil key is a border, under every hash. -/
theorem reached_len {t : LuaTable} (hr : Reached (· ≠ .nil) t) (h : LuaValue → UInt32) :
    ∃ n, t.len h = .ok n ∧ t.Border h n :=
  len_border hr.linked h

namespace NilKey

def hash : LuaValue → UInt32 := LuaValue.hashKey fun _ => 0

/-- A table with the value under 4 in its array part and the values under 7 and 10 in its hash part. -/
def holed : LuaTable :=
  ⟨[.nil, .nil, .nil, .nil, .bool true],
    [⟨.bool true, .ofInt 7, 1⟩, ⟨.bool true, .ofInt 10, NIL_NODE⟩], none, 5, 1, 1, 0⟩

/-- The table of the same stores after a store under nil: the node of 10 is linked to itself. -/
def knotted : LuaTable :=
  ⟨[.nil, .nil, .nil, .nil, .bool true],
    [⟨.bool true, .ofInt 10, 0⟩, ⟨.bool true, .ofInt 7, NIL_NODE⟩], none, 5, 1, 0, 0⟩

theorem reached_holed : Reached (· ≠ .nil) holed := by
  have hrun : (do
      let t ← new 5 1
      let t ← t.set hash (.ofInt 4) (.bool true)
      let t ← t.set hash (.ofInt 7) (.bool true)
      t.set hash (.ofInt 10) (.bool true)) = .ok holed := by decide
  obtain ⟨t₀, h₀, hrun⟩ := bind_ok hrun
  obtain ⟨t₁, h₁, hrun⟩ := bind_ok hrun
  obtain ⟨t₂, h₂, h₃⟩ := bind_ok hrun
  have hne : ∀ i, LuaValue.ofInt i ≠ .nil := fun _ hn => nomatch hn
  have r₁ : Reached (· ≠ .nil) t₁ := .set (.new h₀) (hne 4) h₁
  have r₂ : Reached (· ≠ .nil) t₂ := .set r₁ (hne 7) h₂
  exact .set r₂ (hne 10) h₃

theorem reached_knotted : Reached (fun _ => True) knotted := by
  have hrun : (do
      let t ← new 5 1
      let t ← t.set hash (.ofInt 4) (.bool true)
      let t ← t.set hash .nil (.bool true)
      let t ← t.set hash (.ofInt 7) (.bool true)
      t.set hash (.ofInt 10) (.bool true)) = .ok knotted := by decide
  obtain ⟨t₀, h₀, hrun⟩ := bind_ok hrun
  obtain ⟨t₁, h₁, hrun⟩ := bind_ok hrun
  obtain ⟨t₂, h₂, hrun⟩ := bind_ok hrun
  obtain ⟨t₃, h₃, h₄⟩ := bind_ok hrun
  exact ((((Reached.new h₀).set trivial h₁).set trivial h₂).set trivial h₃).set trivial h₄

/-- The lookup of the key 5 never ends. -/
theorem walk_knotted (fuel : ℕ) : knotted.walk (.ofInt 5) fuel 0 = .error .diverge := by
  induction fuel with
  | zero => rfl
  | succ fuel ih =>
    have hslot : knotted.nodeSlot 0 = .ok ⟨.bool true, .ofInt 10, 0⟩ := rfl
    have hne : LuaValue.ofInt 10 ≠ .ofInt 5 := by decide
    rw [walk, hslot]
    simp only [bind, Except.bind, hne, if_false]
    rw [if_neg (by decide)]
    exact ih

end NilKey

/-- The length of a table with holes. -/
theorem reached_len_holed : ∃ n, NilKey.holed.len NilKey.hash = .ok n ∧ NilKey.holed.Border NilKey.hash n :=
  reached_len NilKey.reached_holed NilKey.hash

/-- After a store under nil the length of a table may be searched for ever, in the chain of the key 5. -/
theorem knotted_len_diverges : ∃ t, Reached (fun _ => True) t ∧ t.len NilKey.hash = .error .diverge ∧
    (¬ ∃ n, t.len NilKey.hash = .ok n ∧ t.Border NilKey.hash n) ∧
    ∀ fuel, t.walk (.ofInt 5) fuel (t.hashSlot NilKey.hash (.ofInt 5)) = .error .diverge := by
  have hlen : NilKey.knotted.len NilKey.hash = .error .diverge := by decide
  refine ⟨NilKey.knotted, NilKey.reached_knotted, hlen, fun ⟨n, hn, _⟩ => ?_, NilKey.walk_knotted⟩
  rw [hlen] at hn
  cases hn

end LuaTable
end LuajitRs
