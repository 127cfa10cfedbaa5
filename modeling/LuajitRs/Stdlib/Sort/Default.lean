import LuajitRs.Stdlib.Sort.Correct
import LuajitRs.Vm.Compare

/-! The default comparator of `table.sort`. It is the operator `<` where it agrees with the interpreter, and a sort all
of whose comparisons are of that kind is the sort by `<`. -/
namespace LuajitRs.Sort
open Lib.Oracle Vm.Compare

variable {V ω ε : Type}

/-! ### The comparators -/

/-- `compare_lua`. -/
def compareLua (m : Interp ω ε) (comp : LuaValue) : Comparator LuaValue ω ε :=
  fun s q => m.callTruth comp [q.1, q.2] s

/-- Numbers and strings directly, otherwise the `__lt` metamethod of the first operand. -/
def compareDefault (m : Interp ω ε) : Comparator LuaValue ω ε := fun s q =>
  match q with
  | (.num x, .num y) => (.ok (x.lt y), s)
  | (.str x, .str y) => (.ok ((m.global s).str x < (m.global s).str y), s)
  | (a, b) =>
    let mo := (m.global s).metaLookup a .lt
    if !isFunc mo then (.ok false, s) else m.callTruth mo [a, b] s

/-- The comparator for the second argument of `table.sort`. -/
def comparator (m : Interp ω ε) (comp : LuaValue) : Comparator LuaValue ω ε :=
  if isFunc comp then compareLua m comp else compareDefault m

/-! ### One comparison -/

/-- Numbers and strings; operands of one type, the first with a function as `__lt`; and C data that are not less, the
first without one. -/
def Agrees (g : Globals) (a b : LuaValue) : Prop :=
  (∃ x y, a = .num x ∧ b = .num y) ∨ (∃ x y, a = .str x ∧ b = .str y) ∨
    (g.cmpFast .islt a b = .ok none ∧ sameType a b = true ∧ isFunc (g.metaLookup a .lt) = true) ∨
    (g.cmpFast .islt a b = .ok (some false) ∧ isFunc (g.metaLookup a .lt) = false)

/-- The interpreter with other functions. -/
def withCall (m : Interp ω ε) (call : LuaValue → List LuaValue → ω → Except ε LuaValue × ω) : Interp ω ε :=
  { m with call := call }

/-- A call that returns `r` and changes nothing. -/
def answers (r : Bool) : LuaValue → List LuaValue → ω → Except ε LuaValue × ω := fun _ _ s => (.ok (.bool r), s)

section
variable {m : Interp ω ε} {s : ω} {a b : LuaValue} {g : Globals}

@[simp] theorem callTruth_answers (r : Bool) (f : LuaValue) (args : List LuaValue) :
    (withCall m (answers r)).callTruth f args s = (.ok r, s) := by
  cases r <;> rfl

theorem compareDefault_num (x y : F64) : compareDefault m s (.num x, .num y) = m.lessThan s (.num x, .num y) := rfl

theorem compareDefault_str (x y : ℕ) : compareDefault m s (.str x, .str y) = m.lessThan s (.str x, .str y) := rfl

/-- The comparator on operands that are neither numbers nor strings. -/
theorem compareDefault_meta (hnum : ¬ ∃ x y, a = .num x ∧ b = .num y) (hstr : ¬ ∃ x y, a = .str x ∧ b = .str y) :
    compareDefault m s (a, b) = if isFunc ((m.global s).metaLookup a .lt) then
      m.callTruth ((m.global s).metaLookup a .lt) [a, b] s else (.ok false, s) := by
  unfold compareDefault
  split
  · next x y h =>
    cases h
    exact absurd ⟨x, y, rfl, rfl⟩ hnum
  · next x y h =>
    cases h
    exact absurd ⟨x, y, rfl, rfl⟩ hstr
  · next h =>
    cases h
    dsimp only
    cases isFunc ((m.global s).metaLookup a .lt) <;> rfl

theorem lessThan_eq : m.lessThan s (a, b) = match (m.global s).cmpFast .islt a b with
    | .error f => (.error (m.panic f), s)
    | .ok (some c) => (.ok c, s)
    | .ok none => m.perform s ((m.global s).metaComp a b .islt) := rfl

/-- The slow path on operands that are not strings. -/
theorem metaComp_meta (hstr : ¬ ∃ x y, a = .str x ∧ b = .str y) :
    g.metaComp a b .islt = if sameType a b then g.compLt false a b else .incompatible := by
  unfold Globals.metaComp
  split
  · split
    · exact absurd ⟨_, _, rfl, rfl⟩ hstr
    · rfl
  · rfl

/-- A function that is the metamethod of the first operand is called on both. -/
theorem compLt_of_func (hf : isFunc (g.metaLookup a .lt) = true) :
    g.compLt false a b = .call (g.metaLookup a .lt) [a, b] false := by
  have hnil : (g.metaLookup a .lt).isNil = false := by
    cases h : g.metaLookup a .lt with
    | func f => rfl
    | _ =>
      rw [h] at hf
      cases hf
  have hmo : g.compLookup .lt a b = g.metaLookup a .lt := by
    unfold Globals.compLookup
    dsimp only
    rw [hnil]
    rfl
  unfold Globals.compLt Globals.compCall
  dsimp only
  rw [hmo, hnil, hf]
  rfl

theorem perform_call (mo : LuaValue) (args : List LuaValue) :
    m.perform s (.call mo args false) = m.callTruth mo args s := by
  change Interp.negateIf false (m.callTruth mo args s) = _
  rcases m.callTruth mo args s with ⟨e | c, s'⟩
  · rfl
  · simp [Interp.negateIf]

/-- The slow path never answers false by itself. -/
theorem perform_compLt_ne (hlt : (withCall m (answers true)).perform s (g.compLt false a b) = (.ok false, s)) :
    False := by
  have hcall (mo : LuaValue) (args : List LuaValue) :
      (withCall m (answers true)).perform s (.call mo args false) ≠ (.ok false, s) := by
    rw [perform_call, callTruth_answers]
    simp
  unfold Globals.compLt Globals.compCall at hlt
  dsimp only at hlt
  split at hlt
  · cases hlt
  · split at hlt
    · exact hcall _ _ hlt
    · split at hlt
      · exact hcall _ _ hlt
      · cases hlt

/-- The comparator agrees with `<` on two values, whatever the metamethods do, exactly under this condition. -/
theorem compareDefault_iff (m : Interp ω ε) (s : ω) (a b : LuaValue) :
    (∀ call, compareDefault (withCall m call) s (a, b) = (withCall m call).lessThan s (a, b)) ↔
      Agrees (m.global s) a b := by
  by_cases hnum : ∃ x y, a = .num x ∧ b = .num y
  · refine iff_of_true (fun call => ?_) (.inl hnum)
    obtain ⟨x, y, rfl, rfl⟩ := hnum
    exact compareDefault_num x y
  by_cases hstr : ∃ x y, a = .str x ∧ b = .str y
  · refine iff_of_true (fun call => ?_) (.inr (.inl hstr))
    obtain ⟨x, y, rfl, rfl⟩ := hstr
    exact compareDefault_str x y
  have hglobal (call : LuaValue → List LuaValue → ω → Except ε LuaValue × ω) :
      (withCall m call).global s = m.global s := rfl
  simp only [compareDefault_meta hnum hstr, lessThan_eq, metaComp_meta hstr, hglobal]
  rw [Agrees, or_iff_right hnum, or_iff_right hstr]
  cases hfast : (m.global s).cmpFast .islt a b with
  | error f =>
    refine iff_of_false (fun h => ?_) (by simp)
    have := h (answers true)
    rw [callTruth_answers] at this
    split at this <;> cases this
  | ok r =>
    cases r with
    | some c =>
      cases hf : isFunc ((m.global s).metaLookup a .lt) with
      | true =>
        refine iff_of_false (fun h => ?_) (by simp)
        have := h (answers !c)
        simp at this
      | false =>
        cases c with
        | true =>
          refine iff_of_false (fun h => ?_) (by simp)
          have := h (answers true)
          simp at this
        | false => exact iff_of_true (fun _ => rfl) (.inr ⟨rfl, rfl⟩)
    | none =>
      cases hf : isFunc ((m.global s).metaLookup a .lt) with
      | true =>
        cases hty : sameType a b with
        | true =>
          refine iff_of_true (fun call => ?_) (.inl ⟨rfl, rfl, rfl⟩)
          simp only [if_true]
          rw [compLt_of_func hf, perform_call]
        | false =>
          refine iff_of_false (fun h => ?_) (by simp)
          have := h (answers true)
          simp [Interp.perform] at this
      | false =>
        refine iff_of_false (fun h => ?_) (by simp)
        have := h (answers true)
        simp only [Bool.false_eq_true, if_false] at this
        split at this
        · exact perform_compLt_ne this.symm
        · cases this

theorem comparator_eq {comp : LuaValue} (hcomp : isFunc comp = false) (m : Interp ω ε) :
    comparator m comp = compareDefault m := by
  rw [comparator, hcomp]
  rfl

theorem Agrees.eq (h : Agrees (m.global s) a b) : compareDefault m s (a, b) = m.lessThan s (a, b) :=
  (compareDefault_iff m s a b).mpr h m.call

/-! ### The sort -/

/-- The sort without a comparator function. At each comparison the condition is exact; a sort all of whose comparisons
meet it does what the sort by `<` does, raises what `<` raises on two values that it compares, and returns the values
in order when `<` orders them. -/
theorem default_sort_law (m : Interp ω ε) (t : Access ω LuaValue) (s : ω) {comp : LuaValue}
    (hcomp : isFunc comp = false) :
    (∀ s₁ a b, (∀ call, comparator (withCall m call) comp s₁ (a, b) = (withCall m call).lessThan s₁ (a, b)) ↔
      Agrees (m.global s₁) a b) ∧
    ((∀ e ∈ compared (comparator m comp) t s, Agrees (m.global e.1) e.2.1 e.2.2) →
      tabSort (comparator m comp) t s = tabSort m.lessThan t s ∧
      (∀ e ∈ compared (comparator m comp) t s, ∀ x s', m.lessThan e.1 e.2 = (.error x, s') →
        tabSort (comparator m comp) t s = (.error (.raised x), s')) ∧
      ∀ lt, StrictWeakOn lt (slice t (t.len s).toNat s) →
        (∀ e ∈ compared (comparator m comp) t s, ∃ s', m.lessThan e.1 e.2 = (.ok (lt e.2.1 e.2.2), s')) →
        ∃ s', tabSort (comparator m comp) t s = (.ok (), s') ∧
          (slice t (t.len s).toNat s').Perm (slice t (t.len s).toNat s) ∧
          (slice t (t.len s).toNat s').Pairwise fun a b => lt b a = false) := by
  simp only [comparator_eq hcomp]
  refine ⟨fun s₁ a b => compareDefault_iff m s₁ a b, fun hall => ?_⟩
  have hsame : ∀ e ∈ compared (compareDefault m) t s, compareDefault m e.1 e.2 = m.lessThan e.1 e.2 :=
    fun e he => (hall e he).eq
  refine ⟨tabSort_congr hsame, fun e he x s' hx => ?_, fun lt hw hans => ?_⟩
  · exact tabSort_raised he ((hsame e he).trans hx)
  · refine tabSort_sorted hw fun e he => ?_
    rw [hsame e he]
    exact hans e he

end

/-! ### Two values -/

theorem introsortImpl_short (comp : Comparator V ω ε) (depth : ℕ) {lo hi : ℕ} (h : hi - lo < 16) :
    introsortImpl comp depth lo hi = insertionSort comp lo hi := by
  cases depth with
  | zero => rw [introsortImpl, if_pos h]
  | succ depth => rw [introsortImpl, if_pos h]

/-- The sort of two items asks once whether the second is less than the first. -/
theorem introsort_two (comp : Comparator V ω ε) (x y : Item V) (s : ω) : introsort comp ⟨#[x, y], s⟩ =
    match comp s (y.2, x.2) with
    | (.ok r, s') => .ok () ⟨if r then #[y, x] else #[x, y], s'⟩
    | (.error e, s') => .error (.raised e) ⟨#[x, y], s'⟩ := by
  have hsize : (#[x, y] : Array (Item V)).size = 2 := rfl
  unfold introsort
  dsimp only
  rw [hsize, if_neg (by decide), introsortImpl_short _ _ (by decide)]
  unfold insertionSort insertionRounds insertionRounds sinkLeft
  rcases hans : comp s (y.2, x.2) with ⟨e | r, s'⟩
  · simp [Bind.bind, EStateM.bind, item, cmpApply, ask, hans]
  · cases r <;>
      simp [Bind.bind, Pure.pure, EStateM.bind, EStateM.pure, item, cmpApply, ask, hans, swap, sinkLeft]

namespace Pair

/-- A state without metatables whose strings are all the same. -/
def bare : Globals where
  str _ := [120]
  tableMt _ := none
  userdataMt _ := none
  ctypeMts _ := none
  basemt _ := none
  getStr _ _ := .nil
  cts := none
  cdatas := ⟨[], fun _ => 0, CDataHeap.base_lt_nil⟩
  addr _ := 0

/-- The world is the contents of the table. -/
def interp : Interp (ℤ → LuaValue) String where
  global _ := bare
  call _ _ s := (.ok .nil, s)
  incompatible _ := "attempt to compare incompatible values"
  panic _ := "panic"

def access : Access (ℤ → LuaValue) LuaValue where
  getInt s := s
  setInt := Function.update
  len _ := 2
  getInt_setInt _ _ _ := rfl

/-- The sequence of `a` and `b`. -/
def pair (a b : LuaValue) : ℤ → LuaValue := fun k => if k = 1 then a else if k = 2 then b else .nil

theorem readItems_pair (a b : LuaValue) : readItems access (pair a b) = #[(1, a), (2, b)] := by
  have hrange : Array.range 2 = #[0, 1] := rfl
  simp [readItems, access, pair, hrange]

theorem compared_pair (comp : Comparator LuaValue (ℤ → LuaValue) String) (a b : LuaValue) :
    compared comp access (pair a b) = [(pair a b, (b, a))] := by
  unfold compared
  rw [readItems_pair, introsort_two]
  unfold logged
  rcases comp (pair a b) (b, a) with ⟨e | r, s'⟩ <;> rfl

end Pair

open Pair

/-- The sort of two numbers without a comparator is the sort by `<`. -/
theorem default_sort_law_numbers : tabSort (comparator interp .nil) access (pair (.ofInt 2) (.ofInt 1)) =
    tabSort interp.lessThan access (pair (.ofInt 2) (.ofInt 1)) := by
  have hcomp : isFunc .nil = false := rfl
  refine ((default_sort_law interp access (pair (.ofInt 2) (.ofInt 1)) hcomp).2 ?_).1
  intro e he
  rw [compared_pair, List.mem_singleton] at he
  rw [he]
  exact .inl ⟨_, _, rfl, rfl⟩

/-- The sort of a number and a string compares them, which `<` rejects, and returns. -/
theorem incompatible_sorted : ¬ ∀ (m : Interp (ℤ → LuaValue) String) (t : Access (ℤ → LuaValue) LuaValue)
    (s : ℤ → LuaValue), ∀ e ∈ compared (comparator m .nil) t s, ∀ x s', m.lessThan e.1 e.2 = (.error x, s') →
      (tabSort (comparator m .nil) t s).1 = .error (.raised x) := by
  intro hall
  have hin : (pair (.ofInt 1) (.str 0), (.str 0, .ofInt 1)) ∈
      compared (comparator interp .nil) access (pair (.ofInt 1) (.str 0)) := by
    rw [compared_pair]
    exact List.mem_singleton_self _
  have herr := hall interp access (pair (.ofInt 1) (.str 0)) _ hin _ _ rfl
  rw [tabSort, readItems_pair, introsort_two] at herr
  cases herr

end LuajitRs.Sort
