import LuajitRs.Lib.Oracle
import LuajitRs.Lib.Rearrange
import LuajitRs.Runtime.Value
import Mathlib.Data.Nat.Log

/-! The introspective sort of `table.sort`: quicksort with the median of three that turns to heapsort
below a depth limit, and insertion sort for short sections. The comparator is an arbitrary oracle, so
every call may answer what it likes, change the world and raise an error. A loop that has no bound of
its own runs on fuel, and running out of fuel is the fault of not terminating. -/
namespace LuajitRs.Sort
open Lib.Oracle Lib.Rearrange

variable {V ω ε : Type}

/-- The answer to `a < b`, or an error, and the world afterwards. -/
abbrev Comparator (V ω ε : Type) := ω → V × V → Except ε Bool × ω

/-- Items carry the index that they had in the table. -/
abbrev Item (V : Type) := ℤ × V

abbrev SortM (V ω ε α : Type) := Prog Fault ε (Array (Item V)) ω α

def item (i : ℕ) : SortM V ω ε (Item V) := fun w =>
  match w.data[i]? with
  | some x => .ok x w
  | none => .error (.fault .outOfBounds) w

def swap (i j : ℕ) : SortM V ω ε Unit := fun w =>
  if h : i < w.data.size ∧ j < w.data.size then .ok () { w with data := w.data.swap i j h.1 h.2 }
  else .error (.fault .outOfBounds) w

variable (comp : Comparator V ω ε)

def cmpApply (a b : Item V) : SortM V ω ε Bool := ask comp (a.2, b.2)

/-! ### Partition -/

/-- Swap positions `i` and `j` when the element at `j` is smaller. -/
def orderPair (i j : ℕ) : SortM V ω ε Unit := do
  let x ← item j
  let y ← item i
  let r ← cmpApply comp x y
  if r then swap i j else pure ()

/-- `while i < j && items[i] < pivot`, with `n = j - i` positions to go. -/
def scanUp (pivot : Item V) : (n i : ℕ) → SortM V ω ε ℕ
  | 0, i => pure i
  | n + 1, i => do
    let x ← item i
    let r ← cmpApply comp x pivot
    if r then scanUp pivot n (i + 1) else pure i

/-- `while j > i && pivot < items[j]`, with `n = j - i` positions to go. -/
def scanDown (pivot : Item V) : (n j : ℕ) → SortM V ω ε ℕ
  | 0, j => pure j
  | n + 1, j => do
    let x ← item j
    let r ← cmpApply comp pivot x
    if r then scanDown pivot n (j - 1) else pure j

/-- The outer loop: the scans approach each other and exchange what is out of place. -/
def partitionLoop (pivot : Item V) : (fuel i j : ℕ) → SortM V ω ε ℕ
  | 0, _, _ => fault .diverge
  | fuel + 1, i, j => do
    let i ← scanUp comp pivot (j - (i + 1)) (i + 1)
    let j ← scanDown comp pivot (j - 1 - i) (j - 1)
    if j ≤ i then pure i else do
      swap i j
      partitionLoop pivot fuel i j

def partition (lo hi : ℕ) : SortM V ω ε ℕ := do
  let mid := lo + (hi - lo) / 2
  orderPair comp lo mid
  orderPair comp lo hi
  orderPair comp mid hi
  let pivot ← item mid
  swap mid (hi - 1)
  let i ← partitionLoop comp pivot (hi - lo) lo (hi - 1)
  swap i (hi - 1)
  pure i

/-! ### Insertion sort -/

/-- `while j > lo`, with `n = j - lo` positions to go. -/
def sinkLeft : (n j : ℕ) → SortM V ω ε Unit
  | 0, _ => pure ()
  | n + 1, j => do
    let x ← item j
    let y ← item (j - 1)
    let r ← cmpApply comp x y
    if r then do
      swap j (j - 1)
      sinkLeft n (j - 1)
    else pure ()

/-- `for i in lo + 1..=hi`, with `n` rounds to go. -/
def insertionRounds (lo : ℕ) : (n i : ℕ) → SortM V ω ε Unit
  | 0, _ => pure ()
  | n + 1, i => do
    sinkLeft comp (i - lo) i
    insertionRounds lo n (i + 1)

def insertionSort (lo hi : ℕ) : SortM V ω ε Unit := insertionRounds comp lo (hi - lo) (lo + 1)

/-! ### Heapsort -/

/-- The larger of `largest` and `child`, if there is such a child. -/
def pickLarger (lo n largest child : ℕ) : SortM V ω ε ℕ :=
  if child < n then do
    let x ← item (lo + largest)
    let y ← item (lo + child)
    let r ← cmpApply comp x y
    pure (if r then child else largest)
  else pure largest

def siftDown (lo n : ℕ) : (fuel r : ℕ) → SortM V ω ε Unit
  | 0, _ => fault .diverge
  | fuel + 1, r =>
    if n ≤ 2 * r + 1 then pure () else do
      let largest ← pickLarger comp lo n r (2 * r + 1)
      let largest ← pickLarger comp lo n largest (2 * r + 2)
      if largest = r then pure () else do
        swap (lo + r) (lo + largest)
        siftDown lo n fuel largest

/-- `for i in (0..m).rev()` of the first phase. -/
def heapify (lo n : ℕ) : (m : ℕ) → SortM V ω ε Unit
  | 0 => pure ()
  | i + 1 => do
    siftDown comp lo n (n + 1) i
    heapify lo n i

/-- `for i in (1..=m).rev()` of the second phase. -/
def drain (lo : ℕ) : (m : ℕ) → SortM V ω ε Unit
  | 0 => pure ()
  | i + 1 => do
    swap lo (lo + (i + 1))
    siftDown comp lo (i + 1) (i + 2) 0
    drain lo i

def heapsort (lo hi : ℕ) : SortM V ω ε Unit := do
  let n := hi - lo + 1
  heapify comp lo n (n / 2)
  drain comp lo (n - 1)

/-! ### Introsort -/

def introsortImpl : (depth lo hi : ℕ) → SortM V ω ε Unit
  | 0, lo, hi => if hi - lo < 16 then insertionSort comp lo hi else heapsort comp lo hi
  | depth + 1, lo, hi =>
    if hi - lo < 16 then insertionSort comp lo hi else do
      let p ← partition comp lo hi
      (if lo < p then introsortImpl depth lo (p - 1) else pure ())
      (if p < hi then introsortImpl depth (p + 1) hi else pure ())

/-- The depth limit is twice the logarithm of the next power of two. -/
def introsort : SortM V ω ε Unit := fun w =>
  if w.data.size ≤ 1 then .ok () w
  else introsortImpl comp (Nat.clog 2 w.data.size * 2) 0 (w.data.size - 1) w

/-! ### The library function -/

/-- Access to the table that is sorted, which is a part of the world: the map from integer keys that a
table refines, and its border. -/
structure Access (ω V : Type) where
  getInt : ω → ℤ → V
  setInt : ω → ℤ → V → ω
  len : ω → ℤ
  getInt_setInt : ∀ s k v, getInt (setInt s k v) = Function.update (getInt s) k v

def readItems (t : Access ω V) (s : ω) : Array (Item V) :=
  (Array.range (t.len s).toNat).map fun i : ℕ => ((i + 1 : ℤ), t.getInt s (i + 1))

/-- Store the values at the keys from `i + 1` on. -/
def writeItems (t : Access ω V) : List (Item V) → ℕ → ω → ω
  | [], _, s => s
  | x :: xs, i, s => writeItems t xs (i + 1) (t.setInt s (i + 1) x.2)

/-- The items are sorted outside of the table and stored at the end. -/
def tabSort (t : Access ω V) (s : ω) : Except (Stop Fault ε) Unit × ω :=
  match introsort comp ⟨readItems t s, s⟩ with
  | .ok _ w => (.ok (), writeItems t w.data.toList 0 w.world)
  | .error e w => (.error e, w.world)

end LuajitRs.Sort
