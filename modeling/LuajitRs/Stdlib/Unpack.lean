import LuajitRs.Stdlib.Table
import LuajitRs.Util.F64.Exact

/-! The two functions that return the elements of a table: the global `unpack` and `table.unpack`. They bring
their bounds into range in different ways, and agree with each other and with the list of elements only within
the table. -/
namespace LuajitRs.TabLib
open Lib

/-- The stack of a call: the first slot of its results, its length now and its limit. -/
structure Slots where
  base : ℕ
  len : ℕ
  max : ℕ
  base_le : base ≤ max
  len_le : len ≤ max
  max_lt : max < 2^31

section
variable (checks : Bool)

/-- `x + y` on `usize`. -/
def addUsize (x y : ℕ) : Except Fault ℕ :=
  if x + y < 2^64 then .ok (x + y) else if checks then .error .overflow else .ok ((x + y) % 2^64)

/-- A result of `i32` arithmetic, in a build with overflow checks or without. -/
def arithI32 (i : ℤ) : Except Fault ℤ :=
  if IsI32 i then .ok i else if checks then .error .overflow else .ok (wrapI32 i)

/-- The length of the stack after a request; the length is capped at the limit. -/
def stackEnsure (s : Slots) (need : ℕ) : Except Fault ℕ :=
  if s.len ≤ need then do
    let more ← addUsize checks need 16
    pure (min (max (s.len * 2) more) s.max)
  else .ok s.len

variable (h : LuaValue → UInt32) (ts : Tables)

/-- The elements from `k` on, `n` of them. -/
def readInts (t : ℕ) : (n : ℕ) → (k : ℤ) → Except Fault (List LuaValue)
  | 0, _ => .ok []
  | n + 1, k => do
    let v ← (ts t).getInt h (wrapI32 k)
    let vs ← readInts t n (k + 1)
    pure (v :: vs)

/-- Write the results to the stack. -/
def pushv (s : Slots) (vs : List LuaValue) : Except Fault (List LuaValue) :=
  if vs.length = 0 then .ok vs
  else do
    let need ← addUsize checks s.base vs.length
    let len ← stackEnsure checks s need
    if s.base + vs.length ≤ len then pure vs else .error .outOfBounds

def libUnpack (s : Slots) (args : List LuaValue) : Except Fault (Except LibError (List LuaValue)) :=
  let i := ((arg args 1).asNumber.getD (.ofInt 1)).asU64.toNat
  let j := ((arg args 2).asNumber.map fun n => n.asU64.toNat).getD (2^64 - 1)
  match asTable (arg args 0) with
  | some t => do
    let n ← (ts t).len h
    let hi := min j n
    let out ← readInts h ts t (hi + 1 - i) i
    let out ← pushv checks s out
    pure (.ok out)
  | none => .ok (.error (.badArg ⟨1, "unpack", "table", typeName (arg args 0)⟩))

/-- `for k in i..=j`, with `n` rounds from `k` on to go, where `cnt` slots above the base are filled. -/
def unpackLoop (t base len : ℕ) : (n : ℕ) → (k : ℤ) → (cnt : ℕ) → Except Fault (List LuaValue)
  | 0, _, _ => .ok []
  | n + 1, k, cnt => do
    let v ← (ts t).getInt h k
    if base + cnt < len then do
      let vs ← unpackLoop t base len n (k + 1) (cnt + 1)
      pure (v :: vs)
    else .error .outOfBounds

def tabUnpack (s : Slots) (args : List LuaValue) : Except Fault (Except LibError (List LuaValue)) :=
  match asTable (arg args 0) with
  | none => .ok (.error (.badArg ⟨1, "table.unpack", "table", typeName (arg args 0)⟩))
  | some t => do
    let i := ((arg args 1).asNumber.getD (.ofInt 1)).asI32
    let n ← (ts t).len h
    let j := ((arg args 2).asNumber.getD (.ofInt n)).asI32
    let d ← arithI32 checks (j - i)
    let d ← arithI32 checks (d + 1)
    let need ← addUsize checks s.base (d % 2^64).toNat
    let len ← stackEnsure checks s need
    let vs ← unpackLoop h ts t s.base len (j + 1 - i).toNat i 0
    pure (.ok vs)

end

/-- The elements from `i` to `j`. -/
def elems (ts : Tables) (t : ℕ) (i j : ℤ) : List LuaValue :=
  (List.range (j + 1 - i).toNat).map fun k : ℕ => elem ts t (i + k)

/-- A descending range passes the arithmetic on its `i32` bounds. -/
def Quiet (checks : Bool) (s : Slots) (i j : ℤ) : Prop :=
  checks = false ∨ j = i - 1 ∨ (-2^31 ≤ j - i ∧ s.base + 16 < i - j - 1)

/-- The bounds with which both functions return the elements: a range within the table and the stack; an empty
range that no conversion fills and no check stops; or one negative index whose element is that of index zero and
of the index as an `i32`. -/
def Unpackable (checks : Bool) (s : Slots) (ts : Tables) (t n : ℕ) (i j : ℤ) : Prop :=
  (0 ≤ i ∧ i ≤ j ∧ j ≤ n ∧ s.base + (j + 1 - i) ≤ s.max) ∨
    (1 ≤ i ∧ j < i ∧ j < 2^31 - 1 ∧ Quiet checks s (min i (2^31 - 1)) (max j (-2^31))) ∨
    (i < 0 ∧ j = i ∧ elem ts t 0 = elem ts t i ∧ elem ts t (max i (-2^31)) = elem ts t i ∧ s.base + 1 ≤ s.max)

section
variable {checks : Bool} {h : LuaValue → UInt32} {ts : Tables} {s : Slots} {t n : ℕ} {i j : ℤ}

/-! ### Conversions -/

theorem asI32_ofInt (hi : i.natAbs < 2^53) : (F64.ofInt i).asI32 = max (-2^31) (min (2^31 - 1) i) := by
  rw [F64.asI32, F64.isNaN_ofInt hi, F64.trunc_ofInt hi]
  rfl

/-! ### The stack -/

/-- Room for `k` results is room below the limit. -/
theorem stackEnsure_room (checks : Bool) (s : Slots) {k : ℕ} (hk : k < 2^33) :
    ∃ len, addUsize checks s.base k = .ok (s.base + k) ∧ stackEnsure checks s (s.base + k) = .ok len ∧
      (s.base + k ≤ len ↔ s.base + k ≤ s.max) := by
  have hb := s.base_le
  have hl := s.len_le
  have hm := s.max_lt
  have hadd : addUsize checks s.base k = .ok (s.base + k) := if_pos (by omega)
  unfold stackEnsure
  by_cases hlen : s.len ≤ s.base + k
  · have hmore : addUsize checks (s.base + k) 16 = .ok (s.base + k + 16) := if_pos (by omega)
    refine ⟨_, hadd, by rw [if_pos hlen, hmore]; rfl, ?_⟩
    omega
  · exact ⟨_, hadd, if_neg hlen, by omega⟩

theorem pushv_eq {vs : List LuaValue} (hv : vs.length < 2^33) :
    pushv checks s vs = if vs = [] ∨ s.base + vs.length ≤ s.max then .ok vs else .error .outOfBounds := by
  obtain ⟨len, hadd, hens, hroom⟩ := stackEnsure_room checks s hv
  unfold pushv
  by_cases h0 : vs = []
  · rw [if_pos (by rw [h0]; rfl), if_pos (.inl h0)]
  · rw [if_neg (by rwa [List.length_eq_zero_iff]), hadd, ok_bind, hens, ok_bind]
    simp only [hroom, h0, false_or]
    rfl

/-! ### The loops -/

theorem readInts_eq (hs : Sound h ts) (n : ℕ) {k : ℤ} (hlo : -2^31 ≤ k) (hhi : k + n ≤ 2^31) :
    readInts h ts t n k = .ok ((List.range n).map fun m : ℕ => elem ts t (k + m)) := by
  induction n generalizing k with
  | zero => rfl
  | succ n ih =>
    push_cast at hhi
    have hk : wrapI32 k = k := Int.bmod_eq_of_le (by omega) (by omega)
    rw [readInts, hk, hs.getInt (by omega) (by omega), ok_bind, ih (by omega) (by omega), ok_bind,
      List.range_succ_eq_map, List.map_cons, List.map_map, Nat.cast_zero, add_zero]
    refine congrArg (fun l => Except.ok (elem ts t k :: l)) (List.map_congr_left fun m _ => ?_)
    rw [Function.comp, Nat.cast_succ]
    congr 1
    ring

theorem unpackLoop_eq (hs : Sound h ts) {base len : ℕ} (n : ℕ) {k : ℤ} {cnt : ℕ} (hlo : -2^31 ≤ k)
    (hhi : k + n ≤ 2^31) :
    unpackLoop h ts t base len n k cnt =
      if n = 0 ∨ base + cnt + n ≤ len then .ok ((List.range n).map fun m : ℕ => elem ts t (k + m))
      else .error .outOfBounds := by
  induction n generalizing k cnt with
  | zero => rfl
  | succ n ih =>
    push_cast at hhi
    rw [unpackLoop, hs.getInt (by omega) (by omega), ok_bind, ih (by omega) (by omega)]
    by_cases hfull : base + cnt < len
    · rw [if_pos hfull]
      by_cases hroom : n = 0 ∨ base + (cnt + 1) + n ≤ len
      · rw [if_pos hroom, if_pos (by omega), ok_bind, List.range_succ_eq_map, List.map_cons, List.map_map,
          Nat.cast_zero, add_zero]
        refine congrArg (fun l => Except.ok (elem ts t k :: l)) (List.map_congr_left fun m _ => ?_)
        rw [Function.comp, Nat.cast_succ]
        congr 1
        ring
      · rw [if_neg hroom, if_neg (by omega)]
        rfl
    · rw [if_neg hfull, if_neg (by omega)]

/-! ### The global function -/

theorem length_elems : (elems ts t i j).length = (j + 1 - i).toNat := by simp [elems]

theorem elems_self : elems ts t i i = [elem ts t i] := by
  rw [elems, add_sub_cancel_left]
  simp

theorem elems_nil (hj : j < i) : elems ts t i j = [] := List.eq_nil_of_length_eq_zero (by rw [length_elems]; omega)

theorem elems_ne_nil (hj : i ≤ j) : elems ts t i j ≠ [] := fun he => by
  have := congrArg List.length he
  rw [length_elems, List.length_nil] at this
  omega

theorem libUnpack_eq (hs : Sound h ts) (hlen : (ts t).len h = .ok n) (hn : n < 2^31) (hi : i.natAbs < 2^53)
    (hj : j.natAbs < 2^53) :
    libUnpack checks h ts s [.tab t, .num (.ofInt i), .num (.ofInt j)] =
      if elems ts t (max i 0) (min (max j 0) n) = [] ∨
        s.base + (elems ts t (max i 0) (min (max j 0) n)).length ≤ s.max
      then .ok (.ok (elems ts t (max i 0) (min (max j 0) n))) else .error .outOfBounds := by
  have hrun : libUnpack checks h ts s [.tab t, .num (.ofInt i), .num (.ofInt j)] = (do
      let n ← (ts t).len h
      let hi := min (F64.ofInt j).asU64.toNat n
      let out ← readInts h ts t (hi + 1 - (F64.ofInt i).asU64.toNat) (F64.ofInt i).asU64.toNat
      let out ← pushv checks s out
      pure (.ok out)) := rfl
  rw [hrun, hlen, ok_bind, F64.asU64_ofInt hi, F64.asU64_ofInt hj]
  dsimp only
  by_cases hrange : (min j.toNat n + 1 - i.toNat) = 0
  · rw [hrange, elems_nil (by omega), if_pos (.inl rfl)]
    rfl
  · have hread := readInts_eq (t := t) hs (min j.toNat n + 1 - i.toNat) (k := i.toNat) (by omega) (by omega)
    have hout : (List.range (min j.toNat n + 1 - i.toNat)).map (fun m : ℕ => elem ts t ((i.toNat : ℤ) + m)) =
        elems ts t (max i 0) (min (max j 0) n) := by
      rw [elems, show (min (max j 0) n + 1 - max i 0).toNat = min j.toNat n + 1 - i.toNat by omega,
        Int.ofNat_toNat]
    rw [hread, ok_bind, hout, pushv_eq (by rw [length_elems]; omega)]
    split_ifs <;> rfl

/-- When the global function returns the elements. -/
theorem libUnpack_iff (hs : Sound h ts) (hlen : (ts t).len h = .ok n) (hn : n < 2^31) (hi : i.natAbs < 2^53)
    (hj : j.natAbs < 2^53) :
    libUnpack checks h ts s [.tab t, .num (.ofInt i), .num (.ofInt j)] = .ok (.ok (elems ts t i j)) ↔
      (0 ≤ i ∧ i ≤ j ∧ j ≤ n ∧ s.base + (j + 1 - i) ≤ s.max) ∨ (1 ≤ i ∧ j < i) ∨
        (i < 0 ∧ j = i ∧ elem ts t 0 = elem ts t i ∧ s.base + 1 ≤ s.max) := by
  have hout : libUnpack checks h ts s [.tab t, .num (.ofInt i), .num (.ofInt j)] = .ok (.ok (elems ts t i j)) ↔
      elems ts t (max i 0) (min (max j 0) n) = elems ts t i j ∧
        (elems ts t i j = [] ∨ s.base + (j + 1 - i).toNat ≤ s.max) := by
    have hl : (elems ts t i j).length = (j + 1 - i).toNat := length_elems
    rw [libUnpack_eq hs hlen hn hi hj, ← hl]
    split_ifs with hroom
    · rw [Except.ok.injEq, Except.ok.injEq]
      exact ⟨fun he => ⟨he, he ▸ hroom⟩, And.left⟩
    · exact ⟨nofun, fun he => absurd (he.1 ▸ he.2) hroom⟩
  rw [hout]
  have hlens : elems ts t (max i 0) (min (max j 0) n) = elems ts t i j →
      (min (max j 0) n + 1 - max i 0).toNat = (j + 1 - i).toNat := fun he => by
    have := congrArg List.length he
    rwa [length_elems, length_elems] at this
  by_cases h0 : 0 ≤ i
  · by_cases hij : i ≤ j
    · by_cases hjn : j ≤ n
      · rw [max_eq_left h0, max_eq_left (by omega), min_eq_left hjn]
        have hne : elems ts t i j ≠ [] := elems_ne_nil hij
        simp only [hne, false_or, true_and]
        omega
      · exact ⟨fun he => by have := hlens he.1; omega, fun hc => by omega⟩
    · by_cases h1 : 1 ≤ i
      · rw [elems_nil (by omega), elems_nil (by omega)]
        exact ⟨fun _ => .inr (.inl ⟨h1, by omega⟩), fun _ => ⟨rfl, .inl rfl⟩⟩
      · exact ⟨fun he => by have := hlens he.1; omega, fun hc => by omega⟩
  · constructor
    · rintro ⟨he, hroom⟩
      have hl := hlens he
      have hji : j = i := by omega
      subst hji
      rw [max_eq_right (by omega), min_eq_left (by omega), elems_self, elems_self] at he
      rw [elems_self] at hroom
      refine .inr (.inr ⟨by omega, rfl, List.head_eq_of_cons_eq he, ?_⟩)
      exact hroom.elim nofun fun hr => by omega
    · rintro (hc | hc | ⟨-, rfl, he, hroom⟩)
      · omega
      · omega
      · rw [max_eq_right (by omega), min_eq_left (by omega), elems_self, elems_self, he]
        exact ⟨rfl, .inr (by omega)⟩

/-! ### The function of the table library -/

/-- The bounds of `table.unpack` as they are. -/
theorem tabUnpack_at (hlen : (ts t).len h = .ok n) (hi : i.natAbs < 2^53) (hj : j.natAbs < 2^53) :
    tabUnpack checks h ts s [.tab t, .num (.ofInt i), .num (.ofInt j)] = (do
      let d ← arithI32 checks (max (-2^31) (min (2^31 - 1) j) - max (-2^31) (min (2^31 - 1) i))
      let d ← arithI32 checks (d + 1)
      let need ← addUsize checks s.base (d % 2^64).toNat
      let len ← stackEnsure checks s need
      let vs ← unpackLoop h ts t s.base len
        (max (-2^31) (min (2^31 - 1) j) + 1 - max (-2^31) (min (2^31 - 1) i)).toNat
        (max (-2^31) (min (2^31 - 1) i)) 0
      pure (.ok vs)) := by
  have hrun : tabUnpack checks h ts s [.tab t, .num (.ofInt i), .num (.ofInt j)] = (do
      let _ ← (ts t).len h
      let d ← arithI32 checks ((F64.ofInt j).asI32 - (F64.ofInt i).asI32)
      let d ← arithI32 checks (d + 1)
      let need ← addUsize checks s.base (d % 2^64).toNat
      let len ← stackEnsure checks s need
      let vs ← unpackLoop h ts t s.base len ((F64.ofInt j).asI32 + 1 - (F64.ofInt i).asI32).toNat
        (F64.ofInt i).asI32 0
      pure (.ok vs)) := rfl
  rw [hrun, hlen, ok_bind, asI32_ofInt hi, asI32_ofInt hj]

/-- A range that does not descend below one past its end. -/
theorem tabUnpack_up (hs : Sound h ts) {i' j' : ℤ} (hi : IsI32 i') (hj : IsI32 j') (hd : 0 ≤ j' + 1 - i')
    (hd31 : j' + 1 - i' < 2^31) :
    (do
      let d ← arithI32 checks (j' - i')
      let d ← arithI32 checks (d + 1)
      let need ← addUsize checks s.base (d % 2^64).toNat
      let len ← stackEnsure checks s need
      let vs ← unpackLoop h ts t s.base len (j' + 1 - i').toNat i' 0
      pure (.ok vs)) =
      (if elems ts t i' j' = [] ∨ s.base + (j' + 1 - i').toNat ≤ s.max then .ok (.ok (elems ts t i' j'))
        else .error .outOfBounds : Except Fault (Except LibError (List LuaValue))) := by
  unfold IsI32 at hi hj
  have h1 : arithI32 checks (j' - i') = .ok (j' - i') := if_pos ⟨by omega, by omega⟩
  have h2 : arithI32 checks (j' - i' + 1) = .ok (j' - i' + 1) := if_pos ⟨by omega, by omega⟩
  have hcast : ((j' - i' + 1) % 2^64).toNat = (j' + 1 - i').toNat := by omega
  obtain ⟨len, hadd, hens, hroom⟩ := stackEnsure_room checks s (k := (j' + 1 - i').toNat) (by omega)
  have hempty : elems ts t i' j' = [] ↔ (j' + 1 - i').toNat = 0 := by
    rw [← List.length_eq_zero_iff, length_elems]
  rw [h1, ok_bind, h2, ok_bind, hcast, hadd, ok_bind, hens, ok_bind, unpackLoop_eq hs _ (by omega) (by omega),
    Nat.add_zero]
  simp only [hroom, hempty]
  split_ifs <;> rfl

theorem arithI32_unchecked (i : ℤ) : ∃ d, arithI32 false i = .ok d := by
  by_cases hi : IsI32 i
  · exact ⟨i, if_pos hi⟩
  · exact ⟨wrapI32 i, if_neg hi⟩

theorem addUsize_unchecked (x y : ℕ) : ∃ z, addUsize false x y = .ok z := by
  by_cases hxy : x + y < 2^64
  · exact ⟨x + y, if_pos hxy⟩
  · exact ⟨(x + y) % 2^64, if_neg hxy⟩

theorem stackEnsure_unchecked (need : ℕ) : ∃ len, stackEnsure false s need = .ok len := by
  obtain ⟨more, hmore⟩ := addUsize_unchecked need 16
  by_cases hn : s.len ≤ need
  · exact ⟨_, by rw [stackEnsure, if_pos hn, hmore]; rfl⟩
  · exact ⟨s.len, if_neg hn⟩

/-- A range that descends returns nothing, unless a check stops it. -/
theorem tabUnpack_down {i' j' : ℤ} (hd : j' < i') :
    (do
      let d ← arithI32 checks (j' - i')
      let d ← arithI32 checks (d + 1)
      let need ← addUsize checks s.base (d % 2^64).toNat
      let len ← stackEnsure checks s need
      let vs ← unpackLoop h ts t s.base len (j' + 1 - i').toNat i' 0
      pure (.ok vs)) = (.ok (.ok []) : Except Fault (Except LibError (List LuaValue))) ↔ Quiet checks s i' j' := by
  have hb := s.base_le
  have hl := s.len_le
  have hm := s.max_lt
  have hzero : (j' + 1 - i').toNat = 0 := by omega
  have hloop : ∀ len, unpackLoop h ts t s.base len (j' + 1 - i').toNat i' 0 = .ok [] := fun len => by
    rw [hzero]
    rfl
  simp only [hloop, ok_bind]
  unfold Quiet
  cases checks with
  | false =>
    obtain ⟨d₁, h1⟩ := arithI32_unchecked (j' - i')
    obtain ⟨d₂, h2⟩ := arithI32_unchecked (d₁ + 1)
    obtain ⟨need, hneed⟩ := addUsize_unchecked s.base (d₂ % 2^64).toNat
    obtain ⟨len, hlen⟩ := stackEnsure_unchecked (s := s) need
    rw [h1, ok_bind, h2, ok_bind, hneed, ok_bind, hlen]
    exact ⟨fun _ => .inl rfl, fun _ => rfl⟩
  | true =>
    by_cases h32 : -2^31 ≤ j' - i'
    · have h1 : arithI32 true (j' - i') = .ok (j' - i') := if_pos ⟨by omega, by omega⟩
      have h2 : arithI32 true (j' - i' + 1) = .ok (j' - i' + 1) := if_pos ⟨by omega, by omega⟩
      rw [h1, ok_bind, h2, ok_bind]
      by_cases h0 : j' = i' - 1
      · have hcast : ((j' - i' + 1) % 2^64).toNat = 0 := by omega
        obtain ⟨len, hadd, hens, -⟩ := stackEnsure_room true s (k := 0) (by omega)
        rw [hcast, hadd, ok_bind, hens]
        exact ⟨fun _ => .inr (.inl h0), fun _ => rfl⟩
      · have hcast : ((j' - i' + 1) % 2^64).toNat = 2^64 - (i' - j' - 1).toNat := by omega
        rw [hcast]
        by_cases hneed : s.base < i' - j' - 1
        · have hadd : addUsize true s.base (2^64 - (i' - j' - 1).toNat) =
              .ok (s.base + (2^64 - (i' - j' - 1).toNat)) := if_pos (by omega)
          rw [hadd, ok_bind, stackEnsure, if_pos (by omega), addUsize]
          by_cases hmore : s.base + 16 < i' - j' - 1
          · rw [if_pos (by omega)]
            exact ⟨fun _ => .inr (.inr ⟨h32, hmore⟩), fun _ => rfl⟩
          · rw [if_neg (by omega)]
            exact ⟨nofun, fun hq => by simp at hq; omega⟩
        · have hadd : addUsize true s.base (2^64 - (i' - j' - 1).toNat) = .error .overflow := by
            rw [addUsize, if_neg (by omega)]
            rfl
          rw [hadd]
          exact ⟨nofun, fun hq => by simp at hq; omega⟩
    · have h1 : arithI32 true (j' - i') = .error .overflow := by
        rw [arithI32, if_neg fun hin => h32 hin.1]
        rfl
      rw [h1]
      exact ⟨nofun, fun hq => by simp at hq; omega⟩

/-! ### Agreement -/

/-- Both functions return the elements from `i` to `j` exactly for the bounds of `Unpackable`. -/
theorem unpack_law (checks : Bool) (s : Slots) (hm : Made h ts) (t : ℕ) (hi : i.natAbs < 2^53)
    (hj : j.natAbs < 2^53) : ∃ n, (ts t).len h = .ok n ∧
      (libUnpack checks h ts s [.tab t, .num (.ofInt i), .num (.ofInt j)] = .ok (.ok (elems ts t i j)) ∧
          tabUnpack checks h ts s [.tab t, .num (.ofInt i), .num (.ofInt j)] = .ok (.ok (elems ts t i j)) ↔
        Unpackable checks s ts t n i j) := by
  have hs := hm.sound
  obtain ⟨n, hlen, hb⟩ := LuaTable.len_border (hs t).toWf.linked h
  have hn := hb.lt
  have hbase := s.base_le
  have hmax := s.max_lt
  refine ⟨n, hlen, ?_⟩
  rw [libUnpack_iff hs hlen hn hi hj, tabUnpack_at hlen hi hj, Unpackable]
  -- The bounds as an `i32` in a descending range, and the one index below zero.
  have hdown : 1 ≤ i → j < i → j < 2^31 - 1 →
      max (-2^31) (min (2^31 - 1) i) = min i (2^31 - 1) ∧ max (-2^31) (min (2^31 - 1) j) = max j (-2^31) ∧
        max j (-2^31) < min i (2^31 - 1) := by omega
  constructor
  · rintro ⟨⟨h0, hij, hjn, hroom⟩ | ⟨h1, hji⟩ | ⟨hneg, rfl, he, hroom⟩, htab⟩
    · exact .inl ⟨h0, hij, hjn, hroom⟩
    · rw [elems_nil hji] at htab
      have hbig : j < 2^31 - 1 := by
        -- Otherwise both bounds would be the last index.
        by_contra hbig
        rw [show max (-2^31) (min (2^31 - 1) j) = (2^31 - 1 : ℤ) by omega,
          show max (-2^31) (min (2^31 - 1) i) = (2^31 - 1 : ℤ) by omega,
          tabUnpack_up hs ⟨by omega, by omega⟩ ⟨by omega, by omega⟩ (by omega) (by omega), elems_self] at htab
        split_ifs at htab <;> cases htab
      obtain ⟨hi', hj', hlt⟩ := hdown h1 hji hbig
      rw [hi', hj', tabUnpack_down hlt] at htab
      exact .inr (.inl ⟨h1, hji, hbig, htab⟩)
    · rw [show max (-2^31) (min (2^31 - 1) j) = max j (-2^31) by omega,
        tabUnpack_up hs ⟨by omega, by omega⟩ ⟨by omega, by omega⟩ (by omega) (by omega), elems_self, elems_self] at htab
      rw [if_pos (.inr (by omega))] at htab
      have hval := List.head_eq_of_cons_eq (Except.ok.inj (Except.ok.inj htab))
      exact .inr (.inr ⟨hneg, rfl, he, hval, hroom⟩)
  · rintro (⟨h0, hij, hjn, hroom⟩ | ⟨h1, hji, hbig, hquiet⟩ | ⟨hneg, rfl, he, hval, hroom⟩)
    · refine ⟨.inl ⟨h0, hij, hjn, hroom⟩, ?_⟩
      rw [show max (-2^31) (min (2^31 - 1) i) = i by omega, show max (-2^31) (min (2^31 - 1) j) = j by omega,
        tabUnpack_up hs ⟨by omega, by omega⟩ ⟨by omega, by omega⟩ (by omega) (by omega), if_pos (.inr (by omega))]
    · refine ⟨.inr (.inl ⟨h1, hji⟩), ?_⟩
      obtain ⟨hi', hj', hlt⟩ := hdown h1 hji hbig
      rwa [elems_nil hji, hi', hj', tabUnpack_down hlt]
    · refine ⟨.inr (.inr ⟨hneg, rfl, he, hroom⟩), ?_⟩
      rw [show max (-2^31) (min (2^31 - 1) j) = max j (-2^31) by omega,
        tabUnpack_up hs ⟨by omega, by omega⟩ ⟨by omega, by omega⟩ (by omega) (by omega), elems_self, elems_self, hval,
        if_pos (.inr (by omega))]

/-- The stack of a call from a script. -/
def someSlots : Slots := ⟨10, 80, 65536, by decide, by decide, by decide⟩

theorem unpack_law_single : ∃ n, (single 0).len (fun _ => 0) = .ok n ∧
    (libUnpack true (fun _ => 0) single someSlots [.tab 0, .num (.ofInt 1), .num (.ofInt 1)] =
          .ok (.ok (elems single 0 1 1)) ∧
        tabUnpack true (fun _ => 0) single someSlots [.tab 0, .num (.ofInt 1), .num (.ofInt 1)] =
          .ok (.ok (elems single 0 1 1)) ↔
      Unpackable true someSlots single 0 n 1 1) :=
  unpack_law true someSlots made_single 0 (by decide) (by decide)

/-- `unpack({10}, 1, 2)` returns one value and `table.unpack({10}, 1, 2)` two, in every build. -/
theorem unpack_beyond_end : Made (fun _ => 0) single ∧ ∀ checks,
    libUnpack checks (fun _ => 0) single someSlots [.tab 0, .num (.ofInt 1), .num (.ofInt 2)] =
      .ok (.ok [.ofInt 10]) ∧
    tabUnpack checks (fun _ => 0) single someSlots [.tab 0, .num (.ofInt 1), .num (.ofInt 2)] =
      .ok (.ok [.ofInt 10, .nil]) := by
  refine ⟨made_single, fun checks => ⟨?_, ?_⟩⟩ <;> cases checks <;> rfl

end
end LuajitRs.TabLib
