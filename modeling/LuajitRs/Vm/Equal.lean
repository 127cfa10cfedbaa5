import LuajitRs.Ffi.CType
import LuajitRs.Util.F64.Convert
import LuajitRs.Vm.Arith

/-! Equality in the interpreter, and how it fits the order of 64-bit integers and numbers: equality goes through
doubles and low words, and the order through words of 64 bits. -/
namespace LuajitRs.Vm.Equal
open Ffi Lib.Bytes Compare

section
variable (g : Globals)

/-! ### The instructions -/

/-- Two pointers or arrays, by their storage. -/
def cdataPtrEq (a b : LuaValue) : Except Fault (Option Bool) := do
  match ← g.cdataPtrAddr a with
  | none => pure none
  | some p =>
    match ← g.cdataPtrAddr b with
    | none => pure none
    | some q => pure (some (p = q))

/-- C data and a number: by value, else the word is the low word of the number. -/
def eqNumber (v : LuaValue) (c : CData) (n : F64) : Except Fault Bool := do
  let equal := match ← cdataToNumber c with
    | some cn => cn.feq n
    | none => false
  if equal then pure true
  else
    match g.cdataU64 v with
    | some bits => pure (bits = (Arith.num2bit n).signExtend 64)
    | none => pure false

/-- Raw equality: numbers by value, other values by identity. -/
def valEq : LuaValue → LuaValue → Except Fault Bool
  | .num x, .num y => .ok (x.feq y)
  | .cdata a, .num y => eqNumber g (.cdata a) (g.cdatas.get a) y
  | .num x, .cdata b => eqNumber g (.cdata b) (g.cdatas.get b) x
  | .cdata a, .cdata b => do
    let ca := g.cdatas.get a
    let cb := g.cdatas.get b
    match ← cdataToNumber ca, ← cdataToNumber cb with
    | some x, some y => pure (x.feq y)
    | _, _ =>
      if ca.ctypeid ≠ cb.ctypeid then pure false
      else
        match ← cdataPtrEq g (.cdata a) (.cdata b) with
        | some eq => pure eq
        | none => pure (ca.data = cb.data)
  | a, b => .ok (a = b)

/-- Tables and userdata of one type, whose metamethod `__eq` decides. -/
def hasEq : LuaValue → LuaValue → Bool
  | .tab _, .tab _ | .udata _, .udata _ => true
  | _, _ => false

/-- The condition of `ISEQV`, if it needs no metamethod. -/
def iseqv (x y : LuaValue) : Except Fault (Option Bool) := do
  if ← valEq g x y then pure (some true) else if hasEq x y then pure none else pure (some false)

/-- The condition of `ISNEV`, if it needs no metamethod. -/
def isnev (x y : LuaValue) : Except Fault (Option Bool) := do
  if ← valEq g x y then pure (some false) else if hasEq x y then pure none else pure (some true)

end

/-! ### Integers and numbers -/

/-- What an operand stands for. -/
inductive Content
  | int (x : BitVec 64)
  | uint (x : BitVec 64)
  | num (n : F64)

/-- An object of a 64-bit integer type, or a number that is not NaN. -/
inductive Holds (g : Globals) : LuaValue → Content → Prop
  | int {a : ℕ} {x : BitVec 64} (hid : (g.cdatas.get a).ctypeid = .ofNat CTypeID.int64)
      (hdata : (g.cdatas.get a).data = toLE 8 x.toNat) : Holds g (.cdata a) (.int x)
  | uint {a : ℕ} {x : BitVec 64} (hid : (g.cdatas.get a).ctypeid = .ofNat CTypeID.uint64)
      (hdata : (g.cdatas.get a).data = toLE 8 x.toNat) : Holds g (.cdata a) (.uint x)
  | num {n : F64} (hn : n.isNaN = false) : Holds g (.num n) (.num n)

namespace Content

/-- The double nearest to a content. -/
def toF64 : Content → F64
  | int x => .ofInt64 x
  | uint x => .ofNat x.toNat
  | num n => n

/-- `a < b` and `a <= b` as the comparison instructions see them. -/
def order : Content → Content → Bool × Bool
  | num x, num y => (x.lt y, x.le y)
  | int x, int y => (x.slt y, x.sle y)
  | uint x, uint y => (x.ult y, x.ule y)
  | uint x, int y => if y.slt 0 then (false, false) else (x.ult y, x.ule y)
  | int x, uint y => if x.slt 0 then (true, true) else (x.ult y, x.ule y)
  | int x, num y => (x.slt y.asInt64, x.sle y.asInt64)
  | num x, int y => (x.asInt64.slt y, x.asInt64.sle y)
  | uint x, num y => (y.asInt64.slt 0 || x.ult y.asInt64, y.asInt64.slt 0 || x.ule y.asInt64)
  | num x, uint y => (x.asInt64.slt 0 || x.asInt64.ult y, x.asInt64.slt 0 || x.asInt64.ule y)

/-- The sign-extended low word of the truncated number. -/
def lowWord (n : F64) : BitVec 64 := (n.asInt64.setWidth 32).signExtend 64

/-- `a == b` as the interpreter sees it. -/
def equal : Content → Content → Bool
  | int x, num n | num n, int x => (F64.ofInt64 x).feq n || x = lowWord n
  | uint x, num n | num n, uint x => (F64.ofNat x.toNat).feq n || x = lowWord n
  | a, b => a.toF64.feq b.toF64

end Content

section
variable {g : Globals} {a b : LuaValue} {ca cb : Content}

/-- What the instructions read of an object. -/
theorem read_int (hg : Arith.TypesKept g) {i : ℕ} {u : Bool} {x : BitVec 64}
    (hid : (g.cdatas.get i).ctypeid = .ofNat (if u then CTypeID.uint64 else CTypeID.int64))
    (hdata : (g.cdatas.get i).data = toLE 8 x.toNat) :
    g.cdataU64 (.cdata i) = some x ∧ g.cdataIsUll (.cdata i) = u ∧
      cdataToNumber (g.cdatas.get i) = .ok (some (if u then .ofNat x.toNat else .ofInt64 x)) := by
  have hx : Arith.Operand g (.cdata i) u x := .cdata hid hdata
  rcases hx.seen hg with ⟨-, -, hword, hull, -⟩ | ⟨n, h, -⟩
  · refine ⟨hword, hull, ?_⟩
    have hnat : (g.cdatas.get i).ctypeid.toNat = if u then CTypeID.uint64 else CTypeID.int64 := by
      rw [hid]
      cases u <;> rfl
    have hle : le 64 (window (g.cdatas.get i).data 0 8) = x := by
      rw [hdata, window, List.drop_zero, List.take_of_length_le (by rw [length_toLE]), le, ofLE_toLE]
      apply BitVec.eq_of_toNat_eq
      simpa using x.isLt
    rw [cdataToNumber, hnat, hle, hdata]
    cases u <;> simp [length_toLE, CTypeID.int64, CTypeID.uint64, CTypeID.int8, CTypeID.uint8, CTypeID.cchar,
      CTypeID.bool, CTypeID.int16, CTypeID.uint16, CTypeID.int32, CTypeID.uint32]
  · cases h

/-- The comparison instructions see the order of the contents. -/
theorem cmpFast_eq (hg : Arith.TypesKept g) (ha : Holds g a ca) (hb : Holds g b cb) (op : CmpOp) :
    g.cmpFast op a b = .ok (some (op.cond (ca.order cb).1 (ca.order cb).2)) := by
  have hu (x y : BitVec 64) : Globals.cmpU op x y = op.cond (x.ult y) (x.ule y) := rfl
  have hs (x y : BitVec 64) : Globals.cmpS op x y = op.cond (x.slt y) (x.sle y) := rfl
  cases ha with
  | @int _ x hid hdata =>
    obtain ⟨hw, hull, -⟩ := read_int hg (u := false) hid hdata
    cases hb with
    | int hid' hdata' =>
      obtain ⟨hw', hull', -⟩ := read_int hg (u := false) hid' hdata'
      simp only [Globals.cmpFast, LuaValue.asNumber, hw, hw', hull, hull', Globals.cmpWords, hs]
      rfl
    | uint hid' hdata' =>
      obtain ⟨hw', hull', -⟩ := read_int hg (u := true) hid' hdata'
      simp only [Globals.cmpFast, LuaValue.asNumber, hw, hw', hull, hull', Globals.cmpWords, hu, Content.order]
      cases x.slt 0 <;> rfl
    | num hn =>
      simp only [Globals.cmpFast, LuaValue.asNumber, hw, hull, Globals.cmpMixed, hs]
      rfl
  | uint hid hdata =>
    obtain ⟨hw, hull, -⟩ := read_int hg (u := true) hid hdata
    cases hb with
    | @int _ y hid' hdata' =>
      obtain ⟨hw', hull', -⟩ := read_int hg (u := false) hid' hdata'
      simp only [Globals.cmpFast, LuaValue.asNumber, hw, hw', hull, hull', Globals.cmpWords, hu, Content.order]
      cases y.slt 0 <;> rfl
    | uint hid' hdata' =>
      obtain ⟨hw', hull', -⟩ := read_int hg (u := true) hid' hdata'
      simp only [Globals.cmpFast, LuaValue.asNumber, hw, hw', hull, hull', Globals.cmpWords, hu]
      rfl
    | num hn =>
      simp only [Globals.cmpFast, LuaValue.asNumber, hw, hull, Globals.cmpMixed, hs]
      rfl
  | num hn =>
    cases hb with
    | int hid' hdata' =>
      obtain ⟨hw', hull', -⟩ := read_int hg (u := false) hid' hdata'
      simp only [Globals.cmpFast, LuaValue.asNumber, hw', hull', Globals.cmpMixed, hs]
      rfl
    | uint hid' hdata' =>
      obtain ⟨hw', hull', -⟩ := read_int hg (u := true) hid' hdata'
      simp only [Globals.cmpFast, LuaValue.asNumber, hw', hull', Globals.cmpMixed, hs]
      rfl
    | num hn' => rfl

theorem eqNumber_eq (hg : Arith.TypesKept g) {i : ℕ} {u : Bool} {x : BitVec 64} (n : F64)
    (hid : (g.cdatas.get i).ctypeid = .ofNat (if u then CTypeID.uint64 else CTypeID.int64))
    (hdata : (g.cdatas.get i).data = toLE 8 x.toNat) :
    eqNumber g (.cdata i) (g.cdatas.get i) n =
      .ok ((if u then F64.ofNat x.toNat else .ofInt64 x).feq n || x = Content.lowWord n) := by
  obtain ⟨hw, -, hnum⟩ := read_int hg hid hdata
  rw [eqNumber, hnum, hw]
  generalize (if u then F64.ofNat x.toNat else .ofInt64 x) = d
  change (if d.feq n = true then (.ok true : Except Fault Bool) else .ok (decide (x = Content.lowWord n))) = _
  cases d.feq n
  · rfl
  · rfl

theorem valEq_eq (hg : Arith.TypesKept g) (ha : Holds g a ca) (hb : Holds g b cb) :
    valEq g a b = .ok (ca.equal cb) := by
  cases ha with
  | int hid hdata =>
    obtain ⟨-, -, hx⟩ := read_int hg (u := false) hid hdata
    cases hb with
    | int hid' hdata' =>
      obtain ⟨-, -, hy⟩ := read_int hg (u := false) hid' hdata'
      rw [valEq, hx, hy]
      rfl
    | uint hid' hdata' =>
      obtain ⟨-, -, hy⟩ := read_int hg (u := true) hid' hdata'
      rw [valEq, hx, hy]
      rfl
    | num hn => exact eqNumber_eq hg (u := false) _ hid hdata
  | uint hid hdata =>
    obtain ⟨-, -, hx⟩ := read_int hg (u := true) hid hdata
    cases hb with
    | int hid' hdata' =>
      obtain ⟨-, -, hy⟩ := read_int hg (u := false) hid' hdata'
      rw [valEq, hx, hy]
      rfl
    | uint hid' hdata' =>
      obtain ⟨-, -, hy⟩ := read_int hg (u := true) hid' hdata'
      rw [valEq, hx, hy]
      rfl
    | num hn => exact eqNumber_eq hg (u := true) _ hid hdata
  | num hn =>
    cases hb with
    | int hid' hdata' => exact eqNumber_eq hg (u := false) _ hid' hdata'
    | uint hid' hdata' => exact eqNumber_eq hg (u := true) _ hid' hdata'
    | num hn' => rfl

/-- No metamethod takes part, and the negated instruction is the negation. -/
theorem equality_instructions (hg : Arith.TypesKept g) (ha : Holds g a ca) (hb : Holds g b cb) :
    iseqv g a b = .ok (some (ca.equal cb)) ∧ isnev g a b = .ok (some !(ca.equal cb)) := by
  have hmeta : hasEq a b = false := by
    cases ha <;> rfl
  rw [iseqv, isnev, valEq_eq hg ha hb, hmeta]
  cases ca.equal cb
  · exact ⟨rfl, rfl⟩
  · exact ⟨rfl, rfl⟩

end

/-! ### Consistency -/

/-- One of `a < b`, `a == b` and `b < a` holds, and `a <= b` is one of the first two. -/
def Trichotomous (lt eq gt le : Bool) : Prop :=
  ((lt = true ∧ eq = false ∧ gt = false) ∨ (lt = false ∧ eq = true ∧ gt = false) ∨
    (lt = false ∧ eq = false ∧ gt = true)) ∧ (le = true ↔ lt = true ∨ eq = true)

/-- On two integers of one type `a < b` and `a == b` are exact. -/
def Exact : Content → Content → (lt eq : Bool) → Prop
  | .int x, .int y, lt, eq => (lt = true ↔ x.toInt < y.toInt) ∧ (eq = true ↔ x = y)
  | .uint x, .uint y, lt, eq => (lt = true ↔ x.toNat < y.toNat) ∧ (eq = true ↔ x = y)
  | _, _, _, _ => True

/-- The instructions decide the comparisons of two operands without metamethods, the negated ones negate, and the
conditions fit together. -/
def Consistent (g : Globals) (a b : LuaValue) (ca cb : Content) : Prop :=
  ∃ lt eq gt le, g.cmpFast .islt a b = .ok (some lt) ∧ iseqv g a b = .ok (some eq) ∧
    g.cmpFast .islt b a = .ok (some gt) ∧ g.cmpFast .isle a b = .ok (some le) ∧
    g.cmpFast .isge a b = .ok (some !lt) ∧ g.cmpFast .isgt a b = .ok (some !le) ∧ isnev g a b = .ok (some !eq) ∧
    Trichotomous lt eq gt le ∧ Exact ca cb lt eq

/-- A number and a word are equal exactly if the word is the truncated number: if it is, the number is an integer, or
the word one of 32 bits; and if not, the word is not rounded to the number, and not its low word. -/
def Truncates (d : F64) (x : BitVec 64) (n : F64) : Prop :=
  if x = n.asInt64 then d.feq n = true ∨ (-2^31 ≤ x.toInt ∧ x.toInt < 2^31)
  else d.feq n = false ∧ x ≠ Content.lowWord n

/-- For what operands the comparisons fit together. -/
def Comparable : Content → Content → Prop
  | .num _, .num _ => True
  | .int x, .int y => x = y ∨ (F64.ofInt64 x).feq (.ofInt64 y) = false
  | .uint x, .uint y => x = y ∨ (F64.ofNat x.toNat).feq (.ofNat y.toNat) = false
  | .int x, .uint y | .uint y, .int x => x.toInt = y.toNat ∨ (F64.ofInt64 x).feq (.ofNat y.toNat) = false
  | .int x, .num n | .num n, .int x => Truncates (.ofInt64 x) x n
  | .uint x, .num n | .num n, .uint x => 0 ≤ n.asInt64.toInt ∧ Truncates (.ofNat x.toNat) x n

theorem trichotomous_iff {lt eq gt le : Bool} (hle : le = !gt) (hex : (lt && gt) = false) :
    Trichotomous lt eq gt le ↔ (eq = true ↔ lt = false ∧ gt = false) := by
  subst hle
  revert hex
  cases lt <;> cases eq <;> cases gt <;> simp [Trichotomous]

theorem consistent_iff {g : Globals} {a b : LuaValue} {ca cb : Content} (hg : Arith.TypesKept g) (ha : Holds g a ca)
    (hb : Holds g b cb) :
    Consistent g a b ca cb ↔ Trichotomous (ca.order cb).1 (ca.equal cb) (cb.order ca).1 (ca.order cb).2 ∧
      Exact ca cb (ca.order cb).1 (ca.equal cb) := by
  obtain ⟨heq, hne⟩ := equality_instructions hg ha hb
  rw [Consistent]
  simp only [cmpFast_eq hg ha hb, cmpFast_eq hg hb ha, heq, hne]
  constructor
  · rintro ⟨lt, eq, gt, le, hlt, he, hgt, hle, -, -, -, h⟩
    cases hlt
    cases he
    cases hgt
    cases hle
    exact h
  · intro h
    exact ⟨_, _, _, _, rfl, rfl, rfl, rfl, rfl, rfl, rfl, h⟩

/-! ### The orders -/

section
variable (x y : BitVec 64)

theorem signed_order : (x.sle y = !y.slt x) ∧ (x.slt y && y.slt x) = false ∧
    ((x.slt y = false ∧ y.slt x = false) ↔ x = y) := by
  rw [← BitVec.toInt_inj]
  simp only [BitVec.sle, BitVec.slt, ← decide_not, not_lt, Bool.and_eq_false_iff, decide_eq_false_iff_not]
  refine ⟨trivial, ?_, ?_⟩
  · omega
  · omega

theorem unsigned_order : (x.ule y = !y.ult x) ∧ (x.ult y && y.ult x) = false ∧
    ((x.ult y = false ∧ y.ult x = false) ↔ x = y) := by
  rw [← BitVec.toNat_inj]
  simp only [BitVec.ule, BitVec.ult, ← decide_not, not_lt, Bool.and_eq_false_iff, decide_eq_false_iff_not]
  refine ⟨trivial, ?_, ?_⟩
  · omega
  · omega

/-- An integer and an unsigned one, in both directions. -/
theorem mixed_order : ((Content.int x).order (.uint y)).2 = !((Content.uint y).order (.int x)).1 ∧
    ((Content.uint y).order (.int x)).2 = !((Content.int x).order (.uint y)).1 ∧
    (((Content.int x).order (.uint y)).1 && ((Content.uint y).order (.int x)).1) = false ∧
    ((((Content.int x).order (.uint y)).1 = false ∧ ((Content.uint y).order (.int x)).1 = false) ↔
      x.toInt = y.toNat) := by
  have hsign : x.slt 0 = decide (x.toInt < 0) := by simp [BitVec.slt]
  have hy := y.isLt
  obtain ⟨hle, hex, hiff⟩ := unsigned_order x y
  obtain ⟨hle', -, -⟩ := unsigned_order y x
  simp only [Content.order, hsign]
  by_cases hneg : x.toInt < 0
  · simp [hneg]
    omega
  · have heq : x.toInt = y.toNat ↔ x = y := by
      rw [← BitVec.toNat_inj]
      rcases Arith.toInt_cases x with ⟨-, h, -⟩ | ⟨-, h, -⟩ <;> omega
    simp only [hneg, decide_false, Bool.false_eq_true, if_false, heq]
    exact ⟨hle, hle', hex, hiff⟩

theorem signExtend_low_iff : (x.setWidth 32).signExtend 64 = x ↔ -2^31 ≤ x.toInt ∧ x.toInt < 2^31 := by
  rw [← BitVec.toInt_inj, BitVec.toInt_signExtend_of_le (by omega), BitVec.toInt_setWidth]
  have hx := x.isLt
  rcases Arith.toInt_cases x with ⟨-, h, hlt⟩ | ⟨-, h, hlt⟩ <;> rw [h, Int.bmod_def] <;> split_ifs <;> omega

theorem number_order {x y : F64} (hx : x.isNaN = false) (hy : y.isNaN = false) :
    (x.le y = !y.lt x) ∧ (x.lt y && y.lt x) = false ∧ ((x.lt y = false ∧ y.lt x = false) ↔ x.feq y = true) := by
  have hle : x.le y = !y.lt x := by rw [F64.lt_eq_not_le hy hx, Bool.not_not]
  have hrank : x.feq y = true ↔ x.rank = y.rank := F64.feq_iff hx hy
  have hlt : x.lt y = true ↔ x.rank < y.rank := F64.lt_iff hx hy
  have hgt : y.lt x = true ↔ y.rank < x.rank := F64.lt_iff hy hx
  refine ⟨hle, ?_, ?_⟩
  · rw [Bool.and_eq_false_iff, ← Bool.not_eq_true, ← Bool.not_eq_true, hlt, hgt, ← not_and_or]
    exact fun h => lt_asymm h.1 h.2
  · rw [hrank, ← Bool.not_eq_true, ← Bool.not_eq_true, hlt, hgt, not_lt, not_lt]
    exact ⟨fun h => le_antisymm h.2 h.1, fun h => ⟨h.ge, h.le⟩⟩

end

/-! ### Equality -/

theorem feq_ofWide {i : ℤ} (h : i.natAbs ≤ 2^64) : (F64.ofModel (.ofInt i)).feq (F64.ofModel (.ofInt i)) = true :=
  (F64.feq_iff (F64.isNaN_ofWide h) (F64.isNaN_ofWide h)).mpr rfl

/-- Equal integers are equal as doubles; what remains is that other ones are not. -/
theorem feq_exact_iff {i j : ℤ} (hi : i.natAbs ≤ 2^64) :
    ((F64.ofModel (.ofInt i)).feq (F64.ofModel (.ofInt j)) = true ↔ i = j) ↔
      i = j ∨ (F64.ofModel (.ofInt i)).feq (F64.ofModel (.ofInt j)) = false := by
  by_cases h : i = j
  · subst h
    exact iff_of_true (iff_of_true (feq_ofWide hi) rfl) (Or.inl rfl)
  · rw [iff_false_right h, Bool.not_eq_true]
    exact ⟨Or.inr, fun hor => hor.resolve_left h⟩

theorem truncates_iff (d : F64) (x : BitVec 64) (n : F64) :
    ((d.feq n || x = Content.lowWord n) = true ↔ x = n.asInt64) ↔ Truncates d x n := by
  rw [Truncates, Bool.or_eq_true, decide_eq_true_eq]
  split_ifs with hx
  · have hlow : x = Content.lowWord n ↔ -2^31 ≤ x.toInt ∧ x.toInt < 2^31 := by
      rw [← signExtend_low_iff, Content.lowWord, ← hx]
      exact eq_comm
    rw [iff_true_right hx, hlow]
  · rw [iff_false_right hx, not_or, Bool.not_eq_true]

theorem natAbs_toInt (x : BitVec 64) : x.toInt.natAbs ≤ 2^64 := by
  have := x.isLt
  rcases Arith.toInt_cases x with ⟨-, h, -⟩ | ⟨-, h, -⟩ <;> omega

theorem natAbs_toNat (x : BitVec 64) : (x.toNat : ℤ).natAbs ≤ 2^64 := by
  have := x.isLt
  omega

/-! ### The law -/

section
variable {ca cb : Content}

/-- The order of two contents is total apart from what it takes as equal. -/
theorem trichotomous_of {lt eq gt le : Bool} {E : Prop} (h : (le = !gt) ∧ (lt && gt) = false ∧ ((lt = false ∧ gt = false) ↔ E)) :
    Trichotomous lt eq gt le ↔ (eq = true ↔ E) := by
  rw [trichotomous_iff h.1 h.2.1, h.2.2]

/-- A word and a number that is negative are below each other. -/
theorem unsigned_number (x : BitVec 64) (n : F64) (eq : Bool) :
    let t := n.asInt64
    (Trichotomous (t.slt 0 || x.ult t) eq (t.slt 0 || t.ult x) (t.slt 0 || x.ule t) ↔ 0 ≤ t.toInt ∧ (eq = true ↔ x = t)) ∧
    (Trichotomous (t.slt 0 || t.ult x) eq (t.slt 0 || x.ult t) (t.slt 0 || t.ule x) ↔ 0 ≤ t.toInt ∧ (eq = true ↔ x = t)) := by
  intro t
  have hsign : t.slt 0 = decide (t.toInt < 0) := by simp [BitVec.slt]
  by_cases hneg : t.toInt < 0
  · have hs : t.slt 0 = true := by rw [hsign, decide_eq_true hneg]
    have hno : ¬ 0 ≤ t.toInt := by omega
    rw [hs]
    simp [Trichotomous, hno]
  · have hpos : 0 ≤ t.toInt := by omega
    simp only [hsign, hneg, decide_false, Bool.false_or, hpos, true_and]
    have hsymm : t = x ↔ x = t := eq_comm
    exact ⟨trichotomous_of (unsigned_order x t), (trichotomous_of (unsigned_order t x)).trans (by rw [hsymm])⟩

/-- Two integers of one type: the order is exact, so equality has to be. -/
theorem same_type {lt eq gt le : Bool} {E L C : Prop} (h : (le = !gt) ∧ (lt && gt) = false ∧ ((lt = false ∧ gt = false) ↔ E))
    (hlt : lt = true ↔ L) (hE : (eq = true ↔ E) ↔ C) :
    Trichotomous lt eq gt le ∧ (lt = true ↔ L) ∧ (eq = true ↔ E) ↔ C := by
  rw [trichotomous_of h, hE]
  exact ⟨fun h => h.1, fun h => ⟨h, hlt, h⟩⟩

/-- The comparisons of 64-bit integers and numbers fit together exactly where equality agrees with the order. -/
theorem consistent_iff_comparable {g : Globals} {a b : LuaValue} (hg : Arith.TypesKept g) (ha : Holds g a ca)
    (hb : Holds g b cb) : Consistent g a b ca cb ↔ Comparable ca cb := by
  rw [consistent_iff hg ha hb]
  cases ha with
  | @int _ x =>
    cases hb with
    | @int _ y =>
      have hE := feq_exact_iff (j := y.toInt) (natAbs_toInt x)
      rw [BitVec.toInt_inj] at hE
      exact same_type (signed_order x y) (by simp [BitVec.slt, Content.order]) hE
    | @uint _ y =>
      obtain ⟨hle, -, hex, hiff⟩ := mixed_order x y
      exact (and_iff_left trivial).trans
        ((trichotomous_of ⟨hle, hex, hiff⟩).trans (feq_exact_iff (natAbs_toInt x)))
    | @num n hn =>
      exact (and_iff_left trivial).trans ((trichotomous_of (signed_order x _)).trans (truncates_iff _ x n))
  | @uint _ x =>
    cases hb with
    | @int _ y =>
      obtain ⟨-, hle, hex, hiff⟩ := mixed_order y x
      rw [Bool.and_comm] at hex
      have hE := feq_exact_iff (j := x.toNat) (natAbs_toInt y)
      have hcomm : (Content.uint x).equal (.int y) = (F64.ofInt64 y).feq (.ofNat x.toNat) := F64.feq_comm _ _
      rw [hcomm]
      exact (and_iff_left trivial).trans ((trichotomous_of ⟨hle, hex, and_comm.trans hiff⟩).trans hE)
    | @uint _ y =>
      have hE := feq_exact_iff (j := y.toNat) (natAbs_toNat x)
      rw [Nat.cast_inj, BitVec.toNat_inj] at hE
      exact same_type (unsigned_order x y) (by simp [BitVec.ult, Content.order]) hE
    | @num n hn =>
      exact (and_iff_left trivial).trans
        ((unsigned_number x n _).1.trans (and_congr_right' (truncates_iff _ x n)))
  | @num n hn =>
    cases hb with
    | @int _ x =>
      have hsymm : n.asInt64 = x ↔ x = n.asInt64 := eq_comm
      exact (and_iff_left trivial).trans
        ((trichotomous_of (signed_order _ x)).trans ((iff_congr Iff.rfl hsymm).trans (truncates_iff _ x n)))
    | @uint _ x =>
      exact (and_iff_left trivial).trans
        ((unsigned_number x n _).2.trans (and_congr_right' (truncates_iff _ x n)))
    | @num m hm =>
      exact (and_iff_left trivial).trans ((trichotomous_of (number_order hn hm)).trans (iff_of_true Iff.rfl trivial))

end

/-! ### Examples -/

/-- The interpreter with the integers `9007199254740992LL`, `9007199254740993LL` and `5ULL`. -/
def largeIntegers : Globals where
  str _ := []
  tableMt _ := none
  userdataMt _ := none
  ctypeMts _ := none
  basemt _ := none
  getStr _ _ := .nil
  cts := some .new
  cdatas :=
    { objs := [Arith.makeCdataResult 9007199254740992 false, Arith.makeCdataResult 9007199254740993 false,
        Arith.makeCdataResult 5 true]
      dataPtr := fun _ => 0
      base_lt := by
        intro a c b h hb
        rcases a with _ | _ | _ | a <;> simp at h <;> subst h <;> simp [Arith.makeCdataResult] at hb }
  addr _ := 0

theorem typesKept_large : Arith.TypesKept largeIntegers := by
  intro cts h
  cases h
  exact List.prefix_rfl

/-- `9007199254740992LL` is below `9007199254740993LL` and equal to it, and `5ULL` and `-1` are below each other. -/
theorem neighbours_equal :
    largeIntegers.cmpFast .islt (.cdata 0) (.cdata 1) = .ok (some true) ∧
    iseqv largeIntegers (.cdata 0) (.cdata 1) = .ok (some true) ∧
    largeIntegers.cmpFast .islt (.cdata 2) (.num (.ofInt (-1))) = .ok (some true) ∧
    largeIntegers.cmpFast .islt (.num (.ofInt (-1))) (.cdata 2) = .ok (some true) ∧
    ¬ ∀ (g : Globals) (a b : LuaValue) (ca cb : Content), Arith.TypesKept g → Holds g a ca → Holds g b cb →
      Consistent g a b ca cb := by
  have hlt : largeIntegers.cmpFast .islt (.cdata 0) (.cdata 1) = .ok (some true) := by decide
  have heq : iseqv largeIntegers (.cdata 0) (.cdata 1) = .ok (some true) := by decide
  refine ⟨hlt, heq, by decide, by decide, fun h => ?_⟩
  obtain ⟨lt, eq, gt, le, hlt', heq', -, -, -, -, -, htri, -⟩ := h largeIntegers (.cdata 0) (.cdata 1)
    (.int 9007199254740992) (.int 9007199254740993) typesKept_large (.int rfl rfl) (.int rfl rfl)
  rw [hlt] at hlt'
  rw [heq] at heq'
  cases hlt'
  cases heq'
  simp [Trichotomous] at htri

/-- `-6LL` and `2LL` are ordered, and not equal. -/
theorem small_integers : Consistent Arith.threeIntegers (.cdata 0) (.cdata 1) (.int (-6)) (.int 2) :=
  (consistent_iff_comparable Arith.typesKept_three (.int rfl rfl) (.int rfl rfl)).mpr (.inr (by decide))

end LuajitRs.Vm.Equal
