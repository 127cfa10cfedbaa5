import Mathlib.Algebra.Order.Ring.Int
import LuajitRs.Vm.Compare

/-! The arithmetic and bitwise instructions of the interpreter, on numbers and on numeric C data. The forms of an
operator for registers and for constants are written separately. -/
namespace LuajitRs.Vm.Arith
open Ffi Lib.Bytes Compare

/-- What an instruction stores in its destination, or that it goes on with the metamethod. -/
inductive Result
  | num (x : F64)
  | cdata (c : CData)
  | metamethod
  deriving DecidableEq

/-- `make_cdata_result`: a new object of a 64-bit integer type. -/
def makeCdataResult (bits : BitVec 64) (isUll : Bool) : CData :=
  ⟨.ofNat (if isUll then CTypeID.uint64 else CTypeID.int64), toLE 8 bits.toNat, none, 0⟩

section
variable (g : Globals)

/-- Numeric C data, usable as a raw value. -/
def cdataIsNumeric : LuaValue → Bool
  | .cdata a => g.cts.all fun cts => ctypeIsNum (cts.raw (g.cdatas.get a).ctypeid.toNat).info
  | _ => false

def isCdata : LuaValue → Bool
  | .cdata _ => true
  | _ => false

/-- An operator on two words; one that panics has no result. -/
abbrev WordOp := BitVec 64 → BitVec 64 → Except Fault (BitVec 64)

def tryCdataBinop (op : WordOp) (xv yv : LuaValue) : Except Fault (Option CData) :=
  if (isCdata xv && !cdataIsNumeric g xv) || (isCdata yv && !cdataIsNumeric g yv) then .ok none
  else
    match g.cdataU64 xv, g.cdataU64 yv, xv.asNumber, yv.asNumber with
    | some x, some y, _, _ => (op x y).map fun r => some (makeCdataResult r (g.cdataIsUll xv || g.cdataIsUll yv))
    | some x, none, _, some yn => (op x yn.asInt64).map fun r => some (makeCdataResult r (g.cdataIsUll xv))
    | none, some y, some xn, _ => (op xn.asInt64 y).map fun r => some (makeCdataResult r (g.cdataIsUll yv))
    | _, _, _, _ => .ok none

/-- An operator on two registers. -/
def binopVV (num : F64 → F64 → F64) (op : WordOp) (xv yv : LuaValue) : Except Fault Result :=
  match xv.asNumber, yv.asNumber with
  | some x, some y => .ok (.num (num x y))
  | _, _ => (tryCdataBinop g op xv yv).map fun r => (r.map Result.cdata).getD .metamethod

/-- An operator on a register and a constant. -/
def binopVN (num : F64 → F64 → F64) (op : WordOp) (xv : LuaValue) (k : F64) : Except Fault Result :=
  match xv.asNumber, g.cdataU64 xv with
  | some x, _ => .ok (.num (num x k))
  | none, some x => (op x k.asInt64).map fun r => .cdata (makeCdataResult r (g.cdataIsUll xv))
  | none, none => .ok .metamethod

/-- An operator on a constant and a register. -/
def binopNV (num : F64 → F64 → F64) (op : WordOp) (k : F64) (yv : LuaValue) : Except Fault Result :=
  match yv.asNumber, g.cdataU64 yv with
  | some y, _ => .ok (.num (num k y))
  | none, some y => (op k.asInt64 y).map fun r => .cdata (makeCdataResult r (g.cdataIsUll yv))
  | none, none => .ok .metamethod

/-! ### The operators -/

/-- The remainder that takes the sign of the divisor. -/
def floorMod (x y : F64) : F64 := x.sub ((x.div y).floor.mul y)

def wrappingAdd : WordOp := fun x y => .ok (x + y)
def wrappingSub : WordOp := fun x y => .ok (x - y)
def wrappingMul : WordOp := fun x y => .ok (x * y)
/-- `x / y` on `u64`, which panics on a zero divisor. -/
def wordDiv : WordOp := fun x y => if y = 0 then .error .overflow else .ok (x / y)
/-- `x % y` on `u64`. -/
def wordRem : WordOp := fun x y => if y = 0 then .error .overflow else .ok (x % y)
/-- `x.checked_div(y).unwrap_or(0)`. -/
def checkedDiv : WordOp := fun x y => .ok (if y = 0 then 0 else x / y)
/-- `if y == 0 { 0 } else { x % y }`. -/
def checkedRem : WordOp := fun x y => .ok (if y = 0 then 0 else x % y)

def addvv := binopVV g F64.add wrappingAdd
def subvv := binopVV g F64.sub wrappingSub
def mulvv := binopVV g F64.mul wrappingMul
def divvv := binopVV g F64.div wordDiv
def modvv := binopVV g floorMod wordRem

def addvn := binopVN g F64.add wrappingAdd
def subvn := binopVN g F64.sub wrappingSub
def mulvn := binopVN g F64.mul wrappingMul
def divvn := binopVN g F64.div checkedDiv
def modvn := binopVN g floorMod checkedRem

def addnv := binopNV g F64.add wrappingAdd
def subnv := binopNV g F64.sub wrappingSub
def mulnv := binopNV g F64.mul wrappingMul
def divnv := binopNV g F64.div checkedDiv
def modnv := binopNV g floorMod checkedRem

/-! ### Powers -/

/-- `while n & 1 == 0 { x *= x; n >>= 1; }`, at most `fuel` times. -/
def dropTwos : (fuel : ℕ) → F64 → ℕ → F64 × ℕ
  | 0, x, n => (x, n)
  | fuel + 1, x, n => if n % 2 = 0 then dropTwos fuel (x.mul x) (n / 2) else (x, n)

/-- The product of the squarings under the remaining bits of the exponent. -/
def powBits : (fuel : ℕ) → (x z : F64) → ℕ → F64
  | 0, _, z, _ => z
  | fuel + 1, x, z, n =>
    if n = 0 then z
    else powBits fuel (x.mul x) (if n % 2 = 1 then z.mul (x.mul x) else z) (n / 2)

/-- A power with a small integer exponent is a product, by squaring; `powf` is the one of the standard library. -/
def vmPow (powf : F64 → F64 → F64) (x y : F64) : F64 :=
  let k := y.asI32
  if (F64.ofInt k).feq y ∧ k.natAbs ≤ 65536 then
    if 1 ≤ k then
      let (x, n) := dropTwos 32 x k.toNat
      powBits 32 x x (n / 2)
    else if k = 0 then .ofInt 1
    else (F64.ofInt 1).div (powf x (.ofInt (-k)))
  else powf x y

/-- `(x as f64).powf(y as f64) as u64`. -/
def wordPow (powf : F64 → F64 → F64) : WordOp := fun x y =>
  .ok (powf (.ofNat x.toNat) (.ofNat y.toNat)).asU64.toBitVec

def pow (powf : F64 → F64 → F64) := binopVV g (vmPow powf) (wordPow powf)

/-- The sign of a register is changed. -/
def unm (v : LuaValue) : Result :=
  match g.cdataU64 v, v.asNumber with
  | some bits, _ => .cdata (makeCdataResult (~~~bits + 1) (g.cdataIsUll v))
  | none, some x => .num x.neg
  | none, none => .metamethod

/-! ### Bitwise operators -/

/-- `num2bit` of the interpreter: the low word of the truncated number. -/
def num2bit (n : F64) : BitVec 32 := n.asInt64.setWidth 32

/-- `v.num()`, which on any other value reads the bits as a number. -/
def rawNum : LuaValue → F64
  | .num x => x
  | v => ⟨.ofNat v.toBits⟩

/-- `num2bit(v.num()) as u64`. -/
def rawWord (v : LuaValue) : BitVec 64 := (num2bit (rawNum v)).signExtend 64

/-- The result of a bitwise instruction, or its error about a value that is no number. -/
abbrev BitResult := Except String Result

def nonNumber : BitResult := .error "attempt to perform arithmetic on a non-number value"

def bnot (v : LuaValue) : BitResult :=
  match g.cdataU64 v, v.asNumber with
  | some bits, _ => .ok (.cdata (makeCdataResult (~~~bits) (g.cdataIsUll v)))
  | none, some x => .ok (.num (.ofInt32 (~~~(num2bit x))))
  | none, none => nonNumber

/-- The instructions for `and`, `or` and `xor`, from the operator on words of either width. -/
def bitop (op : {w : ℕ} → BitVec w → BitVec w → BitVec w) (xv yv : LuaValue) : BitResult :=
  if (g.cdataU64 xv).isSome || (g.cdataU64 yv).isSome then
    let x := (g.cdataU64 xv).getD (rawWord xv)
    let y := (g.cdataU64 yv).getD (rawWord yv)
    .ok (.cdata (makeCdataResult (op x y) (g.cdataIsUll xv || g.cdataIsUll yv)))
  else
    match xv.asNumber, yv.asNumber with
    | some x, some y => .ok (.num (.ofInt32 (op (num2bit x) (num2bit y))))
    | _, _ => nonNumber

/-- The shifts, from the operator on words of either width; the count is taken modulo the width. -/
def shiftop (op : {w : ℕ} → BitVec w → ℕ → BitVec w) (xv yv : LuaValue) : BitResult :=
  match g.cdataU64 xv, xv.asNumber, g.cdataU64 yv, yv.asNumber with
  | some x, _, y, _ =>
    .ok (.cdata (makeCdataResult (op x ((y.getD (rawWord yv)).toNat % 64)) (g.cdataIsUll xv)))
  | none, some x, some y, _ => .ok (.num (.ofInt32 (op (num2bit x) (y.toNat % 32))))
  | none, some x, none, some y => .ok (.num (.ofInt32 (op (num2bit x) ((num2bit y).toNat % 32))))
  | _, _, _, _ => nonNumber

def band := bitop g (· &&& ·)
def bor := bitop g (· ||| ·)
def bxor := bitop g (· ^^^ ·)
def bshl := shiftop g (· <<< ·)
def bshr := shiftop g (· >>> ·)
def bsar := shiftop g BitVec.sshiftRight

end

end LuajitRs.Vm.Arith

/-! 64-bit integers in arithmetic: where the quotients and remainders of the interpreter, which are unsigned ones, are
those of C, and that the forms with registers and with constants then agree. -/
namespace LuajitRs.Vm.Arith
open Ffi Lib.Bytes Compare

/-! ### Signed and unsigned division -/

/-- Both divisions give the same word: of operands that are not negative, by one, of a dividend below the magnitude
of a negative divisor, and of equal operands. -/
def SameQuotient (x y : ℤ) : Prop := (0 ≤ x ∧ 0 ≤ y) ∨ y = 1 ∨ (0 ≤ x ∧ x < -y) ∨ x = y

/-- Both remainders are the same word; a negative dividend leaves none if the divisor divides it and the number of
words. -/
def SameRemainder (x y : ℤ) : Prop := (0 ≤ x ∧ 0 ≤ y) ∨ (0 ≤ x ∧ x < -y) ∨ x = y ∨ (0 < y ∧ y ∣ x ∧ y ∣ 2^64)

section
variable {x y : BitVec 64}

theorem toInt_cases (x : BitVec 64) :
    (x.msb = false ∧ x.toInt = x.toNat ∧ x.toNat < 2^63) ∨ (x.msb = true ∧ x.toInt = x.toNat - 2^64 ∧ 2^63 ≤ x.toNat) := by
  have hlt := x.isLt
  rw [BitVec.msb_eq_decide, BitVec.toInt_eq_toNat_cond]
  by_cases h : x.toNat < 2^63
  · refine .inl ⟨by simp; omega, if_pos (by omega), h⟩
  · refine .inr ⟨by simp; omega, ?_, by omega⟩
    rw [if_neg (by omega)]
    norm_num

/-- A quotient of a negative dividend by a positive divisor other than one. -/
theorem quotient_mixed {a b : ℕ} (ha : 2^63 ≤ a) (ha' : a < 2^64) (hb : 2 ≤ b) (hb' : b < 2^63) :
    a / b ≠ (2^64 - (2^64 - a) / b) % 2^64 := by
  have hlt : a / b ≤ a / 2 := Nat.div_le_div_left hb Nat.two_pos
  have hpos : 0 < a / b := Nat.div_pos (by omega) (by omega)
  have hq : (2^64 - a) / b ≤ (2^64 - a) / 2 := Nat.div_le_div_left hb Nat.two_pos
  generalize (2^64 - a) / b = q at hq ⊢
  omega

theorem udiv_eq_sdiv_iff (hy : y ≠ 0) : x / y = x.sdiv y ↔ SameQuotient x.toInt y.toInt := by
  have hy0 : 0 < y.toNat := by
    rw [Nat.pos_iff_ne_zero]
    exact fun h => hy (BitVec.eq_of_toNat_eq h)
  have hx := x.isLt
  have hylt := y.isLt
  unfold SameQuotient
  rw [← BitVec.toNat_inj, BitVec.toNat_udiv, BitVec.sdiv_eq]
  rcases toInt_cases x with ⟨hmx, hix, hlx⟩ | ⟨hmx, hix, hlx⟩ <;>
    rcases toInt_cases y with ⟨hmy, hiy, hly⟩ | ⟨hmy, hiy, hly⟩ <;>
    simp only [hmx, hmy, hix, hiy, BitVec.udiv_eq, BitVec.toNat_neg, BitVec.toNat_udiv]
  · simp
  · have hny : (2^64 - y.toNat) % 2^64 = 2^64 - y.toNat := by omega
    have hzero : x.toNat / y.toNat = 0 := Nat.div_eq_of_lt (by omega)
    rw [hny, hzero]
    constructor
    · intro h
      have hq : x.toNat / (2^64 - y.toNat) = 0 := by
        have hle := Nat.div_le_self x.toNat (2^64 - y.toNat)
        generalize x.toNat / (2^64 - y.toNat) = q at h hle ⊢
        omega
      have hlt := (Nat.div_eq_zero_iff_lt (by omega)).mp hq
      omega
    · intro h
      rw [Nat.div_eq_of_lt (by omega)]
  · have hnx : (2^64 - x.toNat) % 2^64 = 2^64 - x.toNat := by omega
    rw [hnx]
    by_cases hone : y.toNat = 1
    · simp only [hone, Nat.div_one]
      omega
    · have := quotient_mixed hlx hx (by omega : 2 ≤ y.toNat) hly
      omega
  · have hnx : (2^64 - x.toNat) % 2^64 = 2^64 - x.toNat := by omega
    have hny : (2^64 - y.toNat) % 2^64 = 2^64 - y.toNat := by omega
    rw [hnx, hny]
    rcases Nat.lt_trichotomy x.toNat y.toNat with h | h | h
    · have hq : 0 < (2^64 - x.toNat) / (2^64 - y.toNat) := Nat.div_pos (by omega) (by omega)
      have := Nat.div_eq_of_lt h
      omega
    · rw [h, Nat.div_self hy0, Nat.div_self (by omega)]
      omega
    · have hq : (2^64 - x.toNat) / (2^64 - y.toNat) = 0 := Nat.div_eq_of_lt (by omega)
      have := Nat.div_pos h.le hy0
      omega

/-- A negative dividend leaves no remainder of either kind exactly if the divisor divides it and `2^64`. -/
theorem dvd_both_iff {a b : ℕ} (ha : a ≤ 2^64) :
    ((b : ℤ) ∣ a - 2^64 ∧ (b : ℤ) ∣ 2^64) ↔ (2^64 - a) % b = 0 ∧ a % b = 0 := by
  have hneg : (a : ℤ) - 2^64 = -((2^64 - a : ℕ) : ℤ) := by
    rw [Nat.cast_sub ha]
    push_cast
    ring
  rw [hneg, dvd_neg, Int.natCast_dvd_natCast, Nat.dvd_iff_mod_eq_zero]
  refine and_congr_right fun h => ?_
  rw [← Nat.dvd_iff_mod_eq_zero] at h ⊢
  have hcast : (b : ℤ) ∣ 2^64 ↔ b ∣ 2^64 := by exact_mod_cast Int.natCast_dvd_natCast
  rw [hcast, show 2^64 = (2^64 - a) + a by omega]
  exact Nat.dvd_add_right h

theorem umod_eq_srem_iff (hy : y ≠ 0) : x % y = x.srem y ↔ SameRemainder x.toInt y.toInt := by
  have hy0 : 0 < y.toNat := by
    rw [Nat.pos_iff_ne_zero]
    exact fun h => hy (BitVec.eq_of_toNat_eq h)
  have hx := x.isLt
  have hylt := y.isLt
  unfold SameRemainder
  rw [← BitVec.toNat_inj, BitVec.toNat_umod, BitVec.srem_eq]
  rcases toInt_cases x with ⟨hmx, hix, hlx⟩ | ⟨hmx, hix, hlx⟩ <;>
    rcases toInt_cases y with ⟨hmy, hiy, hly⟩ | ⟨hmy, hiy, hly⟩ <;>
    simp only [hmx, hmy, hix, hiy, BitVec.toNat_neg, BitVec.toNat_umod]
  · simp
  · have hny : (2^64 - y.toNat) % 2^64 = 2^64 - y.toNat := by omega
    have hself : x.toNat % y.toNat = x.toNat := Nat.mod_eq_of_lt (by omega)
    rw [hny, hself]
    constructor
    · intro h
      have := Nat.mod_lt x.toNat (y := 2^64 - y.toNat) (by omega)
      omega
    · intro h
      rw [Nat.mod_eq_of_lt (by omega)]
  · have hnx : (2^64 - x.toNat) % 2^64 = 2^64 - x.toNat := by omega
    have hlt := Nat.mod_lt x.toNat hy0
    have hlt' := Nat.mod_lt (2^64 - x.toNat) hy0
    have hdvd := dvd_both_iff (b := y.toNat) hx.le
    rw [hnx]
    constructor
    · intro h
      exact .inr (.inr (.inr ⟨by omega, hdvd.mpr (by omega)⟩))
    · rintro (h | h | h | ⟨_, h⟩)
      · omega
      · omega
      · omega
      · obtain ⟨hz, hz'⟩ := hdvd.mp h
        rw [hz, hz']
  · have hnx : (2^64 - x.toNat) % 2^64 = 2^64 - x.toNat := by omega
    have hny : (2^64 - y.toNat) % 2^64 = 2^64 - y.toNat := by omega
    rw [hnx, hny]
    rcases Nat.lt_trichotomy x.toNat y.toNat with h | h | h
    · rw [Nat.mod_eq_of_lt h]
      have := Nat.mod_lt (2^64 - x.toNat) (y := 2^64 - y.toNat) (by omega)
      omega
    · rw [h, Nat.mod_self, Nat.mod_self]
      omega
    · have hmod : x.toNat % y.toNat = x.toNat - y.toNat := by
        rw [Nat.mod_eq_sub_mod h.le, Nat.mod_eq_of_lt (by omega)]
      rw [hmod, Nat.mod_eq_of_lt (show 2^64 - x.toNat < 2^64 - y.toNat by omega)]
      omega

end

/-! ### C arithmetic -/

inductive ArithOp
  | add | sub | mul | div | mod
  deriving DecidableEq

/-- The result in C: two's complement, signed and truncating unless the operation is unsigned; a zero divisor has
none. -/
def cArith (isUll : Bool) (x y : BitVec 64) : ArithOp → Option (BitVec 64)
  | .add => some (x + y)
  | .sub => some (x - y)
  | .mul => some (x * y)
  | .div => if y = 0 then none else some (if isUll then x / y else x.sdiv y)
  | .mod => if y = 0 then none else some (if isUll then x % y else x.srem y)

section
variable (g : Globals)

def vv : ArithOp → LuaValue → LuaValue → Except Fault Result
  | .add => addvv g
  | .sub => subvv g
  | .mul => mulvv g
  | .div => divvv g
  | .mod => modvv g

def vn : ArithOp → LuaValue → F64 → Except Fault Result
  | .add => addvn g
  | .sub => subvn g
  | .mul => mulvn g
  | .div => divvn g
  | .mod => modvn g

def nv : ArithOp → F64 → LuaValue → Except Fault Result
  | .add => addnv g
  | .sub => subnv g
  | .mul => mulnv g
  | .div => divnv g
  | .mod => modnv g

/-- What the instructions give that can stand for an operation: both operands in registers, or a number as a
constant. -/
def forms (op : ArithOp) (xv yv : LuaValue) : List (Except Fault Result) :=
  vv g op xv yv :: (yv.asNumber.toList.map (vn g op xv) ++ xv.asNumber.toList.map fun k => nv g op k yv)

/-- The type table keeps the predefined types. -/
def TypesKept : Prop := ∀ cts, g.cts = some cts → predefined <+: cts.tab

/-- An operand as a word: a 64-bit integer object, or a number that stands for a signed integer. -/
inductive Operand : LuaValue → Bool → BitVec 64 → Prop
  | cdata {a : ℕ} {isUll : Bool} {w : BitVec 64}
      (hid : (g.cdatas.get a).ctypeid = .ofNat (if isUll then CTypeID.uint64 else CTypeID.int64))
      (hdata : (g.cdatas.get a).data = toLE 8 w.toNat) : Operand (.cdata a) isUll w
  | num (n : F64) : Operand (.num n) false n.asInt64

/-- Every form returns the same, and that is the result in C where there is one. -/
def IsCArith (op : ArithOp) (xv yv : LuaValue) (isUll : Bool) (x y : BitVec 64) : Prop :=
  ∃ r, (∀ f ∈ forms g op xv yv, f = .ok r) ∧
    ∀ w, cArith isUll x y op = some w → r = .cdata (makeCdataResult w isUll)

/-- The unsigned division of the interpreter is the one of C. -/
def Divides (isUll : Bool) (x y : BitVec 64) : ArithOp → Prop
  | .div => y ≠ 0 ∧ (isUll = true ∨ SameQuotient x.toInt y.toInt)
  | .mod => y ≠ 0 ∧ (isUll = true ∨ SameRemainder x.toInt y.toInt)
  | _ => True

end

/-! ### The instructions on integers -/

section
variable {g : Globals} {xv yv : LuaValue} {ux uy : Bool} {x y : BitVec 64}

/-- Both 64-bit types are numeric in every table that keeps the predefined types. -/
theorem isNum_raw {cts : CTState} (h : predefined <+: cts.tab) (isUll : Bool) :
    ctypeIsNum (cts.raw (if isUll then CTypeID.uint64 else CTypeID.int64)).info = true := by
  have hget (id : ℕ) (hid : id < predefined.length) : cts.get id = predefined.get ⟨id, hid⟩ := by
    obtain ⟨t, ht⟩ := h
    rw [CTState.get, List.getD_eq_getElem?_getD, ← ht, List.getElem?_append_left hid, List.getElem?_eq_getElem hid]
    rfl
  cases isUll
  · rw [CTState.raw, CTState.resolveRawId, show (if false = true then CTypeID.uint64 else CTypeID.int64) = 10 + 1 from rfl,
      CTState.resolveFrom, hget 11 (by decide), if_neg (by decide), hget 11 (by decide)]
    rfl
  · rw [CTState.raw, CTState.resolveRawId, show (if true = true then CTypeID.uint64 else CTypeID.int64) = 11 + 1 from rfl,
      CTState.resolveFrom, hget 12 (by decide), if_neg (by decide), hget 12 (by decide)]
    rfl

theorem numeric_cdata (hg : TypesKept g) {a : ℕ} {isUll : Bool}
    (hid : (g.cdatas.get a).ctypeid = .ofNat (if isUll then CTypeID.uint64 else CTypeID.int64)) :
    cdataIsNumeric g (.cdata a) = true := by
  have hnat : (g.cdatas.get a).ctypeid.toNat = if isUll then CTypeID.uint64 else CTypeID.int64 := by
    rw [hid]
    cases isUll <;> rfl
  rw [cdataIsNumeric, hnat]
  cases hcts : g.cts with
  | none => rfl
  | some cts => exact isNum_raw (hg cts hcts) isUll

/-- What the instructions see of an operand. -/
theorem Operand.seen (hg : TypesKept g) (h : Operand g xv ux x) :
    (isCdata xv = true ∧ cdataIsNumeric g xv = true ∧ g.cdataU64 xv = some x ∧ g.cdataIsUll xv = ux ∧ xv.asNumber = none) ∨
    ∃ n, xv = .num n ∧ ux = false ∧ x = n.asInt64 := by
  cases h with
  | num n => exact .inr ⟨n, rfl, rfl, rfl⟩
  | @cdata a _ _ hid hdata =>
    have hnum := numeric_cdata hg hid
    refine .inl ⟨rfl, hnum, ?_, ?_, rfl⟩
    · have hword : BitVec.ofNat 64 (ofLE (toLE 8 x.toNat)) = x := by
        rw [ofLE_toLE]
        apply BitVec.eq_of_toNat_eq
        simpa using x.isLt
      rw [Globals.cdataU64, hdata, length_toLE, hword]
      exact if_pos (by rw [Bool.and_eq_true]; exact ⟨hnum, rfl⟩)
    · rw [Globals.cdataIsUll, hid]
      cases ux <;> rfl

/-- The operator on words of the forms with two registers. -/
def wordVV : ArithOp → WordOp
  | .add => wrappingAdd
  | .sub => wrappingSub
  | .mul => wrappingMul
  | .div => wordDiv
  | .mod => wordRem

/-- The operator on words of the forms with a constant. -/
def wordK : ArithOp → WordOp
  | .add => wrappingAdd
  | .sub => wrappingSub
  | .mul => wrappingMul
  | .div => checkedDiv
  | .mod => checkedRem

def boxed (isUll : Bool) (r : Except Fault (BitVec 64)) : Except Fault Result :=
  r.map fun w => .cdata (makeCdataResult w isUll)

theorem vv_eq (op : ArithOp) : ∃ num, vv g op = binopVV g num (wordVV op) := by cases op <;> exact ⟨_, rfl⟩
theorem vn_eq (op : ArithOp) : ∃ num, vn g op = binopVN g num (wordK op) := by cases op <;> exact ⟨_, rfl⟩
theorem nv_eq (op : ArithOp) : ∃ num, nv g op = binopNV g num (wordK op) := by cases op <;> exact ⟨_, rfl⟩

theorem seen_num (n : F64) :
    isCdata (.num n) = false ∧ g.cdataU64 (.num n) = none ∧ (LuaValue.num n).asNumber = some n := ⟨rfl, rfl, rfl⟩

theorem forms_eq (hg : TypesKept g) (hx : Operand g xv ux x) (hy : Operand g yv uy y)
    (hcd : isCdata xv = true ∨ isCdata yv = true) (op : ArithOp) :
    ∃ rest, forms g op xv yv = boxed (ux || uy) (wordVV op x y) :: rest ∧
      ∀ f ∈ rest, f = boxed (ux || uy) (wordK op x y) := by
  obtain ⟨num, hvv⟩ := vv_eq (g := g) op
  obtain ⟨num', hvn⟩ := vn_eq (g := g) op
  obtain ⟨num'', hnv⟩ := nv_eq (g := g) op
  rw [forms, hvv, hvn, hnv]
  rcases hx.seen hg with ⟨hxc, hxn, hxw, hxu, hxa⟩ | ⟨n, rfl, rfl, rfl⟩
  · rcases hy.seen hg with ⟨hyc, hyn, hyw, hyu, hya⟩ | ⟨m, rfl, rfl, rfl⟩
    · have h1 : binopVV g num (wordVV op) xv yv = boxed (ux || uy) (wordVV op x y) := by
        simp only [binopVV, tryCdataBinop, hxc, hxn, hxw, hxu, hxa, hyc, hyn, hyw, hyu, hya]
        cases wordVV op x y <;> rfl
      exact ⟨[], by rw [h1, hxa, hya]; rfl, by simp⟩
    · obtain ⟨hc, hw, ha⟩ := seen_num (g := g) m
      have h1 : binopVV g num (wordVV op) xv (.num m) = boxed ux (wordVV op x m.asInt64) := by
        simp only [binopVV, tryCdataBinop, hxc, hxn, hxw, hxu, hxa, hc, hw, ha]
        cases wordVV op x m.asInt64 <;> rfl
      have h2 : binopVN g num' (wordK op) xv m = boxed ux (wordK op x m.asInt64) := by
        simp only [binopVN, hxw, hxu, hxa]
        rfl
      refine ⟨[boxed ux (wordK op x m.asInt64)], ?_, by simp⟩
      rw [h1, hxa, Bool.or_false, ← h2]
      rfl
  · rcases hy.seen hg with ⟨hyc, hyn, hyw, hyu, hya⟩ | ⟨m, rfl, rfl, rfl⟩
    · obtain ⟨hc, hw, ha⟩ := seen_num (g := g) n
      have h1 : binopVV g num (wordVV op) (.num n) yv = boxed uy (wordVV op n.asInt64 y) := by
        simp only [binopVV, tryCdataBinop, hyc, hyn, hyw, hyu, hya, hc, hw, ha]
        cases wordVV op n.asInt64 y <;> rfl
      have h2 : binopNV g num'' (wordK op) n yv = boxed uy (wordK op n.asInt64 y) := by
        simp only [binopNV, hyw, hyu, hya]
        rfl
      refine ⟨[boxed uy (wordK op n.asInt64 y)], ?_, by simp⟩
      rw [h1, hya, Bool.false_or, ← h2]
      rfl
    · simp [isCdata] at hcd

theorem makeCdataResult_inj {w w' : BitVec 64} {isUll : Bool} (h : makeCdataResult w isUll = makeCdataResult w' isUll) :
    w = w' := by
  have hdata := congrArg CData.data h
  rw [makeCdataResult, makeCdataResult, toLE_inj] at hdata
  apply BitVec.eq_of_toNat_eq
  have := w.isLt
  have := w'.isLt
  omega

/-- The words that a division which does not panic gives in every form. -/
def unsignedResult (x y : BitVec 64) : ArithOp → BitVec 64
  | .add => x + y
  | .sub => x - y
  | .mul => x * y
  | .div => x / y
  | .mod => x % y

theorem words_eq {op : ArithOp} (h : y ≠ 0 ∨ (op ≠ .div ∧ op ≠ .mod)) :
    wordVV op x y = .ok (unsignedResult x y op) ∧ wordK op x y = .ok (unsignedResult x y op) := by
  cases op with
  | add => exact ⟨rfl, rfl⟩
  | sub => exact ⟨rfl, rfl⟩
  | mul => exact ⟨rfl, rfl⟩
  | div =>
    have hy : y ≠ 0 := h.resolve_right fun h => h.1 rfl
    exact ⟨if_neg hy, congrArg Except.ok (if_neg hy)⟩
  | mod =>
    have hy : y ≠ 0 := h.resolve_right fun h => h.2 rfl
    exact ⟨if_neg hy, congrArg Except.ok (if_neg hy)⟩

theorem cArith_iff {op : ArithOp} {isUll : Bool} (h : y ≠ 0 ∨ (op ≠ .div ∧ op ≠ .mod)) :
    cArith isUll x y op = some (unsignedResult x y op) ↔ Divides isUll x y op := by
  cases op with
  | add => exact iff_of_true rfl trivial
  | sub => exact iff_of_true rfl trivial
  | mul => exact iff_of_true rfl trivial
  | div =>
    have hy : y ≠ 0 := h.resolve_right fun h => h.1 rfl
    rw [cArith, if_neg hy, Option.some.injEq, Divides, and_iff_right hy, ← udiv_eq_sdiv_iff hy, unsignedResult]
    cases isUll <;> simp [eq_comm]
  | mod =>
    have hy : y ≠ 0 := h.resolve_right fun h => h.2 rfl
    rw [cArith, if_neg hy, Option.some.injEq, Divides, and_iff_right hy, ← umod_eq_srem_iff hy, unsignedResult]
    cases isUll <;> simp [eq_comm]

/-- Addition, subtraction and multiplication are those of C. Quotients and remainders are exactly where the divisor is
not zero and the unsigned ones are those of C; there the forms agree. -/
theorem arith_is_c_arith (hg : TypesKept g) (hx : Operand g xv ux x) (hy : Operand g yv uy y)
    (hcd : isCdata xv = true ∨ isCdata yv = true) (op : ArithOp) :
    IsCArith g op xv yv (ux || uy) x y ↔ Divides (ux || uy) x y op := by
  obtain ⟨rest, hforms, hrest⟩ := forms_eq hg hx hy hcd op
  by_cases h : y ≠ 0 ∨ (op ≠ .div ∧ op ≠ .mod)
  · obtain ⟨hvv, hk⟩ := words_eq (x := x) h
    have hall : ∀ f ∈ forms g op xv yv, f = .ok (.cdata (makeCdataResult (unsignedResult x y op) (ux || uy))) := by
      intro f hf
      rw [hforms, List.mem_cons] at hf
      rcases hf with rfl | hf
      · rw [hvv]
        rfl
      · rw [hrest f hf, hk]
        rfl
    rw [← cArith_iff h]
    constructor
    · rintro ⟨r, hr, hc⟩
      have hhead : forms g op xv yv = boxed (ux || uy) (wordVV op x y) :: rest := hforms
      have hr0 : r = .cdata (makeCdataResult (unsignedResult x y op) (ux || uy)) := by
        have h1 := hr _ (hhead ▸ List.mem_cons_self)
        have h2 := hall _ (hhead ▸ List.mem_cons_self)
        exact Except.ok.inj (h1.symm.trans h2)
      obtain ⟨w, hw⟩ : ∃ w, cArith (ux || uy) x y op = some w := by
        cases op with
        | add => exact ⟨_, rfl⟩
        | sub => exact ⟨_, rfl⟩
        | mul => exact ⟨_, rfl⟩
        | div => exact ⟨_, if_neg (h.resolve_right fun h => h.1 rfl)⟩
        | mod => exact ⟨_, if_neg (h.resolve_right fun h => h.2 rfl)⟩
      have hw' := (hc w hw).symm.trans hr0
      rw [hw, makeCdataResult_inj (Result.cdata.inj hw')]
    · intro hc
      refine ⟨_, hall, fun w hw => ?_⟩
      rw [hc, Option.some.injEq] at hw
      rw [hw]
  · push Not at h
    obtain ⟨rfl, hop⟩ := h
    refine iff_of_false ?_ ?_
    · rintro ⟨r, hr, _⟩
      have hpanic := hr _ (hforms ▸ List.mem_cons_self)
      by_cases hdiv : op = .div
      · subst hdiv
        simp [boxed, wordVV, wordDiv, Except.map] at hpanic
      · rw [hop hdiv] at hpanic
        simp [boxed, wordVV, wordRem, Except.map] at hpanic
    · by_cases hdiv : op = .div
      · subst hdiv
        simp [Divides]
      · rw [hop hdiv]
        simp [Divides]

end

/-! ### Negative and zero operands -/

/-- The interpreter with the integers `-6LL`, `2LL` and `0LL`. -/
def threeIntegers : Globals where
  str _ := []
  tableMt _ := none
  userdataMt _ := none
  ctypeMts _ := none
  basemt _ := none
  getStr _ _ := .nil
  cts := some .new
  cdatas :=
    { objs := [makeCdataResult (-6) false, makeCdataResult 2 false, makeCdataResult 0 false]
      dataPtr := fun _ => 0
      base_lt := by
        intro a c b h hb
        rcases a with _ | _ | _ | a <;> simp at h <;> subst h <;> simp [makeCdataResult] at hb }
  addr _ := 0

theorem typesKept_three : TypesKept threeIntegers := by
  intro cts h
  cases h
  exact List.prefix_rfl

/-- `-6LL / 2LL` is a large positive number, and `2LL / 0LL` and `2LL % 0LL` panic. -/
theorem quotient_of_negative :
    vv threeIntegers .div (.cdata 0) (.cdata 1) = .ok (.cdata (makeCdataResult 0x7ffffffffffffffd false)) ∧
    vv threeIntegers .div (.cdata 1) (.cdata 2) = .error .overflow ∧
    vv threeIntegers .mod (.cdata 1) (.cdata 2) = .error .overflow := by
  decide

/-- The operators are not all those of C. -/
theorem division_not_c : ¬ ∀ (g : Globals) (op : ArithOp) (xv yv : LuaValue) (ux uy : Bool) (x y : BitVec 64),
    TypesKept g → Operand g xv ux x → Operand g yv uy y → (isCdata xv = true ∨ isCdata yv = true) →
    IsCArith g op xv yv (ux || uy) x y := by
  intro h
  obtain ⟨r, hr, hc⟩ := h threeIntegers .div (.cdata 0) (.cdata 1) false false (-6) 2 typesKept_three
    (.cdata rfl rfl) (.cdata rfl rfl) (.inl rfl)
  have hhead := hr _ List.mem_cons_self
  rw [quotient_of_negative.1] at hhead
  have hthree := hc (-3) (by decide)
  rw [← Except.ok.inj hhead] at hthree
  revert hthree
  decide

/-- Where both operands are positive the division is that of C. -/
theorem quotient_of_positive : IsCArith threeIntegers .div (.cdata 1) (.cdata 1) false 2 2 := by
  have htwo : Operand threeIntegers (.cdata 1) false 2 := .cdata rfl rfl
  exact (arith_is_c_arith typesKept_three htwo htwo (.inl rfl) .div).mpr ⟨by decide, .inr (.inl ⟨by decide, by decide⟩)⟩

end LuajitRs.Vm.Arith
