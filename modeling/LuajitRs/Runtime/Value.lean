import LuajitRs.Util.F64

/-! Lua values and the hash of a table key. A value is one constructor for each internal tag that
occurs in a stack slot or a table; `LuaValue.toBits` is the NaN-boxed word, and its injectivity is
what lets the model compare keys by constructor where the runtime compares words. -/
namespace LuajitRs

/-- The ways a runtime operation fails to return: a panic of an assertion, an index out of
bounds, a loop that does not end, a read through a pointer to freed memory, or an arithmetic overflow. -/
inductive Fault
  | tableOverflow
  | outOfBounds
  | diverge
  | dangling
  | overflow
  deriving DecidableEq, Repr

/-- A Lua value; the argument of a collectable constructor is the address of the heap object, the
47-bit payload of the boxed word. -/
inductive LuaValue
  | nil
  | bool (b : Bool)
  | str (a : ℕ)
  | thread (a : ℕ)
  | func (a : ℕ)
  | cdata (a : ℕ)
  | tab (a : ℕ)
  | udata (a : ℕ)
  | num (x : F64)
  deriving DecidableEq, Repr

namespace LuaValue

def isNil (v : LuaValue) : Bool := v = nil
def isString : LuaValue → Bool
  | str _ => true
  | _ => false
def isTable : LuaValue → Bool
  | tab _ => true
  | _ => false

/-- A number value with the key normalisation applied, `LuaValue::number`. -/
def number (x : F64) : LuaValue := num x.normalize

/-- `LuaValue::number(i as f64)`. -/
def ofInt (i : ℤ) : LuaValue := number (F64.ofInt i)

def asNumber : LuaValue → Option F64
  | num x => some x
  | _ => none

def asInt32Exact : LuaValue → Option ℤ
  | num x => x.asInt32Exact
  | _ => none

/-- Negative zero becomes zero and every NaN the canonical one. -/
def normalizeKey : LuaValue → LuaValue
  | num x => number x
  | v => v

/-- The low 17 tag bits of `!k`, shifted above a 47-bit payload. -/
def tagged (k payload : ℕ) : ℕ := (0x1ffff - k) * 2^47 + payload

/-- The NaN-boxed word of a value. -/
def toBits : LuaValue → ℕ
  | nil => tagged 0 (2^47 - 1)
  | bool false => tagged 1 (2^47 - 1)
  | bool true => tagged 2 (2^47 - 1)
  | str a => tagged 4 a
  | thread a => tagged 6 a
  | func a => tagged 8 a
  | cdata a => tagged 10 a
  | tab a => tagged 11 a
  | udata a => tagged 12 a
  | num x => x.bits.toNat

/-- Addresses fit the payload and numbers stay below the tag space, as for every value that the
runtime builds. -/
def Boxable : LuaValue → Prop
  | str a | thread a | func a | cdata a | tab a | udata a => a < 2^47
  | num x => x.bits.toNat < tagged 13 0
  | _ => True

theorem toBits_injective {v w : LuaValue} (hv : v.Boxable) (hw : w.Boxable)
    (h : v.toBits = w.toBits) : v = w := by
  have num_inj : ∀ x y : F64, x.bits.toNat = y.bits.toNat → x = y := by
    rintro ⟨x⟩ ⟨y⟩ h
    exact congrArg F64.mk (UInt64.toNat_inj.mp h)
  rcases v with _ | (_ | _) | a | a | a | a | a | a | x <;>
    rcases w with _ | (_ | _) | b | b | b | b | b | b | y <;>
    simp [toBits, tagged, Boxable] at hv hw h
  all_goals first
    | rfl
    | (exfalso; omega)
    | (congr 1; done)
    | exact congrArg num (num_inj _ _ h)

/-! ### Hashing -/

def rotateLeft (x k : UInt32) : UInt32 := (x <<< k) ||| (x >>> (32 - k))

/-- Bit scramble for hash keys. -/
def hashrot (lo hi : UInt32) : UInt32 :=
  let lo := lo ^^^ hi
  let hi := rotateLeft hi 14
  let lo := lo - hi
  let hi := rotateLeft hi 5
  let hi := hi ^^^ lo
  hi - rotateLeft lo 13

def hashPayload (a : ℕ) : UInt32 := hashrot (UInt32.ofNat a) (UInt32.ofNat (a / 2^32))

/-- The hash of a table key. Strings hash by the interned id of the object that their address
denotes now, so the hash depends on the heap through `sid`. -/
def hashKey (sid : ℕ → UInt32) : LuaValue → UInt32
  | str a => sid a
  | num x => hashrot (UInt32.ofNat x.bits.toNat) (UInt32.ofNat (x.bits.toNat / 2^32) <<< 1)
  | bool b => if b then 1 else 0
  | nil => hashPayload (2^47 - 1)
  | thread a | func a | cdata a | tab a | udata a => hashPayload a

/-! ### Keys -/

/-- A value that a table accepts as a key and stores unchanged: not nil, not NaN, and already
normalised. -/
def ValidKey (v : LuaValue) : Prop := v ≠ nil ∧ v.normalizeKey = v ∧ ∀ x, v = num x → x.isNaN = false

theorem ValidKey.normalize {v : LuaValue} (h : v.ValidKey) : v.normalizeKey = v := h.2.1

theorem validKey_str (a : ℕ) : (str a).ValidKey := ⟨by simp, rfl, by simp⟩

theorem ofInt_eq {i : ℤ} (hi : i.natAbs < 2^53) : ofInt i = num (F64.ofInt i) := by
  rw [ofInt, number, F64.normalize_ofInt hi]

theorem validKey_ofInt {i : ℤ} (hi : i.natAbs < 2^53) : (ofInt i).ValidKey := by
  rw [ofInt_eq hi]
  refine ⟨by simp, by rw [normalizeKey, number, F64.normalize_ofInt hi], ?_⟩
  rintro x ⟨⟩
  exact F64.isNaN_ofInt hi

theorem asInt32Exact_ofInt {i : ℤ} (hlo : -2^31 ≤ i) (hhi : i < 2^31) :
    (ofInt i).asInt32Exact = some i := by
  rw [ofInt_eq (by omega)]
  exact F64.asInt32Exact_ofInt hlo hhi

/-- Among normalised values an `i32` key has only one representation. -/
theorem eq_ofInt_of_asInt32Exact {v : LuaValue} {i : ℤ} (hv : v.normalizeKey = v)
    (h : v.asInt32Exact = some i) : v = ofInt i := by
  cases v with
  | num x =>
    have hb := (F64.asInt32Exact_eq_some.mp h).1
    rw [ofInt_eq (by omega), F64.eq_ofInt_of_asInt32Exact (num.inj hv) h]
  | _ => simp [asInt32Exact] at h

end LuaValue

/-- The type of an argument in an error message. -/
def typeName : LuaValue → String
  | .nil => "no value"
  | .num _ => "number"
  | .str _ => "string"
  | .bool _ => "boolean"
  | .tab _ => "table"
  | .func _ => "function"
  | .thread _ => "thread"
  | .udata _ => "userdata"
  | .cdata _ => "cdata"

/-- A bad argument: its number, the function, and the expected and the actual type. -/
structure BadArg where
  n : ℕ
  func : String
  expected : String
  got : String
  deriving DecidableEq, Repr

end LuajitRs
