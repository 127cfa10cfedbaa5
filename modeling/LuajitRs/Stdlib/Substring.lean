import LuajitRs.Stdlib.Table
import LuajitRs.Util.Strscan

/-! `string.byte` and `string.sub` of the library, with the helpers that compiled traces call in their place. The index
arithmetic is written once for each of the four. -/
namespace LuajitRs.Substring
open TabLib

/-- What a library function reads around its arguments. -/
structure Env where
  /-- The bytes of a string. -/
  bytes : ℕ → List UInt8
  /-- The text of a number. -/
  tostringBytes : F64 → List UInt8
  /-- The call was written as a method call, whose receiver does not count in error messages. -/
  isMethodCall : Bool

/-- `s[a..b]`, which panics outside the string. -/
def slice (s : List UInt8) (a b : ℤ) : Except Fault (List UInt8) :=
  if 0 ≤ a ∧ a ≤ b ∧ b ≤ s.length then .ok ((s.drop a.toNat).take (b - a).toNat) else .error .outOfBounds

/-- A byte as a value. -/
def byteValue (b : UInt8) : LuaValue := .ofInt b.toNat

/-! ### The library -/

section
variable (env : Env)

/-- `string.byte`: the values that the call returns, or its error. -/
def strByte (args : List LuaValue) : Except Fault (Except BadArg (List LuaValue)) :=
  match arg args 0 with
  | .str a => do
    let s := env.bytes a
    let i := ((arg args 1).asNumber.getD (.ofInt 1)).asI64
    let j := ((arg args 2).asNumber.map F64.asI64).getD i
    let len : ℤ := s.length
    let lo := max 1 (if i < 0 then len + i + 1 else i)
    let hi := min len (if j < 0 then len + j + 1 else j)
    if hi < lo then pure (.ok [])
    else
      let part ← slice s (lo - 1) hi
      pure (.ok (part.map byteValue))
  | v => .ok (.error ⟨1, "string.byte", "string", typeName v⟩)

/-- A number, or a string that reads as one. -/
def numArgCoerce : LuaValue → Option F64
  | .num n => some n
  | .str a => Strscan.scanNumber (env.bytes a)
  | _ => none

/-- The index in argument `i`; a missing one is the first or the last position. -/
def coerceIndex (args : List LuaValue) (i : ℕ) (name : String) : Except BadArg ℤ :=
  let v := arg args i
  if v.isNil then .ok (if i = 1 then 1 else 2^63 - 1)
  else
    match numArgCoerce env v with
    | some n => .ok n.asI64
    | none => .error ⟨if env.isMethodCall then i else i + 1, name, "number", typeName v⟩

/-- The subject of `string.sub`. -/
def subject : LuaValue → Option (List UInt8)
  | .str a => some (env.bytes a)
  | .num n => some (env.tostringBytes n)
  | _ => none

/-- The start of the part from the index `i`. -/
def subStart (len i : ℤ) : ℤ := if i < 0 then max 0 (len + i) else min len (max 0 (i - 1))

/-- The end of the part up to the index `j`. -/
def subEnd (len j : ℤ) : ℤ := min (len - 1) (max (-1) (if j < 0 then len + j else j - 1)) + 1

/-- `string.sub`: the bytes of the string that the call returns, or its error. -/
def strSub (args : List LuaValue) : Except Fault (Except BadArg (List UInt8)) :=
  match subject env (arg args 0) with
  | none => .ok (.error ⟨1, "sub", "string", typeName (arg args 0)⟩)
  | some s =>
    match coerceIndex env args 1 "sub" with
    | .error e => .ok (.error e)
    | .ok i =>
      match if (arg args 2).isNil then .ok none else (coerceIndex env args 2 "sub").map some with
      | .error e => .ok (.error e)
      | .ok j => do
        let len : ℤ := s.length
        let a := subStart len i
        let b := (j.map (subEnd len)).getD len
        if b ≤ a then pure (.ok [])
        else
          let part ← slice s a b
          pure (.ok part)

end

/-! ### The helpers of the executor -/

/-- `jit_str_byte`: the byte at one index, or nil outside the string. -/
def jitStrByte (s : List UInt8) (i : F64) : Except Fault LuaValue :=
  let len : ℤ := s.length
  let idx := if i.asI64 < 0 then len + i.asI64 else i.asI64 - 1
  if idx < 0 ∨ len ≤ idx then .ok .nil
  else
    match s[idx.toNat]? with
    | some b => .ok (byteValue b)
    | none => .error .outOfBounds

/-- `jit_str_sub`: the bytes that it interns. -/
def jitStrSub (s : List UInt8) (i j : F64) : Except Fault (List UInt8) :=
  let len : ℤ := s.length
  let a := if i.asI64 < 0 then max 0 (len + i.asI64) else min len (max 0 (i.asI64 - 1))
  let j := if j.asI64 < 0 then len + j.asI64 else j.asI64 - 1
  let b := min (len - 1) (max (-1) j) + 1
  if b ≤ a then .ok [] else slice s a b

/-- The string and the index of a recorded `string.byte`; the form with two indices is not compiled. -/
def recStrByte : List LuaValue → Option (ℕ × F64)
  | [.str a] => some (a, .ofInt 1)
  | [.str a, .num i] => some (a, i)
  | _ => none

/-- The string and the indices of a recorded `string.sub`; a missing end records as -1. -/
def recStrSub : List LuaValue → Option (ℕ × F64 × F64)
  | [.str a, .num i] => some (a, i, .ofInt (-1))
  | [.str a, .num i, .num j] => some (a, i, j)
  | _ => none

/-! ### Agreement -/

/-- A slice of one element. -/
theorem slice_one {s : List UInt8} {k : ℤ} (h0 : 0 ≤ k) (h : k < s.length) :
    ∃ b, s[k.toNat]? = some b ∧ slice s k (k + 1) = .ok [b] := by
  have hk : k.toNat < s.length := by omega
  refine ⟨s[k.toNat], List.getElem?_eq_getElem hk, ?_⟩
  have hone : (k + 1 - k).toNat = 1 := by omega
  rw [slice, if_pos (by omega), hone, List.drop_eq_getElem_cons hk]
  rfl

theorem slice_ok {s : List UInt8} {a b : ℤ} (h0 : 0 ≤ a) (hab : a ≤ b) (hb : b ≤ s.length) :
    slice s a b = .ok ((s.drop a.toNat).take (b - a).toNat) := if_pos ⟨h0, hab, hb⟩

/-- The values of a call whose helper returns `v`: none in place of nil. -/
def values (v : LuaValue) : List LuaValue := if v.isNil then [] else [v]

theorem values_byteValue (b : UInt8) : values (byteValue b) = [byteValue b] := rfl

section
variable (env : Env) (a : ℕ) (i j : F64)

/-- With one index the interval of `string.byte` is that position, or empty. -/
theorem strByte_agrees (args : List LuaValue) (hs : arg args 0 = .str a)
    (hi : ((arg args 1).asNumber.getD (.ofInt 1)) = i) (hj : (arg args 2).asNumber = none) :
    ∃ v, jitStrByte (env.bytes a) i = .ok v ∧ strByte env args = .ok (.ok (values v)) := by
  simp only [strByte, hs, hi, hj, Option.map_none, Option.getD_none, jitStrByte]
  generalize env.bytes a = s
  generalize i.asI64 = n
  by_cases hout : (if n < 0 then (s.length : ℤ) + n else n - 1) < 0 ∨
      (s.length : ℤ) ≤ (if n < 0 then (s.length : ℤ) + n else n - 1)
  · refine ⟨.nil, if_pos hout, ?_⟩
    rw [if_pos]
    · rfl
    · split at hout <;> split <;> omega
  · rw [if_neg hout]
    push Not at hout
    set k := if n < 0 then (s.length : ℤ) + n else n - 1 with hk
    obtain ⟨b, hb, hslice⟩ := slice_one hout.1 hout.2
    have hnext : (if n < 0 then (s.length : ℤ) + n + 1 else n) = k + 1 := by
      rw [hk]
      split <;> omega
    have hlo : max 1 (k + 1) - 1 = k := by omega
    have hhi : min (s.length : ℤ) (k + 1) = k + 1 := by omega
    refine ⟨byteValue b, by rw [hb], ?_⟩
    rw [hnext, hlo, hhi, if_neg (by omega), hslice, values_byteValue]
    rfl

theorem subStart_nonneg (len n : ℤ) (h : 0 ≤ len) : 0 ≤ subStart len n := by
  unfold subStart
  split <;> omega

theorem subEnd_le (len n : ℤ) : subEnd len n ≤ len := by
  unfold subEnd
  omega

/-- A missing end and -1 select the same suffix. -/
theorem subEnd_last (len : ℤ) (h : 0 ≤ len) : subEnd len (-1) = len := by
  unfold subEnd
  split <;> omega

/-- What both versions of `string.sub` do with their two bounds. -/
theorem sub_agrees (s : List UInt8) (n b : ℤ) (hb : b ≤ s.length) :
    ∃ t, (if b ≤ subStart s.length n then .ok [] else slice s (subStart s.length n) b) = Except.ok t ∧
      (if b ≤ subStart s.length n then pure (.ok []) else do
        let part ← slice s (subStart s.length n) b
        pure (.ok part)) = (Except.ok (.ok t) : Except Fault (Except BadArg (List UInt8))) := by
  have h0 := subStart_nonneg s.length n (by omega)
  by_cases h : b ≤ subStart s.length n
  · exact ⟨[], if_pos h, if_pos h⟩
  · refine ⟨_, (if_neg h).trans (slice_ok h0 (by omega) hb), ?_⟩
    rw [if_neg h, slice_ok h0 (by omega) hb]
    rfl

/-- The helper has the bounds of the library. -/
theorem jitStrSub_eq (s : List UInt8) : jitStrSub s i j =
    if subEnd s.length j.asI64 ≤ subStart s.length i.asI64 then .ok []
    else slice s (subStart s.length i.asI64) (subEnd s.length j.asI64) := rfl

theorem strSub_agrees (args : List LuaValue) (hs : arg args 0 = .str a) (hi : arg args 1 = .num i)
    (hj : (arg args 2 = .nil ∧ j = .ofInt (-1)) ∨ arg args 2 = .num j) :
    ∃ t, jitStrSub (env.bytes a) i j = .ok t ∧ strSub env args = .ok (.ok t) := by
  have hstart : coerceIndex env args 1 "sub" = .ok i.asI64 := by simp [coerceIndex, hi, LuaValue.isNil, numArgCoerce]
  have hlen : (0 : ℤ) ≤ (env.bytes a).length := by omega
  obtain ⟨t, ht, hlib⟩ := sub_agrees (env.bytes a) i.asI64 (subEnd (env.bytes a).length j.asI64)
    (subEnd_le _ _)
  refine ⟨t, (jitStrSub_eq i j _).trans ht, ?_⟩
  simp only [strSub, hs, subject, hstart]
  rcases hj with ⟨hnil, rfl⟩ | hnum
  · have hlast : (F64.ofInt (-1)).asI64 = -1 := by decide
    rw [hlast, subEnd_last _ hlen] at hlib
    simpa [hnil, LuaValue.isNil] using hlib
  · have hend : coerceIndex env args 2 "sub" = .ok j.asI64 := by simp [coerceIndex, hnum, LuaValue.isNil, numArgCoerce]
    simpa [hnum, LuaValue.isNil, hend, Except.map] using hlib

end

/-- The recorded call of `string.byte` computes what the library does. -/
def ByteAgrees (env : Env) (args : List LuaValue) : Prop :=
  match recStrByte args with
  | some (a, i) => ∃ v, jitStrByte (env.bytes a) i = .ok v ∧ strByte env args = .ok (.ok (values v))
  | none => True

/-- The recorded call of `string.sub` computes what the library does. -/
def SubAgrees (env : Env) (args : List LuaValue) : Prop :=
  match recStrSub args with
  | some (a, i, j) => ∃ t, jitStrSub (env.bytes a) i j = .ok t ∧ strSub env args = .ok (.ok t)
  | none => True

/-- Neither helper panics, and both return what the library does, for every string and all numbers as indices. -/
theorem helpers_agree (env : Env) (args : List LuaValue) : ByteAgrees env args ∧ SubAgrees env args := by
  constructor
  · unfold ByteAgrees recStrByte
    split
    · next heq =>
      split at heq <;> cases heq
      · exact strByte_agrees env _ _ _ rfl rfl rfl
      · exact strByte_agrees env _ _ _ rfl rfl rfl
    · trivial
  · unfold SubAgrees recStrSub
    split
    · next heq =>
      split at heq <;> cases heq
      · exact strSub_agrees env _ _ _ _ rfl rfl (.inl ⟨rfl, rfl⟩)
      · exact strSub_agrees env _ _ _ _ rfl rfl (.inr rfl)
    · trivial

end LuajitRs.Substring
