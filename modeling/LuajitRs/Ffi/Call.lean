import Mathlib.Data.Nat.BitIndices
import LuajitRs.Ffi.CType
import LuajitRs.Util.F64

/-! Calls of C functions. The interpreter marshals by the declared prototype; a trace knows the prototype as a few
bits, and its helper marshals by them. The C function is whatever reads the argument registers and leaves
something in the result registers. -/
namespace LuajitRs.Ffi
open Lib.Bytes

/-! ### Prototypes -/

namespace CTState
variable (cts : CTState)

/-- The parameters from the field `cur` on; a chain of fields has no more than all entries. -/
def paramsFrom : ℕ → ℕ → List ℕ
  | 0, _ => []
  | fuel + 1, cur =>
    if cur = 0 then []
    else
      match cts.tab[cur]? with
      | some f => ctypeCid f.info :: paramsFrom fuel f.sib
      | none => []

/-- The declared parameter types of a function type, none when the type is no function. -/
def ccallParamTypes (fid : ℕ) : List ℕ :=
  if ctypeIsFunc (cts.raw fid).info then cts.paramsFrom cts.tab.length (cts.raw fid).sib else []

def ccallRetType (fid : ℕ) : ℕ :=
  if ctypeIsFunc (cts.raw fid).info then ctypeCid (cts.raw fid).info else CTypeID.void

def isFpFrom : ℕ → ℕ → Bool
  | 0, _ => false
  | fuel + 1, id =>
    let info := (cts.raw id).info
    if ctypeIsNum info then info &&& CTInfo.FP ≠ 0
    else if ctypeIsArray info && ctypeIsComplex info then isFpFrom fuel (ctypeCid info)
    else false

/-- Is this a floating-point type? A complex type is one when its element is. -/
def ctypeIsFp (id : ℕ) : Bool := cts.isFpFrom cts.tab.length id

/-- A parameter that takes an address. -/
def isPtrParam (id : ℕ) : Bool := ctypeIsPtr (cts.raw id).info || ctypeIsFunc (cts.raw id).info

/-- The kind of a parameter: 2 for an integer, 1 for a floating-point number, 3 for a pointer. -/
def paramKind (p : ℕ) : ℕ := if cts.isPtrParam p then 3 else if cts.ctypeIsFp p then 1 else 2

/-- The return kind in bit 0, and the kinds of the first two parameters four bits each from bit 2 on. -/
def ffiTypeCode (fid : ℕ) : ℕ :=
  ((cts.ccallParamTypes fid).take 2).zipIdx.foldl (fun code pi => code ||| cts.paramKind pi.1 <<< (2 + pi.2 * 4))
    (if cts.ctypeIsFp (cts.ccallRetType fid) then 1 else 0)

/-- The name of a pointer type in an error message. -/
def ptrNameOf (p : ℕ) : String :=
  match cts.names.find? (fun nv => nv.2 = ctypeCid (cts.raw p).info) with
  | some nv => nv.1 ++ " *"
  | none => "void *"

end CTState

def ffiParamKind (typeCode i : ℕ) : ℕ := (typeCode >>> (2 + i * 4)) &&& 0xf

def typeNameOf : LuaValue → String
  | .num _ => "number"
  | .str _ => "string"
  | .nil => "nil"
  | .bool _ => "boolean"
  | .tab _ => "table"
  | .func _ => "function"
  | .cdata _ => "cdata"
  | _ => "userdata"

/-! ### Registers -/

/-- An argument register, by its class and its place in the order of the class. -/
inductive Reg
  | int (i : ℕ)
  | fp (i : ℕ)
  deriving DecidableEq, Repr

/-- What a call leaves in each argument register, none where it leaves the register alone. -/
abbrev Call := Reg → Option (BitVec 64)

/-- The result registers. -/
structure CRet where
  rax : BitVec 64
  xmm0 : BitVec 64
  deriving DecidableEq, Repr

def CRet.bits (r : CRet) (retFp : Bool) : BitVec 64 := if retFp then r.xmm0 else r.rax

/-- All arguments as integers, padded with zeros to a fixed signature. The last of them go to the stack. -/
def callInts (args : List (BitVec 64)) : Call
  | .int i => if i < 6 then some (args.getD i 0) else none
  | .fp _ => none

/-- All arguments as floating-point numbers, padded with zeros. -/
def callFps (args : List (BitVec 64)) : Call
  | .int _ => none
  | .fp i => if i < 8 then some (args.getD i 0) else none

/-- One argument of each class. -/
def callMixed (x y : BitVec 64) : Call
  | .int i => if i = 0 then some x else none
  | .fp i => if i = 0 then some y else none

def ffiMaxArgs : ℕ := 12

/-- The number of bits that are set. -/
def countOnes (mask : ℕ) : ℕ := mask.bitIndices.length

/-- The C call of `args`, where `argFp` marks the floating-point arguments. Mixed lists are dispatched exactly for
two arguments, and otherwise as integers. -/
def ffiCallDispatch (args : List (BitVec 64)) (argFp : ℕ) : Call :=
  let n := min args.length ffiMaxArgs
  if countOnes argFp = 0 then callInts args
  else if countOnes argFp = n then callFps args
  else
    match n, argFp with
    | 2, 2 => callMixed (args.getD 0 0) (args.getD 1 0)
    | 2, 1 => callMixed (args.getD 1 0) (args.getD 0 0)
    | _, _ => callInts args

/-- The registers that the parameters occupy, when the first free ones of each class are `ni` and `nf`. -/
def paramRegs : List Bool → ℕ → ℕ → List Reg
  | [], _, _ => []
  | true :: ks, ni, nf => .fp nf :: paramRegs ks ni (nf + 1)
  | false :: ks, ni, nf => .int ni :: paramRegs ks (ni + 1) nf

/-- What the C function finds in the registers of its parameters. -/
def handed (fps : List Bool) (c : Call) : List (Option (BitVec 64)) := (paramRegs fps 0 0).map c

/-! ### The two callers -/

inductive FfiError
  | fault (f : Fault)
  | runtime (msg : String)
  deriving DecidableEq, Repr

/-- The Lua value of a result: a value, or a new object of a type. -/
inductive CResult
  | value (v : LuaValue)
  | object (ctypeid : ℕ) (data : List UInt8)
  deriving DecidableEq, Repr

def CResult.isNil : CResult → Bool
  | .value v => v.toBits = LuaValue.nil.toBits
  | .object _ _ => false

/-- The runtime around a call: types, objects, the address of the copy of a string that is made for the call (none
for a string with a zero byte), and the entry point of the callback that is made for a function. -/
structure Host where
  cts : CTState
  heap : CDataHeap
  cstring : ℕ → Option (BitVec 64)
  callback : ℕ → ℕ → Except FfiError (BitVec 64)

/-- The C call that a caller makes, and how it encodes the result registers. -/
structure Outcome where
  call : Call
  encode : CRet → CResult

/-- `LuaValue::number_raw` of a register. -/
def numberRaw (bits : BitVec 64) : LuaValue := .num ⟨UInt64.ofBitVec bits⟩

/-- The Lua value of the result bits by the declared return type. -/
def encodeFfiResult (cts : CTState) (ret : Option ℕ) (bits : BitVec 64) : CResult :=
  match ret with
  | none => .value (.number (.ofInt64 bits))
  | some tid =>
    let raw := cts.raw tid
    if ctypeIsFp raw.info then
      if raw.size = 4 then .value (.number (.ofF32 (bits.setWidth 32))) else .value (numberRaw bits)
    else if raw.info &&& CTInfo.BOOL ≠ 0 then .value (.bool (bits ≠ 0))
    else if ctypeIsPtr raw.info || ctypeIsFunc raw.info then .object tid (toLE 8 bits.toNat)
    else if raw.size = 8 then
      .object (if raw.info &&& CTInfo.UNSIGNED ≠ 0 then CTypeID.uint64 else CTypeID.int64) (toLE 8 bits.toNat)
    else if raw.size = 1 then .value (.ofInt (bits.setWidth 8).toInt)
    else if raw.size = 2 then .value (.ofInt (bits.setWidth 16).toInt)
    else if raw.size = 4 then .value (.ofInt (bits.setWidth 32).toInt)
    else .value (.number (.ofInt64 bits))

namespace Host
variable (host : Host)

/-- The address that an object carries into a C call: a stored pointer, else the storage address. -/
def cdataArgAddr (a : ℕ) : Except FfiError (BitVec 64) :=
  if ctypeIsPtr (host.cts.raw (host.heap.get a).ctypeid.toNat).info then .ok (host.heap.get a).getPtr
  else
    match host.heap.resolvePtr a with
    | .ok (off, root) => .ok (host.heap.dataPtr root + BitVec.ofInt 64 (max off 0))
    | .error f => .error (.fault f)

def stringArg (s : ℕ) : Except FfiError (BitVec 64) :=
  match host.cstring s with
  | some p => .ok p
  | none => .error (.runtime "ffi: string contains null byte")

/-- The function type that a type id or the pointer behind it denotes. -/
def funcCtypeOf (id : ℕ) : Option ℕ :=
  let raw := host.cts.raw id
  if ctypeIsFunc raw.info then some id
  else if ctypeIsPtr raw.info && ctypeIsFunc (host.cts.raw (ctypeCid raw.info)).info then some (ctypeCid raw.info)
  else none

def cannotConvert (a : LuaValue) (target : String) : FfiError :=
  .runtime ("cannot convert '" ++ typeNameOf a ++ "' to '" ++ target ++ "'")

/-- An argument with a declared parameter type. -/
def marshalDeclared (p : ℕ) (a : LuaValue) : Except FfiError (BitVec 64) :=
  if host.cts.isPtrParam p then
    match a with
    | .cdata c => host.cdataArgAddr c
    | .func f => if (host.funcCtypeOf p).isSome then host.callback p f else .error (cannotConvert a (host.cts.ptrNameOf p))
    | .str s => host.stringArg s
    | .nil => .ok 0
    | a => .error (cannotConvert a (host.cts.ptrNameOf p))
  else
    match a with
    | .cdata c => .ok (.ofNat 64 (ofLE ((host.heap.get c).data.take 8)))
    | .num n =>
      .ok (if host.cts.ctypeIsFp p then
          if (host.cts.raw p).size = 4 then n.asF32.setWidth 64 else n.bits.toBitVec
        else n.asInt64)
    | .nil => .ok 0
    | a => .error (cannotConvert a "number")

/-- An argument past the declared parameters. -/
def marshalExtra (a : LuaValue) : Except FfiError (BitVec 64) :=
  match a with
  | .str s => host.stringArg s
  | .cdata c => host.cdataArgAddr c
  | .num n => .ok n.asInt64
  | _ => .ok 0

def marshalArgs : List ℕ → List LuaValue → Except FfiError (List (BitVec 64))
  | _, [] => .ok []
  | [], a :: as => do
    let x ← host.marshalExtra a
    return x :: (← marshalArgs [] as)
  | p :: ps, a :: as => do
    let x ← host.marshalDeclared p a
    return x :: (← marshalArgs ps as)

/-- The mask of the floating-point parameters, bit by bit. -/
def argFp : List Bool → ℕ
  | [] => 0
  | k :: ks => k.toNat + 2 * argFp ks

/-- The interpreter's call. The mask of the parameters is a 64-bit word. -/
def ffiCallTyped (declId : Option ℕ) (args : List LuaValue) : Except FfiError Outcome := do
  let paramTypes := (declId.map host.cts.ccallParamTypes).getD []
  let cargs ← host.marshalArgs paramTypes args
  let retTid := declId.map host.cts.ccallRetType
  let retFp := (retTid.map host.cts.ctypeIsFp).getD false
  let fps := paramTypes.map host.cts.ctypeIsFp
  if (fps.drop 64).any id then throw (.fault .overflow)
  return ⟨ffiCallDispatch cargs (argFp fps), fun r => encodeFfiResult host.cts retTid (r.bits retFp)⟩

/-- An argument of the helper, none where it gives up. -/
def marshal (kind : ℕ) (v : LuaValue) : Option (BitVec 64) :=
  match kind with
  | 1 =>
    match v with
    | .num n => some n.bits.toBitVec
    | _ => none
  | 3 =>
    match v with
    | .cdata c => some (host.heap.dataPtr c)
    | .nil => some 0
    | _ => none
  | _ =>
    match v with
    | .num n => some n.asInt64
    | .nil => some 0
    | _ => none

/-- The call of a trace, none where the helper returns nil without a call. The type code arrives as a number. -/
def jitFfiCall (typeBits : F64) (a1 a2 : LuaValue) : Option Outcome := do
  let typeCode := typeBits.asU64.toNat
  let x ← host.marshal (ffiParamKind typeCode 0) a1
  let y ← host.marshal (ffiParamKind typeCode 1) a2
  let mask := (ffiParamKind typeCode 0 == 1).toNat + 2 * (ffiParamKind typeCode 1 == 1).toNat
  return ⟨ffiCallDispatch [x, y] mask, fun r => .value (if typeCode &&& 1 ≠ 0 then numberRaw r.xmm0 else .number (.ofInt64 r.rax))⟩

end Host

end LuajitRs.Ffi

/-! The registers that a call sets. The dispatch depends on how many arguments there are and which parameters are
floating-point numbers, and the two callers count them differently. -/
namespace LuajitRs.Ffi

/-! ### The mask -/

theorem countOnes_argFp (ks : List Bool) : countOnes (Host.argFp ks) = ks.count true := by
  induction ks with
  | nil => rfl
  | cons k ks ih =>
    cases k with
    | false =>
      rw [Host.argFp, Bool.toNat_false, Nat.zero_add, countOnes, Nat.bitIndices_two_mul, List.length_map,
        List.count_cons_of_ne Bool.false_ne_true]
      exact ih
    | true =>
      rw [Host.argFp, Bool.toNat_true, Nat.add_comm, countOnes, Nat.bitIndices_two_mul_add_one, List.length_cons,
        List.length_map, List.count_cons_self]
      exact congrArg (· + 1) ih

theorem argFp_eq_zero {ks : List Bool} : Host.argFp ks = 0 ↔ ks.count true = 0 := by
  constructor
  · intro h
    rw [← countOnes_argFp, h]
    rfl
  · intro h
    induction ks with
    | nil => rfl
    | cons k ks ih =>
      cases k with
      | false =>
        rw [List.count_cons_of_ne Bool.false_ne_true] at h
        rw [Host.argFp, ih h]
        rfl
      | true =>
        rw [List.count_cons_self] at h
        exact absurd h (Nat.succ_ne_zero _)

/-! ### The dispatch -/

section Dispatch
variable (x y : BitVec 64)

/-- The call of two arguments for the first two parameters, when `m` of the others are floating-point numbers. -/
def front : Bool → Bool → ℕ → Call
  | false, false, m => if m = 2 then callFps [x, y] else callInts [x, y]
  | true, false, m => if m = 0 then callMixed y x else if m = 1 then callFps [x, y] else callInts [x, y]
  | false, true, m => if m = 0 then callMixed x y else if m = 1 then callFps [x, y] else callInts [x, y]
  | true, true, m => if m = 0 then callFps [x, y] else callInts [x, y]

theorem dispatch_pair (mask : ℕ) : ffiCallDispatch [x, y] mask =
    if countOnes mask = 0 then callInts [x, y]
    else if countOnes mask = 2 then callFps [x, y]
    else if mask = 2 then callMixed x y
    else if mask = 1 then callMixed y x
    else callInts [x, y] := by
  have hn : min [x, y].length ffiMaxArgs = 2 := rfl
  unfold ffiCallDispatch
  rw [hn]
  dsimp only
  split
  · rfl
  · split
    · rfl
    · by_cases h2 : mask = 2
      · subst h2
        rfl
      · by_cases h1 : mask = 1
        · subst h1
          rfl
        · rw [if_neg h2, if_neg h1]
          split
          · contradiction
          · contradiction
          · rfl

theorem dispatch_two (k₀ k₁ : Bool) (ks : List Bool) :
    ffiCallDispatch [x, y] (Host.argFp (k₀ :: k₁ :: ks)) = front x y k₀ k₁ (ks.count true) := by
  have hones := countOnes_argFp (k₀ :: k₁ :: ks)
  have hzero : Host.argFp ks = 0 ↔ ks.count true = 0 := argFp_eq_zero
  have hmask : Host.argFp (k₀ :: k₁ :: ks) = k₀.toNat + 2 * (k₁.toNat + 2 * Host.argFp ks) := rfl
  rw [dispatch_pair, hones, hmask, List.count_cons, List.count_cons]
  generalize ks.count true = m at hzero
  generalize Host.argFp ks = a at hzero
  by_cases hm : m = 0
  · obtain rfl := hzero.mpr hm
    subst hm
    cases k₀ <;> cases k₁ <;> rfl
  · have ha := mt hzero.mp hm
    have h2 : ¬ k₀.toNat + 2 * (k₁.toNat + 2 * a) = 2 := by cases k₀ <;> (cases k₁ <;> simp <;> omega)
    have h1 : ¬ k₀.toNat + 2 * (k₁.toNat + 2 * a) = 1 := by cases k₀ <;> (cases k₁ <;> simp <;> omega)
    rw [if_neg (by omega), if_neg h2, if_neg h1]
    cases k₀ <;> (cases k₁ <;> simp [front, hm])

/-- The call of one argument, when the second parameter is no floating-point number. -/
theorem dispatch_one (k : Bool) (ks : List Bool) :
    ffiCallDispatch [x] (Host.argFp (k :: ks)) =
      if (k :: ks).count true = 1 then callFps [x] else callInts [x] := by
  have hn : min [x].length ffiMaxArgs = 1 := rfl
  unfold ffiCallDispatch
  rw [countOnes_argFp, hn]
  dsimp only
  split
  · next h => rw [if_neg (by omega)]
  · rfl

end Dispatch

/-! ### The registers of the parameters -/

theorem handed_iff {ks : List Bool} {c c' : Call} :
    handed ks c' = handed ks c ↔ ∀ g ∈ paramRegs ks 0 0, c' g = c g := List.map_inj_left

/-- Which registers the dispatch sets is the same for both callers. -/
def SameShape (fps : List Bool) (narg : ℕ) : Prop :=
  ((fps.take 2).count true = 0 ∧ fps.count true ≠ narg) ∨
    ((fps.take 2).count true ≠ 0 ∧ fps.count true = (fps.take 2).count true ∧ (narg = 2 ∨ fps.length = 1))

section Handed
variable {x y x' y' : BitVec 64} {k₀ k₁ : Bool} {ks : List Bool}

theorem sameShape_two : SameShape (k₀ :: k₁ :: ks) 2 ↔
    ((k₀ || k₁) = false ∧ ks.count true ≠ 2) ∨ ((k₀ || k₁) = true ∧ ks.count true = 0) := by
  rw [SameShape]
  cases k₀ <;> (cases k₁ <;> simp)

/-- The other parameters do not matter when the shapes are the same. -/
theorem front_same (h : SameShape (k₀ :: k₁ :: ks) 2) : front x y k₀ k₁ (ks.count true) = front x y k₀ k₁ 0 := by
  rw [sameShape_two] at h
  cases h with
  | inl h =>
    obtain ⟨rfl, rfl⟩ := Bool.or_eq_false_iff.mp h.1
    rw [front, front, if_neg h.2, if_neg (by decide)]
  | inr h => rw [h.2]

/-- One of the first two parameters tells different shapes apart. -/
theorem front_differs (h : ¬ SameShape (k₀ :: k₁ :: ks) 2) : ∃ g ∈ paramRegs (k₀ :: k₁ :: ks) 0 0,
    front x' y' k₀ k₁ (ks.count true) g ≠ front x y k₀ k₁ 0 g := by
  rw [sameShape_two] at h
  generalize ks.count true = m at h
  cases k₀ with
  | false =>
    cases k₁ with
    | false =>
      obtain rfl : m = 2 := by simpa using h
      exact ⟨.int 0, List.mem_cons_self, by simp [front, callFps, callInts]⟩
    | true =>
      have hm : m ≠ 0 := by simpa using h
      by_cases h1 : m = 1
      · exact ⟨.int 0, List.mem_cons_self, by simp [front, h1, callFps, callMixed]⟩
      · exact ⟨.fp 0, List.mem_cons_of_mem _ List.mem_cons_self, by simp [front, hm, h1, callInts, callMixed]⟩
  | true =>
    cases k₁ with
    | false =>
      have hm : m ≠ 0 := by simpa using h
      by_cases h1 : m = 1
      · exact ⟨.int 0, List.mem_cons_of_mem _ List.mem_cons_self, by simp [front, h1, callFps, callMixed]⟩
      · exact ⟨.fp 0, List.mem_cons_self, by simp [front, hm, h1, callInts, callMixed]⟩
    | true =>
      have hm : m ≠ 0 := by simpa using h
      exact ⟨.fp 0, List.mem_cons_self, by simp [front, hm, callFps, callInts]⟩

/-- Two arguments for at least two parameters. -/
theorem handed_two : handed (k₀ :: k₁ :: ks) (front x' y' k₀ k₁ (ks.count true)) =
      handed (k₀ :: k₁ :: ks) (front x y k₀ k₁ 0) ↔ SameShape (k₀ :: k₁ :: ks) 2 ∧ x' = x ∧ y' = y := by
  constructor
  · intro h
    have hshape : SameShape (k₀ :: k₁ :: ks) 2 := by
      by_contra hne
      obtain ⟨g, hg, hdiff⟩ : ∃ g ∈ paramRegs (k₀ :: k₁ :: ks) 0 0,
          front x' y' k₀ k₁ (ks.count true) g ≠ front x y k₀ k₁ 0 g := front_differs hne
      exact hdiff (handed_iff.mp h g hg)
    rw [front_same hshape] at h
    refine ⟨hshape, ?_⟩
    cases k₀ <;> (cases k₁ <;> simp_all [handed, paramRegs, front, callInts, callFps, callMixed])
  · rintro ⟨hshape, rfl, rfl⟩
    rw [front_same hshape]

/-- Two arguments for one parameter. -/
theorem handed_one_of_two : handed [k₀] (front x' y' k₀ false 0) = handed [k₀] (front x y k₀ false 0) ↔ x' = x := by
  cases k₀ <;> simp [handed, paramRegs, front, callInts, callMixed]

theorem sameShape_one : SameShape (k₀ :: false :: ks) 1 ↔ k₀ = false ∧ ks.count true ≠ 1 := by
  rw [SameShape]
  cases k₀ <;> simp

/-- One argument for at least two parameters. -/
theorem handed_one : handed (k₀ :: false :: ks) (if (k₀ :: false :: ks).count true = 1 then callFps [x'] else callInts [x']) =
      handed (k₀ :: false :: ks) (front x 0 k₀ false 0) ↔ SameShape (k₀ :: false :: ks) 1 ∧ x' = x := by
  rw [sameShape_one]
  cases k₀ with
  | false =>
    rw [List.count_cons_of_ne Bool.false_ne_true, List.count_cons_of_ne Bool.false_ne_true]
    by_cases h1 : ks.count true = 1
    · rw [if_pos h1]
      simp [handed, paramRegs, front, callInts, callFps, h1]
    · rw [if_neg h1]
      constructor
      · intro h
        simp_all [handed, paramRegs, front, callInts]
      · rintro ⟨-, rfl⟩
        rw [handed_iff]
        intro g _
        cases g with
        | int i =>
          match i with
          | 0 => rfl
          | 1 => rfl
          | i + 2 => rfl
        | fp i => rfl
  | true =>
    constructor
    · intro h
      exfalso
      by_cases h1 : (true :: false :: ks).count true = 1
      · rw [if_pos h1] at h
        simp [handed, paramRegs, front, callFps, callMixed] at h
      · rw [if_neg h1] at h
        simp [handed, paramRegs, front, callInts, callMixed] at h
    · rintro ⟨h, -⟩
      exact absurd h.1.symm Bool.false_ne_true

/-- One argument for one parameter. -/
theorem handed_one_of_one : handed [k₀] (if [k₀].count true = 1 then callFps [x'] else callInts [x']) =
      handed [k₀] (front x 0 k₀ false 0) ↔ x' = x := by
  cases k₀ <;> simp [handed, paramRegs, front, callInts, callFps, callMixed]

theorem sameShape_single (n : ℕ) (hn : n = 1 ∨ n = 2) : SameShape [k₀] n := by
  cases k₀ with
  | false =>
    refine .inl ⟨rfl, ?_⟩
    rw [show [false].count true = 0 from rfl]
    omega
  | true => exact .inr ⟨by decide, rfl, .inr rfl⟩

/-- Two arguments: the shapes agree, and so do the arguments of declared parameters. -/
theorem handed_pair (fps : List Bool) : handed fps (ffiCallDispatch [x', y'] (Host.argFp fps)) =
      handed fps (front x y (fps[0]?.getD false) (fps[1]?.getD false) 0) ↔
    SameShape fps 2 ∧ (0 < fps.length → x' = x) ∧ (1 < fps.length → y' = y) := by
  match fps with
  | [] => exact ⟨fun _ => ⟨.inl (by decide), nofun, nofun⟩, fun _ => rfl⟩
  | [k] =>
    have hpad : Host.argFp [k] = Host.argFp [k, false] := rfl
    rw [hpad, dispatch_two]
    refine handed_one_of_two.trans ⟨fun h => ⟨sameShape_single 2 (.inr rfl), fun _ => h, ?_⟩, fun h => h.2.1 Nat.one_pos⟩
    exact fun h => absurd h (Nat.lt_irrefl 1)
  | k₀ :: k₁ :: ks =>
    rw [dispatch_two]
    refine handed_two.trans (and_congr_right fun _ => ?_)
    simp

/-- One argument, when the second parameter is no floating-point number. -/
theorem handed_single (fps : List Bool) (h1 : fps[1]?.getD false = false) :
    handed fps (ffiCallDispatch [x'] (Host.argFp fps)) = handed fps (front x 0 (fps[0]?.getD false) false 0) ↔
    SameShape fps 1 ∧ (0 < fps.length → x' = x) := by
  match fps, h1 with
  | [], _ => exact ⟨fun _ => ⟨.inl (by decide), nofun⟩, fun _ => rfl⟩
  | [k], _ =>
    rw [dispatch_one]
    exact handed_one_of_one.trans ⟨fun h => ⟨sameShape_single 1 (.inl rfl), fun _ => h⟩, fun h => h.2 Nat.one_pos⟩
  | k₀ :: k₁ :: ks, h1 =>
    obtain rfl : k₁ = false := h1
    rw [dispatch_one]
    refine handed_one.trans (and_congr_right fun _ => ?_)
    simp

end Handed

end LuajitRs.Ffi
