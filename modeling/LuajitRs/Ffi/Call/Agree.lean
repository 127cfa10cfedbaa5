import LuajitRs.Ffi.Call
import LuajitRs.Lib.Ensures
import LuajitRs.Util.F64.Convert

/-! Foreign calls in the two tiers: for which prototypes and arguments a trace makes the call of the interpreter and
reads the result registers as it does. -/
namespace LuajitRs.Ffi
open Lib.Bytes

/-! ### The type code -/

section TypeCode
variable (cts : CTState)

theorem paramKind_cases (p : ℕ) : cts.paramKind p = 1 ∨ cts.paramKind p = 2 ∨ cts.paramKind p = 3 := by
  unfold CTState.paramKind
  split
  · exact .inr (.inr rfl)
  · split
    · exact .inl rfl
    · exact .inr (.inl rfl)

/-- A type that takes an address is no floating-point type. -/
theorem ctypeIsFp_ptr {p : ℕ} (h : cts.isPtrParam p = true) : cts.ctypeIsFp p = false := by
  have hkind : ctypeIsNum (cts.raw p).info = false ∧ ctypeIsArray (cts.raw p).info = false := by
    rw [CTState.isPtrParam, ctypeIsPtr, ctypeIsFunc, Bool.or_eq_true, decide_eq_true_eq, decide_eq_true_eq] at h
    cases h with
    | inl h => rw [ctypeIsNum, ctypeIsArray, h]; decide
    | inr h => rw [ctypeIsNum, ctypeIsArray, h]; decide
  rw [CTState.ctypeIsFp]
  cases cts.tab.length with
  | zero => rfl
  | succ n =>
    rw [CTState.isFpFrom, hkind.1, hkind.2]
    rfl

theorem paramKind_eq_one {p : ℕ} : cts.paramKind p = 1 ↔ cts.ctypeIsFp p = true := by
  unfold CTState.paramKind
  by_cases hp : cts.isPtrParam p
  · rw [if_pos hp, ctypeIsFp_ptr cts hp]
    decide
  · rw [if_neg hp]
    cases cts.ctypeIsFp p <;> decide

/-- The kind that the code has for a parameter, zero when there is none. -/
def kindAt (types : List ℕ) (i : ℕ) : ℕ := (types[i]?.map cts.paramKind).getD 0

theorem kindAt_lt (types : List ℕ) (i : ℕ) : kindAt cts types i < 4 := by
  rw [kindAt]
  cases types[i]? with
  | none => exact Nat.zero_lt_succ _
  | some p =>
    have hkind := paramKind_cases cts p
    rw [Option.map_some, Option.getD_some]
    omega

theorem decode_code : ∀ ret : Bool, ∀ k₀ < 4, ∀ k₁ < 4,
    let code := ret.toNat ||| k₀ <<< 2 ||| k₁ <<< 6
    (F64.ofNat code).asU64.toNat = code ∧ ffiParamKind code 0 = k₀ ∧ ffiParamKind code 1 = k₁ ∧
      (code &&& 1 ≠ 0 ↔ ret = true) := by
  decide

theorem ffiTypeCode_eq (fid : ℕ) : cts.ffiTypeCode fid =
    (cts.ctypeIsFp (cts.ccallRetType fid)).toNat ||| kindAt cts (cts.ccallParamTypes fid) 0 <<< 2 |||
      kindAt cts (cts.ccallParamTypes fid) 1 <<< 6 := by
  have hret : (if cts.ctypeIsFp (cts.ccallRetType fid) then 1 else 0) = (cts.ctypeIsFp (cts.ccallRetType fid)).toNat := by
    cases cts.ctypeIsFp (cts.ccallRetType fid) <;> rfl
  rw [CTState.ffiTypeCode, hret]
  match cts.ccallParamTypes fid with
  | [] => simp [kindAt]
  | [p] => simp [kindAt]
  | p :: q :: ps => simp [kindAt, List.zipIdx_cons]

/-- What the helper reads off the code. -/
theorem typeCode_spec (fid : ℕ) :
    let code := (F64.ofNat (cts.ffiTypeCode fid)).asU64.toNat
    ffiParamKind code 0 = kindAt cts (cts.ccallParamTypes fid) 0 ∧
      ffiParamKind code 1 = kindAt cts (cts.ccallParamTypes fid) 1 ∧
      (code &&& 1 ≠ 0 ↔ cts.ctypeIsFp (cts.ccallRetType fid) = true) := by
  have h := decode_code (cts.ctypeIsFp (cts.ccallRetType fid)) _ (kindAt_lt cts (cts.ccallParamTypes fid) 0) _
    (kindAt_lt cts (cts.ccallParamTypes fid) 1)
  rw [← ffiTypeCode_eq] at h
  dsimp only at h ⊢
  rw [h.1]
  exact h.2

end TypeCode

/-! ### Arguments -/

section Arguments
variable (host : Host)

/-- The address that an object stands for in a call is that of its own payload. -/
def Direct (a : ℕ) : Prop :=
  if ctypeIsPtr (host.cts.raw (host.heap.get a).ctypeid.toNat).info then
    (host.heap.get a).getPtr = host.heap.dataPtr a
  else
    ∃ off root, host.heap.resolvePtr a = .ok (off, root) ∧
      host.heap.dataPtr root + BitVec.ofInt 64 (max off 0) = host.heap.dataPtr a

theorem cdataArgAddr_eq (a : ℕ) : host.cdataArgAddr a = .ok (host.heap.dataPtr a) ↔ Direct host a := by
  rw [Host.cdataArgAddr, Direct]
  split
  · exact ⟨Except.ok.inj, congrArg Except.ok⟩
  · cases host.heap.resolvePtr a with
    | error f => simp
    | ok r =>
      constructor
      · exact fun h => ⟨r.1, r.2, rfl, Except.ok.inj h⟩
      · rintro ⟨off, root, hr, haddr⟩
        obtain rfl := Except.ok.inj hr
        exact congrArg Except.ok haddr

/-- Both callers pass the same for an argument of a declared parameter. -/
def SameArg (p : ℕ) (v : LuaValue) : Prop :=
  match v with
  | .num x => host.cts.ctypeIsFp p = true → (host.cts.raw p).size = 4 → x = .zero
  | .cdata a => Direct host a
  | _ => True

/-- The parameter type of an argument, if one is declared. -/
def marshalAt (types : List ℕ) (i : ℕ) (v : LuaValue) : Except FfiError (BitVec 64) :=
  match types[i]? with
  | some p => host.marshalDeclared p v
  | none => host.marshalExtra v

variable {host} {types : List ℕ} {i : ℕ} {v w : LuaValue} {x : BitVec 64}

theorem marshal_declared {p : ℕ} (h : host.marshal (host.cts.paramKind p) v = some x) :
    host.marshalDeclared p v = .ok x ↔ SameArg host p v := by
  unfold CTState.paramKind at h
  unfold Host.marshalDeclared
  by_cases hptr : host.cts.isPtrParam p
  · rw [if_pos hptr] at h ⊢
    cases v with
    | nil => exact ⟨fun _ => trivial, fun _ => congrArg Except.ok (Option.some.inj h)⟩
    | cdata a =>
      obtain rfl := Option.some.inj h
      exact cdataArgAddr_eq host a
    | _ => cases h
  · rw [if_neg hptr] at h
    rw [if_neg hptr]
    cases hfp : host.cts.ctypeIsFp p with
    | true =>
      rw [hfp] at h
      cases v with
      | num n =>
        obtain rfl := Option.some.inj h
        rw [SameArg, hfp]
        by_cases hsize : (host.cts.raw p).size = 4
        · simp [hsize, F64.asF32_eq_bits]
        · simp [hsize]
      | _ => cases h
    | false =>
      rw [hfp] at h
      cases v with
      | nil => exact ⟨fun _ => trivial, fun _ => congrArg Except.ok (Option.some.inj h)⟩
      | num n =>
        obtain rfl := Option.some.inj h
        rw [SameArg, hfp]
        simp
      | _ => cases h

theorem marshal_extra (h : host.marshal 0 v = some x) : host.marshalExtra v = .ok x := by
  cases v with
  | nil => exact congrArg Except.ok (Option.some.inj h)
  | num n => exact congrArg Except.ok (Option.some.inj h)
  | _ => cases h

/-- An argument that the helper accepts. -/
theorem marshalAt_eq (h : host.marshal (kindAt host.cts types i) v = some x) :
    marshalAt host types i v = .ok x ↔ ∀ p, types[i]? = some p → SameArg host p v := by
  rw [kindAt] at h
  rw [marshalAt]
  cases hp : types[i]? with
  | none =>
    rw [hp] at h
    exact ⟨fun _ _ hp => absurd hp (by simp), fun _ => marshal_extra h⟩
  | some p =>
    rw [hp] at h
    dsimp only
    rw [marshal_declared h]
    exact ⟨fun hs q hq => Option.some.inj hq ▸ hs, fun hs => hs p rfl⟩

theorem marshalArgs_cons (vs : List LuaValue) : host.marshalArgs types (v :: vs) = (do
    let x ← marshalAt host types 0 v
    return x :: (← host.marshalArgs types.tail vs)) := by
  cases types with
  | nil => rfl
  | cons p ps => rfl

theorem marshalArgs_one (l : List (BitVec 64)) : host.marshalArgs types [v] = .ok l ↔
    ∃ x, marshalAt host types 0 v = .ok x ∧ l = [x] := by
  rw [marshalArgs_cons, Lib.bind_eq_ok]
  exact exists_congr fun x => and_congr_right fun _ => ⟨fun h => (Except.ok.inj h).symm, fun h => congrArg Except.ok h.symm⟩

theorem marshalArgs_two (l : List (BitVec 64)) : host.marshalArgs types [v, w] = .ok l ↔
    ∃ x y, marshalAt host types 0 v = .ok x ∧ marshalAt host types 1 w = .ok y ∧ l = [x, y] := by
  have htail : marshalAt host types.tail 0 w = marshalAt host types 1 w := by
    rw [marshalAt, marshalAt, List.getElem?_tail]
  rw [marshalArgs_cons, Lib.bind_eq_ok]
  refine exists_congr fun x => ?_
  rw [Lib.bind_eq_ok]
  constructor
  · rintro ⟨hx, l', hl', hl⟩
    obtain ⟨y, hy, rfl⟩ := (marshalArgs_one l').mp hl'
    exact ⟨y, hx, htail ▸ hy, (Except.ok.inj hl).symm⟩
  · rintro ⟨y, hx, hy, rfl⟩
    exact ⟨hx, [y], (marshalArgs_one [y]).mpr ⟨y, htail ▸ hy, rfl⟩, rfl⟩

end Arguments

/-! ### Results -/

section Results
variable (cts : CTState)

/-- What a trace makes of the result registers. -/
def jitResult (retFp : Bool) (r : CRet) : CResult :=
  .value (if retFp then numberRaw r.xmm0 else .number (.ofInt64 r.rax))

/-- A floating-point result has eight bytes; any other is no truth value, no pointer, and no integer of a width that
C has. -/
def SameResult (ret : ℕ) : Prop :=
  let raw := cts.raw ret
  if cts.ctypeIsFp ret then Ffi.ctypeIsFp raw.info = true ∧ raw.size ≠ 4
  else Ffi.ctypeIsFp raw.info = false ∧ raw.info &&& CTInfo.BOOL = 0 ∧
    (ctypeIsPtr raw.info || ctypeIsFunc raw.info) = false ∧ raw.size ∉ [1, 2, 4, 8]

/-- An object or a truth value is no number. -/
theorem object_ne {retFp : Bool} {r : CRet} {id : ℕ} {d : List UInt8} : CResult.object id d ≠ jitResult retFp r := nofun

theorem bool_ne {retFp : Bool} {r : CRet} {b : Bool} : CResult.value (.bool b) ≠ jitResult retFp r := by
  intro h
  cases retFp <;> cases CResult.value.inj h

variable {ret : ℕ}

theorem encode_fp_ne (h : ¬ (ctypeIsFp (cts.raw ret).info = true ∧ (cts.raw ret).size ≠ 4)) :
    encodeFfiResult cts (some ret) 1 ≠ jitResult true ⟨0, 1⟩ := by
  unfold encodeFfiResult
  dsimp only
  by_cases hisfp : ctypeIsFp (cts.raw ret).info = true
  · rw [if_pos hisfp, if_pos (by by_contra hsize; exact h ⟨hisfp, hsize⟩)]
    decide
  · rw [if_neg hisfp]
    split_ifs
    · exact bool_ne
    · exact object_ne
    · exact object_ne
    · exact object_ne
    all_goals decide

theorem encode_int_ne (h : ¬ (ctypeIsFp (cts.raw ret).info = false ∧ (cts.raw ret).info &&& CTInfo.BOOL = 0 ∧
      (ctypeIsPtr (cts.raw ret).info || ctypeIsFunc (cts.raw ret).info) = false ∧ (cts.raw ret).size ∉ [1, 2, 4, 8])) :
    encodeFfiResult cts (some ret) (2^32) ≠ jitResult false ⟨2^32, 0⟩ := by
  unfold encodeFfiResult
  dsimp only
  split_ifs with hisfp hsize hbool hptr hsize hsign hsize hsize hsize
  · decide
  · decide
  · exact bool_ne
  · exact object_ne
  · exact object_ne
  · exact object_ne
  · decide
  · decide
  · decide
  · refine absurd ⟨Bool.not_eq_true _ ▸ hisfp, not_not.mp hbool, Bool.not_eq_true _ ▸ hptr, ?_⟩ h
    simp_all

/-- A trace reads the result registers as the interpreter does, whatever they hold. -/
theorem encode_agree (ret : ℕ) :
    (∀ r, (jitResult (cts.ctypeIsFp ret) r).isNil = false →
      encodeFfiResult cts (some ret) (r.bits (cts.ctypeIsFp ret)) = jitResult (cts.ctypeIsFp ret) r) ↔
    SameResult cts ret := by
  rw [SameResult]
  cases cts.ctypeIsFp ret with
  | true =>
    constructor
    · intro h
      by_contra hne
      exact encode_fp_ne cts hne (h ⟨0, 1⟩ (by decide))
    · rintro ⟨hisfp, hsize⟩ r -
      unfold encodeFfiResult
      dsimp only
      rw [if_pos hisfp, if_neg hsize]
      rfl
  | false =>
    constructor
    · intro h
      by_contra hne
      exact encode_int_ne cts hne (h ⟨2^32, 0⟩ (by decide))
    · rintro ⟨hisfp, hbool, hptr, hsize⟩ r -
      unfold encodeFfiResult
      dsimp only
      rw [hisfp, hbool, hptr]
      simp_all [jitResult, CRet.bits]

end Results

/-! ### The calls -/

section Calls
variable (host : Host) (fid : ℕ) (a1 : LuaValue) (a2 : Option LuaValue)

/-- Which declared parameters are floating-point numbers. -/
def paramFps : List Bool := (host.cts.ccallParamTypes fid).map host.cts.ctypeIsFp

/-- A call of one or two arguments that the helper makes is the call of the interpreter: the C function finds the
same in the registers of its parameters, and whatever it leaves in the result registers becomes the same value. -/
def Agrees : Prop :=
  ∀ o, host.jitFfiCall (.ofNat (host.cts.ffiTypeCode fid)) a1 (a2.getD .nil) = some o →
    ∃ o', host.ffiCallTyped (some fid) (a1 :: a2.toList) = .ok o' ∧
      handed (paramFps host fid) o'.call = handed (paramFps host fid) o.call ∧
      ∀ r, (o.encode r).isNil = false → o'.encode r = o.encode r

/-- The prototypes and arguments that the code of the helper describes well enough. -/
structure Matches : Prop where
  /-- The mask of the interpreter has a bit for each floating-point parameter. -/
  mask : ∀ k ∈ (paramFps host fid).drop 64, k = false
  shape : SameShape (paramFps host fid) (a1 :: a2.toList).length
  args : ∀ (i p : ℕ) (v : LuaValue), (host.cts.ccallParamTypes fid)[i]? = some p → (a1 :: a2.toList)[i]? = some v → SameArg host p v
  result : SameResult host.cts (host.cts.ccallRetType fid)

variable {host fid a1 a2}

theorem ffiCallTyped_ok {args : List LuaValue} {o : Outcome} : host.ffiCallTyped (some fid) args = .ok o ↔
    ∃ l, host.marshalArgs (host.cts.ccallParamTypes fid) args = .ok l ∧ (∀ k ∈ (paramFps host fid).drop 64, k = false) ∧
      o = ⟨ffiCallDispatch l (Host.argFp (paramFps host fid)), fun r =>
        encodeFfiResult host.cts (some (host.cts.ccallRetType fid))
          (r.bits (host.cts.ctypeIsFp (host.cts.ccallRetType fid)))⟩ := by
  have hany : ((paramFps host fid).drop 64).any id = true ↔ ¬ ∀ k ∈ (paramFps host fid).drop 64, k = false := by
    simp [List.any_eq_true]
  unfold Host.ffiCallTyped
  rw [Lib.bind_eq_ok]
  refine exists_congr fun l => and_congr_right fun _ => ?_
  by_cases hmask : ∀ k ∈ (paramFps host fid).drop 64, k = false
  · have hnone : ((paramFps host fid).drop 64).any id = false := Bool.not_eq_true _ ▸ hany.not.mpr (not_not.mpr hmask)
    simp only [Option.map_some, Option.getD_some]
    rw [paramFps] at hnone hmask
    rw [hnone]
    exact ⟨fun h => ⟨hmask, (Except.ok.inj h).symm⟩, fun h => congrArg Except.ok h.2.symm⟩
  · have hsome := hany.mpr hmask
    simp only [Option.map_some, Option.getD_some]
    rw [paramFps] at hsome
    rw [hsome]
    exact ⟨nofun, fun h => absurd h.1 hmask⟩

theorem getD_map_fp (types : List ℕ) (i : ℕ) :
    (kindAt host.cts types i == 1) = ((types.map host.cts.ctypeIsFp)[i]?.getD false) := by
  rw [kindAt, List.getElem?_map]
  cases types[i]? with
  | none => rfl
  | some p =>
    apply Bool.eq_iff_iff.mpr
    rw [beq_iff_eq]
    exact paramKind_eq_one host.cts

/-- The call of the helper in terms of the prototype. -/
theorem jitFfiCall_eq (w : LuaValue) : host.jitFfiCall (.ofNat (host.cts.ffiTypeCode fid)) a1 w = (do
    let x ← host.marshal (kindAt host.cts (host.cts.ccallParamTypes fid) 0) a1
    let y ← host.marshal (kindAt host.cts (host.cts.ccallParamTypes fid) 1) w
    return ⟨front x y ((paramFps host fid)[0]?.getD false) ((paramFps host fid)[1]?.getD false) 0,
      jitResult (host.cts.ctypeIsFp (host.cts.ccallRetType fid))⟩) := by
  have hcode := typeCode_spec host.cts fid
  dsimp only at hcode
  unfold Host.jitFfiCall
  dsimp only
  rw [hcode.1, hcode.2.1, getD_map_fp, getD_map_fp]
  refine Option.bind_congr fun x _ => Option.bind_congr fun y _ => ?_
  have hcall := dispatch_two x y ((paramFps host fid)[0]?.getD false) ((paramFps host fid)[1]?.getD false) []
  have hresult : (fun r : CRet => CResult.value
      (if (F64.ofNat (host.cts.ffiTypeCode fid)).asU64.toNat &&& 1 ≠ 0 then numberRaw r.xmm0
        else .number (.ofInt64 r.rax))) = jitResult (host.cts.ctypeIsFp (host.cts.ccallRetType fid)) := by
    funext r
    rw [jitResult]
    simp only [hcode.2.2]
  rw [hresult, ← paramFps]
  exact congrArg (fun c => some (Outcome.mk c _)) hcall

/-- The helper accepts the arguments. -/
theorem jitFfiCall_some {w : LuaValue} {o : Outcome} : host.jitFfiCall (.ofNat (host.cts.ffiTypeCode fid)) a1 w = some o ↔
    ∃ x y, host.marshal (kindAt host.cts (host.cts.ccallParamTypes fid) 0) a1 = some x ∧
      host.marshal (kindAt host.cts (host.cts.ccallParamTypes fid) 1) w = some y ∧
      o = ⟨front x y ((paramFps host fid)[0]?.getD false) ((paramFps host fid)[1]?.getD false) 0,
        jitResult (host.cts.ctypeIsFp (host.cts.ccallRetType fid))⟩ := by
  rw [jitFfiCall_eq]
  simp only [bind, Option.bind_eq_some_iff, pure, Option.some.injEq]
  constructor
  · rintro ⟨x, hx, y, hy, rfl⟩
    exact ⟨x, y, hx, hy, rfl⟩
  · rintro ⟨x, y, hx, hy, rfl⟩
    exact ⟨x, hx, y, hy, rfl⟩

/-- A missing second argument is a zero, and its parameter is no floating-point number. -/
theorem marshal_nil {types : List ℕ} {i : ℕ} {y : BitVec 64} (h : host.marshal (kindAt host.cts types i) .nil = some y) :
    y = 0 ∧ (types.map host.cts.ctypeIsFp)[i]?.getD false = false := by
  rw [← getD_map_fp]
  generalize kindAt host.cts types i = k at h
  unfold Host.marshal at h
  split at h
  · cases h
  · exact ⟨(Option.some.inj h).symm, rfl⟩
  · next hne _ => exact ⟨(Option.some.inj h).symm, beq_eq_false_iff_ne.mpr hne⟩

theorem sameArg_of_eq {types : List ℕ} {i : ℕ} {v : LuaValue} {x x' : BitVec 64}
    (hx : host.marshal (kindAt host.cts types i) v = some x) (hx' : marshalAt host types i v = .ok x')
    (heq : i < types.length → x' = x) {p : ℕ} (hp : types[i]? = some p) : SameArg host p v := by
  obtain rfl := heq (List.getElem?_eq_some_iff.mp hp).1
  exact (marshalAt_eq hx).mp hx' p hp

/-- For whatever one or two arguments the helper makes its call, it is the call of the interpreter exactly for the
prototypes and arguments that its code describes. -/
theorem jitFfiCall_agrees (hacc : (host.jitFfiCall (.ofNat (host.cts.ffiTypeCode fid)) a1 (a2.getD .nil)).isSome) :
    Agrees host fid a1 a2 ↔ Matches host fid a1 a2 := by
  obtain ⟨o, ho⟩ := Option.isSome_iff_exists.mp hacc
  obtain ⟨x, y, hx, hy, rfl⟩ := jitFfiCall_some.mp ho
  have hlen : (paramFps host fid).length = (host.cts.ccallParamTypes fid).length := List.length_map _
  cases a2 with
  | none =>
    obtain ⟨rfl, hsecond⟩ := marshal_nil hy
    have hfps : (paramFps host fid)[1]?.getD false = false := hsecond
    constructor
    · intro h
      obtain ⟨o', ho', hregs, henc⟩ := h _ ho
      obtain ⟨l, hl, hmask, rfl⟩ := ffiCallTyped_ok.mp ho'
      obtain ⟨x', hx', rfl⟩ := (marshalArgs_one l).mp hl
      dsimp only at hregs henc
      rw [hfps, handed_single _ hfps] at hregs
      refine ⟨hmask, hregs.1, ?_, (encode_agree _ _).mp henc⟩
      intro i p v hp hv
      cases i with
      | zero =>
        obtain rfl := Option.some.inj hv
        exact sameArg_of_eq hx hx' (hlen ▸ hregs.2) hp
      | succ i => cases hv
    · intro h o ho'
      obtain rfl := Option.some.inj (ho.symm.trans ho')
      have hx' := (marshalAt_eq hx).mpr fun p hp => h.args 0 p a1 hp rfl
      refine ⟨_, ffiCallTyped_ok.mpr ⟨[x], (marshalArgs_one [x]).mpr ⟨x, hx', rfl⟩, h.mask, rfl⟩, ?_, ?_⟩
      · dsimp only
        rw [hfps]
        exact (handed_single _ hfps).mpr ⟨h.shape, fun _ => rfl⟩
      · exact (encode_agree _ _).mpr h.result
  | some w =>
    constructor
    · intro h
      obtain ⟨o', ho', hregs, henc⟩ := h _ ho
      obtain ⟨l, hl, hmask, rfl⟩ := ffiCallTyped_ok.mp ho'
      obtain ⟨x', y', hx', hy', rfl⟩ := (marshalArgs_two l).mp hl
      dsimp only at hregs henc
      rw [handed_pair] at hregs
      refine ⟨hmask, hregs.1, ?_, (encode_agree _ _).mp henc⟩
      intro i p v hp hv
      match i with
      | 0 =>
        obtain rfl := Option.some.inj hv
        exact sameArg_of_eq hx hx' (hlen ▸ hregs.2.1) hp
      | 1 =>
        obtain rfl := Option.some.inj hv
        exact sameArg_of_eq hy hy' (hlen ▸ hregs.2.2) hp
      | i + 2 => cases hv
    · intro h o ho'
      obtain rfl := Option.some.inj (ho.symm.trans ho')
      have hx' := (marshalAt_eq hx).mpr fun p hp => h.args 0 p a1 hp rfl
      have hy' := (marshalAt_eq hy).mpr fun p hp => h.args 1 p w hp rfl
      refine ⟨_, ffiCallTyped_ok.mpr ⟨[x, y], (marshalArgs_two [x, y]).mpr ⟨x, y, hx', hy', rfl⟩, h.mask, rfl⟩, ?_, ?_⟩
      · exact (handed_pair _).mpr ⟨h.shape, fun _ => rfl, fun _ => rfl⟩
      · exact (encode_agree _ _).mpr h.result

end Calls

/-! ### Two prototypes -/

/-- A library of one function, with a parameter and a result of the same type. -/
def unary (t : ℕ) : Host where
  cts := { CTState.new with tab := predefined ++
    [⟨ctInfo .field 0 ||| BitVec.ofNat 32 t, 0, 0⟩, ⟨ctInfo .func 0 ||| BitVec.ofNat 32 t, 0, 26⟩] }
  heap := ⟨[], fun _ => 0, CDataHeap.base_lt_nil⟩
  cstring _ := none
  callback _ _ := .ok 0

/-- `double f(double)`. -/
theorem jitFfiCall_agrees_double : Agrees (unary CTypeID.double) 27 (.num (.ofInt 3)) none := by
  have htypes : (unary CTypeID.double).cts.ccallParamTypes 27 = [CTypeID.double] := by decide
  have hfps : paramFps (unary CTypeID.double) 27 = [true] := by decide
  refine (jitFfiCall_agrees (by decide)).mpr ⟨?_, ?_, ?_, ?_⟩
  · rw [hfps]
    decide
  · rw [hfps]
    exact sameShape_single 1 (.inl rfl)
  · intro i p v hp hv
    rw [htypes] at hp
    cases i with
    | zero =>
      obtain rfl := Option.some.inj hp
      obtain rfl := Option.some.inj hv
      exact fun _ hsize => absurd hsize (by decide)
    | succ i => cases hv
  · rw [SameResult]
    decide

/-- `int f(int)` that returns -1: the upper half of the result register is not part of an `int`. -/
theorem jitFfiCall_disagrees_int : ¬ ∀ host fid a1 a2, Agrees host fid a1 a2 := by
  intro h
  obtain ⟨o, ho, -, henc⟩ := h (unary CTypeID.int32) 27 (.num (.ofInt 3)) none _ rfl
  obtain rfl := Except.ok.inj ho
  exact absurd (henc ⟨0xffffffff, 0⟩ (by decide)) (by decide)

end LuajitRs.Ffi
