import LuajitRs.Ffi.Access.Owned
import LuajitRs.Ffi.Store.Law

/-! The store/load law for the members of structs, and for all parts of an object. -/
namespace LuajitRs.Ffi
open Lib Lib.Bytes FfiState

/-- The value of a member at a position. -/
def memberValue (id : ℕ) (isFp : Bool) (sz : ℕ) (d : List UInt8) (a : ℕ) : Except Fault Val :=
  if (id = CTypeID.int64 ∨ id = CTypeID.uint64) ∧ sz = 8 then .ok (.obj ⟨.ofNat id, window d a 8, none, 0⟩)
  else (scalarAt d isFp a sz).map fun x => .num x.normalize

/-! ### The value of a member -/

section Value
variable {id base a w n k : ℕ} {isFp signed : Bool} {sz : ℕ} {d bs : List UInt8} {x : F64} {sc : Scalar}

theorem window_splice_before (h : a + bs.length ≤ d.length) (hk : k + n ≤ a) :
    window (splice d a bs) k n = window d k n := by
  have ha : (d.take a).length = a := List.length_take_of_le (by omega)
  rw [window, splice, List.append_assoc, List.drop_append_of_le_length (by omega), List.take_append_of_le_length,
    List.drop_take, List.take_take, Nat.min_eq_left (by omega)]
  · rfl
  · rw [List.length_drop, ha]
    omega

/-- A member below 4 GiB is read from its own bytes, and so is a float. -/
theorem scalarAt_near (hfit : a + sz ≤ d.length) (h : isFp = true ∧ (sz = 8 ∨ sz = 4) ∨ a < 2^32) :
    scalarAt d isFp a sz = scalarAt (window d a sz) isFp 0 sz := by
  have hlen : (window d a sz).length = sz := length_window hfit
  have hslice : ∀ {n : ℕ}, sz = n → slice d a n = slice (window d a sz) 0 n := by
    rintro n rfl
    rw [slice_all hlen, slice, if_pos hfit]
  unfold scalarAt
  by_cases h8 : isFp = true ∧ sz = 8
  · have hcond : (isFp && decide (sz = 8)) = true := by simpa using h8
    rw [if_pos hcond, if_pos hcond, hslice h8.2]
  · have hcond : ¬ (isFp && decide (sz = 8)) = true := by simpa using h8
    rw [if_neg hcond, if_neg hcond]
    by_cases h4 : isFp = true ∧ sz = 4
    · have hcond : (isFp && decide (sz = 4)) = true := by simpa using h4
      rw [if_pos hcond, if_pos hcond, hslice h4.2]
    · have ha : a % 2^32 = a := by
        refine Nat.mod_eq_of_lt (h.resolve_left ?_)
        rintro ⟨hfp, h | h⟩
        · exact h8 ⟨hfp, h⟩
        · exact h4 ⟨hfp, h⟩
      have hcond : ¬ (isFp && decide (sz = 4)) = true := by simpa using h4
      rw [if_neg hcond, if_neg hcond, ha, Nat.zero_mod]
      unfold readFieldFromSlice
      split
      · next h => rw [hslice h]
      · split
        · next h => rw [hslice h]
        · split
          · next h => rw [hslice h]
          · split
            · next h => rw [hslice h]
            · rfl

theorem memberValue_near (hfit : a + sz ≤ d.length) (h : isFp = true ∧ (sz = 8 ∨ sz = 4) ∨ a < 2^32) :
    memberValue id isFp sz d a = fieldValue id isFp sz (window d a sz) := by
  unfold memberValue fieldValue
  split
  · next hw => rw [hw.2]
  · rw [scalarAt_near hfit h]

theorem memberValue_wide (h : id = CTypeID.int64 ∨ id = CTypeID.uint64) :
    memberValue id isFp 8 d a = fieldValue id isFp 8 (window d a 8) := by
  rw [memberValue, fieldValue, if_pos ⟨h, rfl⟩, if_pos ⟨h, rfl⟩]

theorem memberValue_int128 : memberValue id false 16 d a = fieldValue id false 16 (window d a 16) := by
  have hno : ¬ ((id = CTypeID.int64 ∨ id = CTypeID.uint64) ∧ 16 = 8) := by omega
  rw [memberValue, fieldValue, if_neg hno, if_neg hno]
  rfl

/-- A member that is read as a number never shows as an object. -/
theorem memberValue_number (h : ¬ (id = CTypeID.int64 ∨ id = CTypeID.uint64)) :
    ¬ Returned id (memberValue id isFp sz d a) (.exact bs) := by
  rw [memberValue, if_neg fun hw => h hw.1]
  rintro ⟨v, hv, hshow⟩
  cases hx : scalarAt d isFp a sz with
  | error f =>
    rw [hx] at hv
    exact absurd hv (by simp [Except.map])
  | ok y =>
    rw [hx] at hv
    rw [← Except.ok.inj hv] at hshow
    exact hshow

theorem scalarAt_ok (hfit : a + sz ≤ d.length) : ∃ y, scalarAt d isFp a sz = .ok y := by
  have hmod : a % 2^32 ≤ a := Nat.mod_le ..
  have hslice : ∀ {b n : ℕ} {f : List UInt8 → F64}, b + n ≤ d.length →
      ∃ y, (do return f (← slice d b n) : Except Fault F64) = .ok y := by
    intro b n f hn
    exact ⟨_, by rw [slice, if_pos hn]; rfl⟩
  unfold scalarAt readFieldFromSlice
  refine ite_ok (fun h => hslice ?_) fun _ => ite_ok (fun h => hslice ?_) fun _ => ite_ok (fun h => hslice ?_) fun _ =>
    ite_ok (fun h => hslice ?_) fun _ => ite_ok (fun h => hslice ?_) fun _ => ite_ok (fun h => hslice ?_) fun _ => ⟨_, rfl⟩
  · have hsz : isFp = true ∧ sz = 8 := by simpa using h
    omega
  · have hsz : isFp = true ∧ sz = 4 := by simpa using h
    omega
  · omega
  · omega
  · omega
  · omega

/-- A small integer behind 4 GiB is read from elsewhere. -/
theorem memberValue_far (hw : w = 1 ∨ w = 2 ∨ w = 4) (hfit : a + w ≤ d.length) :
    Returned id (memberValue id false w d a) ((Scalar.int signed w).convert x) ↔
      residue true w (ofLE (window d (a % 2^32) w)) = residue signed w x.trunc := by
  have hle : w ≤ 4 := by omega
  have hmod : a % 2^32 ≤ a := Nat.mod_le ..
  have hread : scalarAt d false a w = readFieldFromSlice d (a % 2^32) w := rfl
  rw [memberValue, if_neg (by omega), hread, readFieldFromSlice_small hw (by omega), convert_small hle]
  exact returned_ok.trans (normalize_ofInt_inj (natAbs_residue hle) (natAbs_residue hle))

end Value

namespace FfiState
variable {s : FfiState} {cd id off k a : ℕ} {sc : Scalar} {x : F64}

/-! ### Where a member lies -/

theorem struct_kind {info : CTInfo} (h : ctypeIsStruct info = true) :
    ctypeIsPtr info = false ∧ ctypeIsPointer info = false ∧ ctypeIsComplex info = false ∧ ctypeIsFunc info = false := by
  have hstruct : ctypeType info = .struct := of_decide_eq_true h
  have harray : ctypeIsArray info = false := by rw [ctypeIsArray, hstruct]; rfl
  have hptr : ctypeIsPtr info = false := by rw [ctypeIsPtr, hstruct]; rfl
  refine ⟨hptr, by rw [ctypeIsPointer, hptr, harray]; rfl, ?_, by rw [ctypeIsFunc, hstruct]; rfl⟩
  cases hc : ctypeIsComplex info with
  | false => rfl
  | true => exact absurd (isArray_of_isComplex hc) (by rw [harray]; decide)

theorem complexPart_none {raw : CType} {name : String} (h : ctypeIsComplex raw.info = false) :
    s.cts.complexPart raw name = none := by
  unfold CTState.complexPart
  rw [h]
  exact if_neg Bool.false_ne_true

theorem resolvePtr_exact (h : s.heap.Resolves cd) : s.heap.resolvePtr cd = .ok (s.heap.locate cd) := by
  have hret : Returns (s.heap.resolvePtr cd) (· = s.heap.locate cd) := (CDataHeap.returns_resolvePtr s.heap).mpr ⟨h, rfl⟩
  obtain ⟨r, hr, rfl⟩ := Ensures.none_iff.mp hret
  exact hr

theorem fieldAt_exact {boff : ℤ} {n len : ℕ} (hlen : len < 2^63) (ha : (a : ℤ) = boff + off) (hfit : a + n ≤ len) :
    fieldAt boff off n len = .ok (some a) := by
  have hindex : index (boff + off) n len = some a := by
    rw [← ha, index, if_pos ⟨by omega, by exact_mod_cast hfit⟩, Int.toNat_natCast]
  have hret : Returns (fieldAt boff off n len) (· = some a) :=
    (returns_fieldAt hlen).mpr ⟨⟨by omega, by omega⟩, ⟨fun _ => by omega, fun _ => by omega⟩, hindex⟩
  obtain ⟨r, hr, rfl⟩ := Ensures.none_iff.mp hret
  exact hr

/-! ### Members -/

section Member
variable (hstruct : ctypeIsStruct (s.rawOf cd).info = true) (hsc : scalarOf (s.cts.resolveRawId id) = some sc)
  (hoff : s.cts.fieldOffset (s.typeOf cd) (s.text k) = .ok (some (id, off)))
include hstruct hsc hoff

theorem cdataNewindex_member :
    s.cdataNewindex cd (.str k) (.num x) = lift (s.putField cd off sc.size (stored id sc.size x)) := by
  obtain ⟨-, hpointer, hcomplex, -⟩ := struct_kind hstruct
  obtain ⟨hsize, -, hc, hptr, -⟩ := scalar_entry hsc
  have helem : s.elemTypeId cd = s.typeOf cd := by rw [elemTypeId, hpointer]; rfl
  have hpart : s.cts.complexPart (s.cts.raw (s.typeOf cd)) (s.text k) = none := complexPart_none hcomplex
  have hmax : max sc.size 1 = sc.size := Nat.max_eq_left (size_pos hsc)
  have hbytes : s.fieldBytes id (.num x) = stored id sc.size x := by
    rw [fieldBytes, hsize, hmax]
    rfl
  have hwrite : s.writeField cd id off (.num x) none = s.putField cd off sc.size (stored id sc.size x) := by
    unfold writeField
    dsimp only
    rw [hptr, hpointer, hsize, hmax, hbytes]
    rfl
  have hfield : s.newindexField cd (s.text k) (.num x) = lift (s.writeField cd id off (.num x) none) := by
    unfold newindexField
    dsimp only
    rw [helem, hpart, hoff]
    have hok : lift (.ok (some (id, off)) : Except Fault (Option (ℕ × ℕ))) = .ok (some (id, off)) := rfl
    have haddr : lift (s.valueAddr (.num x)) = .ok none := rfl
    rw [hok, ok_bind]
    dsimp only
    rw [hc, if_neg Bool.false_ne_true, haddr, ok_bind]
  rw [← hwrite, ← hfield]
  rfl

theorem cdataIndex_member (hres : s.heap.Resolves cd) (ha : (a : ℤ) = (s.heap.locate cd).1 + off)
    (hfit : a + sc.size ≤ (s.payload (s.heap.locate cd).2).length) :
    ∃ rs, s.cdataIndex cd (.str k) =
      lift ((memberValue id sc.isFp sc.size (s.payload (s.heap.locate cd).2) a).map fun v => (v, rs)) := by
  obtain ⟨hnptr, hpointer, hcomplex, hfunc⟩ := struct_kind hstruct
  obtain ⟨hsize, hnum, -, -, hfp⟩ := scalar_entry hsc
  have helem : s.elemTypeId cd = s.typeOf cd := by rw [elemTypeId, hpointer]; rfl
  have hpart : s.cts.complexPart (s.rawOf cd) (s.text k) = none := complexPart_none hcomplex
  have hmethod : s.isFuncPtrType (s.typeOf cd) = false := by
    have hfunc' : ctypeIsFunc (s.cts.raw (s.typeOf cd)).info = false := hfunc
    have hnptr' : ctypeIsPtr (s.cts.raw (s.typeOf cd)).info = false := hnptr
    rw [isFuncPtrType, Host.funcCtypeOf, hfunc', hnptr']
    rfl
  have hindex : s.cdataIndex cd (.str k) = lift (s.readField cd false id off) := by
    have hok : lift (.ok (some (id, off)) : Except Fault (Option (ℕ × ℕ))) = .ok (some (id, off)) := rfl
    have hfield : s.indexField cd (s.text k) = lift (s.readField cd false id off) := by
      unfold indexField
      dsimp only
      rw [hmethod, hpart, helem, hoff, hpointer]
      dsimp only
      rw [Bool.false_and, if_neg Bool.false_ne_true, hok, ok_bind]
    exact hfield
  have hscalar : ctypeIsScalar (s.cts.raw id).info = true := by
    have hnum' : ctypeType (s.cts.raw id).info = .num := of_decide_eq_true hnum
    rw [ctypeIsScalar, hnum']
    rfl
  have hlen := s.payload_lt (s.heap.locate cd).2
  have hread : s.readField cd false id off =
      (s.scalarField cd false off sc.isFp sc.size >>= fun r => s.wideField cd id off sc.size r.1 r.2) := by
    unfold readField
    dsimp only
    rw [hscalar, hsize, hfp]
    rfl
  have hfieldAt : fieldAt (s.heap.locate cd).1 off sc.size (s.payload (s.heap.locate cd).2).length = .ok (some a) :=
    fieldAt_exact hlen ha hfit
  obtain ⟨y, hy⟩ : ∃ y, scalarAt (s.payload (s.heap.locate cd).2) sc.isFp a sc.size = .ok y := scalarAt_ok hfit
  have hfound : s.scalarField cd false off sc.isFp sc.size =
      .ok (y, scalarTouch (s.heap.locate cd).2 sc.isFp a sc.size) := by
    rw [scalarField, if_neg Bool.false_ne_true, storedScalar, resolvePtr_exact hres, ok_bind, hfieldAt, ok_bind]
    dsimp only
    rw [hy]
    rfl
  rw [hindex, hread, hfound, ok_bind]
  dsimp only
  by_cases hw : (id = CTypeID.int64 ∨ id = CTypeID.uint64) ∧ sc.size = 8
  · have hcond : ((decide (id = CTypeID.int64) || decide (id = CTypeID.uint64)) && decide (sc.size = 8)) = true := by
      simpa using hw
    have h8 : fieldAt (s.heap.locate cd).1 off 8 (s.payload (s.heap.locate cd).2).length = .ok (some a) := hw.2 ▸ hfieldAt
    refine ⟨scalarTouch (s.heap.locate cd).2 sc.isFp a sc.size ++ [.read (.payload (s.heap.locate cd).2 a) 8], ?_⟩
    rw [wideField, if_pos hcond, memberValue, if_pos hw, resolvePtr_exact hres, ok_bind, h8, ok_bind]
    rfl
  · have hcond : ¬ ((decide (id = CTypeID.int64) || decide (id = CTypeID.uint64)) && decide (sc.size = 8)) = true := by
      simpa using hw
    refine ⟨scalarTouch (s.heap.locate cd).2 sc.isFp a sc.size, ?_⟩
    rw [wideField, if_neg hcond, memberValue, if_neg hw, hy]
    rfl

end Member

/-- The values of a member after a store of its bytes. -/
theorem memberValue_iff {base : ℕ} {d bs : List UInt8} (hx : x.isNaN = false) (hsc : scalarOf base = some sc)
    (hname : id = base ∨ scalarOf id = none) (hbs : stored id sc.size x = bs) (hfit : a + sc.size ≤ d.length) :
    Returned id (memberValue id sc.isFp sc.size (splice d a bs) a) (sc.convert x) ↔ MemberExact (id = base) d a x sc := by
  have hlen : bs.length = sc.size := hbs ▸ length_stored
  have hfit' : a + bs.length ≤ d.length := by rw [hlen]; exact hfit
  have hsplice : a + sc.size ≤ (splice d a bs).length := by rw [length_splice hfit']; exact hfit
  have hwindow : window (splice d a bs) a sc.size = stored id sc.size x := by
    rw [hbs, ← hlen]
    exact window_splice hfit'
  have hvalue := field_iff_exact hx hsc hname
  rw [← hwindow] at hvalue
  obtain rfl | rfl | rfl | ⟨signed, w, rfl, hw⟩ := scalar_width hsc
  · exact iff_of_false not_returned_bool False.elim
  · have hnear : memberValue id true 4 (splice d a bs) a = fieldValue id true 4 (window (splice d a bs) a 4) :=
      memberValue_near hsplice (.inl ⟨rfl, .inr rfl⟩)
    exact hnear ▸ hvalue
  · have hnear : memberValue id true 8 (splice d a bs) a = fieldValue id true 8 (window (splice d a bs) a 8) :=
      memberValue_near hsplice (.inl ⟨rfl, .inl rfl⟩)
    exact hnear ▸ hvalue
  · rw [MemberExact]
    by_cases hnear : a < 2^32
    · rw [if_neg (by omega), ← hvalue, memberValue_near hsplice (.inr hnear)]
    · rw [Scalar.size] at hfit hsplice hvalue hlen
      rw [Scalar.isFp] at hvalue
      rw [Scalar.size, Scalar.isFp]
      by_cases h16 : w = 16
      · subst h16
        rw [if_neg (by omega), ← hvalue, memberValue_int128]
      · by_cases h8 : w = 8
        · subst h8
          rw [if_neg (by omega)]
          by_cases hwide : id = CTypeID.int64 ∨ id = CTypeID.uint64
          · rw [← hvalue, memberValue_wide hwide]
          · refine iff_of_false (memberValue_number hwide) fun hexact => hwide ?_
            rw [FieldExact, if_neg (by decide), if_pos rfl] at hexact
            exact wide_id (hexact.1 ▸ hsc)
        · have hsmall : w = 1 ∨ w = 2 ∨ w = 4 := by omega
          have hmod : a % 2^32 + w ≤ a := by omega
          rw [if_pos ⟨by omega, by omega⟩, memberValue_far hsmall hsplice, window_splice_before hfit' hmod]

/-- The law for a member of a struct. -/
theorem member_law {key : LuaValue} (hname : s.Names cd key (.member id off))
    (hsc : scalarOf (s.cts.resolveRawId id) = some sc) (hx : x.isNaN = false)
    (hfits : s.Fits (s.heap.locate cd).2 ((s.heap.locate cd).1 + off) sc.size) :
    s.StoreLoad cd key (.member id off) sc x ↔ s.Stores cd (.member id off) sc x := by
  obtain ⟨hstruct, -, k, rfl, hoff⟩ := hname
  obtain ⟨a, ha⟩ := Int.eq_ofNat_of_zero_le hfits.1
  have hfit : a + sc.size ≤ (s.payload (s.heap.locate cd).2).length := by
    have hend := hfits.2
    omega
  have hpos : (s.partPos cd (.member id off)).toNat = a := by rw [partPos, ha]; rfl
  obtain ⟨bs, hbs⟩ : ∃ bs, stored id sc.size x = bs := ⟨_, rfl⟩
  have hlen : bs.length = sc.size := hbs ▸ length_stored
  have hfit' : a + bs.length ≤ (s.payload (s.heap.locate cd).2).length := by rw [hlen]; exact hfit
  have hput : s.cdataNewindex cd (.str k) (.num x) = lift (s.putField cd off sc.size bs) := by
    rw [cdataNewindex_member hstruct hsc hoff, hbs]
  have hexact : s.heap.Resolves cd → (s.StoreLoad cd (.str k) (.member id off) sc x ↔
      MemberExact (s.Direct cd (.member id off)) (s.payload (s.heap.locate cd).2) a x sc) := by
    intro hres
    have hnew : s.cdataNewindex cd (.str k) (.num x) = .ok [.write (.payload (s.heap.locate cd).2 a) bs] := by
      have hfound : fieldAt (s.heap.locate cd).1 off sc.size (s.payload (s.heap.locate cd).2).length = .ok (some a) :=
        fieldAt_exact (s.payload_lt _) ha.symm hfit
      rw [hput, putField, resolvePtr_exact hres, ok_bind, hfound]
      rfl
    obtain ⟨t, ht⟩ : ∃ t, s.store (s.heap.locate cd).2 a bs = t := ⟨_, rfl⟩
    have hlocate : t.heap.locate cd = s.heap.locate cd := by rw [← ht]; exact CDataHeap.locate_store
    have hread : ∃ rs, t.cdataIndex cd (.str k) = lift ((memberValue id sc.isFp sc.size
        (splice (s.payload (s.heap.locate cd).2) a bs) a).map fun v => (v, rs)) := by
      have hpayload : t.payload (t.heap.locate cd).2 = splice (s.payload (s.heap.locate cd).2) a bs := by
        rw [hlocate, ← ht, payload_store hfit']
      rw [← hpayload]
      refine cdataIndex_member ?_ ?_ ?_ ?_ (by rw [hlocate]; exact ha.symm) ?_
      · rw [← ht, rawOf_store]
        exact hstruct
      · rw [← ht]
        exact hsc
      · rw [← ht, typeOf_store]
        exact hoff
      · rw [← ht]
        exact CDataHeap.resolves_store.mpr hres
      · rw [hlocate, ← ht, length_payload_store]
        exact hfit
    obtain ⟨rs, hread⟩ := hread
    rw [StoreLoad, Direct, partType, ← memberValue_iff hx hsc scalar_name hbs hfit, ← shown_iff, ← hread]
    constructor
    · rintro ⟨ts, hts, hshow, -⟩
      rw [hnew] at hts
      rw [← Except.ok.inj hts, after, List.foldl_cons, List.foldl_nil, touch, ht] at hshow
      exact hshow
    · intro hshow
      refine ⟨_, hnew, ?_, fun obj k hk => ?_⟩
      · rw [after, List.foldl_cons, List.foldl_nil, touch, ht]
        exact hshow
      · exact frame_store hfit' ha.symm hlen hk
  constructor
  · intro hlaw
    have hres : s.heap.Resolves cd := by
      obtain ⟨ts, hnew, -⟩ := hlaw
      rw [hput] at hnew
      by_contra hnot
      have hret : ¬ Returns (s.heap.resolvePtr cd) fun _ => True := fun h =>
        hnot ((CDataHeap.returns_resolvePtr s.heap).mp h).1
      cases hr : s.heap.resolvePtr cd with
      | ok r => exact hret (by rw [hr]; trivial)
      | error f =>
        rw [putField, hr, error_bind] at hnew
        exact absurd hnew (by simp [lift])
    refine ⟨hres, ?_⟩
    rw [hpos]
    exact (hexact hres).mp hlaw
  · rintro ⟨hres, hshow⟩
    rw [hpos] at hshow
    exact (hexact hres).mpr hshow

/-! ### All parts -/

/-- A number that is stored in a part of an object loads as C converts it to the type of the part under the condition:
the part is found, the number does not saturate to another residue, and it is written and read by the type itself. Under
another name of a type a word or nothing is written; a member is read with a sign; no truth value is ever loaded. -/
theorem store_load_iff (s : FfiState) (cd : ℕ) (key : LuaValue) (p : Part) (sc : Scalar) (x : F64)
    (howned : ctypeIsPtr (s.rawOf cd).info = false) (hname : s.Names cd key p)
    (hsc : scalarOf (s.cts.resolveRawId (s.partType cd p)) = some sc)
    (hfits : s.Fits (s.heap.locate cd).2 (s.partPos cd p) sc.size) (hx : x.expo ≠ 2047) :
    s.StoreLoad cd key p sc x ↔ s.Stores cd p sc x := by
  have hnan : x.isNaN = false := by
    rw [F64.isNaN, decide_eq_false_iff_not]
    exact fun h => hx h.1
  cases p with
  | element idx => exact element_law howned hname hsc hnan hfits
  | member id off => exact member_law hname hsc hnan hfits

/-- A double holds one. -/
theorem store_load_double : loneDouble.StoreLoad 0 (.num .zero) (.element 0) .double (.ofInt 1) := by
  refine (store_load_iff loneDouble 0 (.num .zero) (.element 0) .double (.ofInt 1) (by decide) ⟨rfl, by simp⟩ (by decide)
    ⟨by decide, by decide⟩ (by decide)).mpr ?_
  exact ⟨trivial, ⟨by decide, by decide⟩, .inl rfl⟩

/-- A truth value in its own storage. -/
def loneBool : FfiState := lone ⟨3, [0], none, 0⟩ rfl (by decide)

/-- A truth value is loaded as a number. -/
theorem store_load_bool : ¬ ∀ (s : FfiState) (cd : ℕ) (key : LuaValue) (p : Part) (sc : Scalar) (x : F64),
    ctypeIsPtr (s.rawOf cd).info = false → s.Names cd key p → scalarOf (s.cts.resolveRawId (s.partType cd p)) = some sc →
      s.Fits (s.heap.locate cd).2 (s.partPos cd p) sc.size → x.expo ≠ 2047 → s.StoreLoad cd key p sc x := by
  intro h
  have hlaw := h loneBool 0 (.num .zero) (.element 0) .bool (.ofInt 1) (by decide) ⟨rfl, by simp⟩ (by decide)
    ⟨by decide, by decide⟩ (by decide)
  have hstores : loneBool.Stores 0 (.element 0) .bool (.ofInt 1) :=
    (element_law (by decide) ⟨rfl, by simp⟩ (by decide) (by decide) ⟨by decide, by decide⟩).mp hlaw
  exact hstores.2.2

end FfiState

end LuajitRs.Ffi
