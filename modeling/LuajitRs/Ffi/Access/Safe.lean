import LuajitRs.Ffi.Access.Field

/-! Accesses of every kind: which of them stay within the storage that they name. -/
namespace LuajitRs.Ffi
open Lib Lib.Bytes

namespace FfiState
variable {s : FfiState} {cd fid off : ℕ} {name : String}

theorem keyHeld_nothing {part : Option (ℤ × ℕ)} {v : Val} (hv : v.IsEmpty) : s.KeyHeld cd part (v, []) := by
  cases part with
  | none => exact fun _ ht => absurd ht List.not_mem_nil
  | some p => exact held_nothing s hv

/-! ### Reading fields -/

theorem size_wide (h : fid = CTypeID.int64 ∨ fid = CTypeID.uint64) : (s.cts.raw fid).size = 8 := by
  cases h with
  | inl h => rw [h, size_predefined s (by decide) (by decide)]; rfl
  | inr h => rw [h, size_predefined s (by decide) (by decide)]; rfl

/-- The part of an object that a field is, none for a field behind an address. -/
def fieldPart (s : FfiState) (cd fid off : ℕ) : Option (ℤ × ℕ) :=
  if ctypeIsPointer (s.rawOf cd).info then none else some (off, (s.cts.raw fid).size)

theorem readField_safe :
    Returns (s.readField cd (ctypeIsPointer (s.rawOf cd).info) fid off) (s.KeyHeld cd (s.fieldPart cd fid off)) ↔
      s.ReadInBounds cd fid off := by
  rw [readField, ReadInBounds, fieldPart]
  cases hp : ctypeIsPointer (s.rawOf cd).info with
  | true =>
    simp only [if_true]
    cases ctypeIsScalar (s.cts.raw fid).info with
    | true =>
      rw [Bool.not_true, if_neg Bool.false_ne_true, if_pos rfl]
      rw [Returns, Ensures.bind_iff, ← Returns, scalarField, if_pos rfl, ← and_assoc, ← derefScalar_safe, ← returns_and_const]
      have hwide : ∀ r : F64 × List Touch, Returns (s.wideField cd fid off (s.cts.raw fid).size r.1 r.2) (s.KeyHeld cd none) ↔
          (∀ t ∈ r.2, s.Inside (s.heap.locate cd).2 t) ∧ (fid = CTypeID.int64 ∨ fid = CTypeID.uint64 → s.FieldInBounds cd off 8) :=
        fun r => wideField_inside size_wide
      simp only [hwide]
    | false =>
      rw [Bool.not_false, if_pos rfl, if_neg Bool.false_ne_true, Returns, Ensures.bind_iff, ← Returns, ← derefObject_safe]
      exact Iff.rfl
  | false =>
    simp only [Bool.false_eq_true, if_false]
    cases ctypeIsScalar (s.cts.raw fid).info with
    | true =>
      refine directField_safe.trans ⟨fun h => ⟨h.1.1, h, fun hw => ?_⟩, fun h => h.2.1⟩
      rw [← size_wide hw]
      exact h.1
    | false => exact aliasField_safe

theorem complexPart_some {raw : CType} {o : ℕ} (h : s.cts.complexPart raw name = some o) : ctypeIsComplex raw.info = true := by
  unfold CTState.complexPart at h
  split at h
  · next hc => exact hc
  · exact absurd h (by simp)

/-- A part of a complex number is a float. -/
theorem narrow_part {id o : ℕ} (h : s.cts.complexPart (s.cts.raw id) name = some o) :
    s.Narrow cd off true (s.cts.raw (ctypeCid (s.cts.raw id).info)).size :=
  .inl ⟨rfl, (s.raw_complex (complexPart_some h)).1.symm⟩

theorem memberRead_complex {o : ℕ} (hc : s.cts.complexPart (s.rawOf cd) name = some o) :
    s.memberRead cd name = some (o, (s.cts.raw (ctypeCid (s.rawOf cd).info)).size) := by rw [memberRead, hc]

theorem memberWritten_field (hf : s.cts.fieldOffset (s.elemTypeId cd) name = .ok (some (fid, off))) :
    ((s.memberWritten cd name).map fun m => ((m.1 : ℤ), m.2)) = s.fieldPart cd fid off := by
  rw [memberWritten, fieldPart]
  split
  · rfl
  · next hp =>
    have helem : s.elemTypeId cd = s.typeOf cd := if_neg hp
    rw [← helem, hf]
    rfl

theorem memberRead_field (hc : s.cts.complexPart (s.rawOf cd) name = none)
    (hf : s.cts.fieldOffset (s.elemTypeId cd) name = .ok (some (fid, off))) :
    ((s.memberRead cd name).map fun m => ((m.1 : ℤ), m.2)) = s.fieldPart cd fid off := by
  rw [← memberWritten_field hf, memberRead, hc]
  rfl

theorem indexField_safe :
    Ensures LuaError (s.indexField cd name) (s.KeyHeld cd ((s.memberRead cd name).map fun m => ((m.1 : ℤ), m.2))) ↔
      s.GetInBounds cd name := by
  rw [indexField, GetInBounds]
  split
  · next hmethod =>
    have hm : s.isFuncPtrType (s.typeOf cd) ∧ (name = "free" ∨ name = "set") := by simpa using hmethod
    exact ⟨fun _ => .inl hm, fun _ => keyHeld_nothing trivial⟩
  · next hmethod =>
    have hm : ¬ (s.isFuncPtrType (s.typeOf cd) = true ∧ (name = "free" ∨ name = "set")) := by simpa using hmethod
    rw [or_iff_right hm]
    cases hc : s.cts.complexPart (s.rawOf cd) name with
    | some o =>
      rw [memberRead_complex hc, Option.map_some]
      dsimp only
      rw [Ensures.bind_iff, ensures_lift]
      exact storedScalar_safe.trans (and_iff_left (narrow_part hc))
    | none =>
      dsimp only
      rw [Ensures.bind_iff, ensures_lift]
      cases hf : s.cts.fieldOffset (s.elemTypeId cd) name with
      | error f => exact Iff.rfl
      | ok r =>
        cases r with
        | none => exact ⟨fun _ => trivial, fun _ => trivial⟩
        | some ft =>
          rw [memberRead_field hc hf]
          exact ensures_lift.trans readField_safe

theorem named_index {key : LuaValue} {member : String → Option (ℕ × ℕ)} {idx : ℤ}
    (h : s.indexNumber key = .ok (some idx)) :
    s.named cd key member = some (idx * s.elemSize cd, s.elemSize cd) := by
  unfold named
  rw [h]

theorem named_name {k : ℕ} {member : String → Option (ℕ × ℕ)} :
    s.named cd (.str k) member = (member (s.text k)).map fun m => ((m.1 : ℤ), m.2) := rfl

theorem cdataIndex_safe {key : LuaValue} (hptr : ctypeIsPtr (s.rawOf cd).info = false) :
    Ensures LuaError (s.cdataIndex cd key) (s.KeyHeld cd (s.named cd key (s.memberRead cd))) ↔
      s.KeyInBounds cd key (s.GetInBounds cd) := by
  unfold cdataIndex
  rw [Ensures.bind_iff, ensures_lift, KeyInBounds]
  cases hi : s.indexNumber key with
  | error f => exact Iff.rfl
  | ok r =>
    cases r with
    | some idx =>
      rw [named_index hi]
      exact ensures_lift.trans (arrayElement_safe hptr)
    | none =>
      rw [Returns, Ensures.ok_iff]
      cases key with
      | str k =>
        rw [named_name]
        refine Iff.trans indexField_safe ⟨fun h k' hk => ?_, fun h => h k rfl⟩
        rw [← LuaValue.str.inj hk]
        exact h
      | _ =>
        refine ⟨fun _ k hk => absurd hk (by simp), fun _ => ?_⟩
        rw [pure_eq_ok, Ensures.ok_iff]
        exact keyHeld_nothing trivial

/-! ### Writing fields -/

/-- Some bytes of a field are written in bounds. -/
theorem putField_safe {n : ℕ} {bs : List UInt8} {part : Option (ℤ × ℕ)} (hbs : bs.length ≤ n)
    (hpart : ∀ d m, part = some (d, m) → d = off ∧ m ≤ n) :
    Returns (s.putField cd off n bs) (fun ts => s.KeyHeld cd part (.nil, ts)) ↔ s.FieldInBounds cd off n := by
  rw [putField, returns_locateField]
  refine and_iff_left ?_
  cases hi : index ((s.heap.locate cd).1 + off) n (s.payload (s.heap.locate cd).2).length with
  | none => exact keyHeld_nothing trivial
  | some a =>
    obtain ⟨ha, hfit⟩ := index_some hi
    have hat : s.At (s.heap.locate cd).2 ((s.heap.locate cd).1 + off) (.write (.payload (s.heap.locate cd).2 a) bs) :=
      ⟨a, rfl, ha, by rw [Touch.size]; omega⟩
    cases part with
    | none => exact List.forall_mem_singleton.mpr hat.inside
    | some p =>
      obtain ⟨hd, hm⟩ := hpart p.1 p.2 rfl
      rw [← hd] at hat ha
      have hfits : s.Fits (s.heap.locate cd).2 ((s.heap.locate cd).1 + p.1) p.2 := ⟨by omega, by omega⟩
      exact (held_of_fits hfits).mpr (List.forall_mem_singleton.mpr hat)

theorem fieldPart_some {n : ℕ} (hn : (s.cts.raw fid).size ≤ n) :
    ∀ d m, s.fieldPart cd fid off = some (d, m) → d = off ∧ m ≤ n := by
  intro d m h
  unfold fieldPart at h
  split at h
  · exact absurd h (by simp)
  · obtain ⟨rfl, rfl⟩ := Prod.mk.inj (Option.some.inj h)
    exact ⟨rfl, hn⟩

theorem putComplexField_safe {val : LuaValue} (hc : ctypeIsComplex (s.cts.raw fid).info = true) :
    Returns (s.putComplexField cd fid off val) (fun ts => s.KeyHeld cd (s.fieldPart cd fid off) (.nil, ts)) ↔
      s.FieldInBounds cd off (s.cts.raw fid).size := by
  have hzeros : (List.replicate ((s.cts.raw (ctypeCid (s.cts.raw fid).info)).size * 2) (0 : UInt8)).length =
      (s.cts.raw fid).size := by rw [List.length_replicate, (s.raw_complex hc).2]
  have hput : ∀ buf : List UInt8, buf.length = (s.cts.raw fid).size →
      (Returns (s.putField cd off buf.length buf) (fun ts => s.KeyHeld cd (s.fieldPart cd fid off) (.nil, ts)) ↔
        s.FieldInBounds cd off (s.cts.raw fid).size) := by
    intro buf hbuf
    rw [hbuf]
    exact putField_safe hbuf.le (fieldPart_some le_rfl)
  unfold putComplexField
  cases val with
  | cdata src =>
    refine hput _ ?_
    rw [length_splice]
    · exact hzeros
    · rw [List.length_take]
      omega
  | num n => exact hput _ (by rw [length_writeScalarValue]; exact hzeros)
  | _ => exact hput _ hzeros

theorem derefWrite_safe {bs : List UInt8} (hp : ctypeIsPointer (s.rawOf cd).info = true) :
    Returns (s.storedAddr cd >>= fun r =>
        pure (if r.1 = 0 then r.2 else r.2 ++ [.write (.raw (r.1 + .ofNat 64 off)) bs]))
        (fun ts => s.KeyHeld cd (s.fieldPart cd fid off) (.nil, ts)) ↔
      s.heap.Resolves cd ∧ EndFits (s.heap.locate cd).1 8 ∧ s.heldAddr cd = 0 := by
  rw [fieldPart, if_pos hp, Returns, Ensures.bind_iff, ← Returns, returns_storedAddr]
  refine and_congr_right fun _ => and_congr_right fun _ => ?_
  rw [pure_eq_ok, Ensures.ok_iff]
  dsimp only
  split
  · next hzero => exact ⟨fun _ => hzero, fun _ => heldTouch_inside⟩
  · next hzero =>
    refine ⟨fun h => absurd (h _ (List.mem_append_right _ (List.mem_singleton_self _))) ?_, fun h => absurd h hzero⟩
    rintro ⟨a, ha, -⟩
    injection ha

theorem length_fieldBytes {val : LuaValue} : (s.fieldBytes fid val).length = max (s.cts.raw fid).size 1 := by
  rw [fieldBytes, length_writeScalarValue, List.length_replicate]

theorem writeField_safe {val : LuaValue} (hc : ctypeIsComplex (s.cts.raw fid).info = false) :
    Returns (s.valueAddr val >>= fun addr => s.writeField cd fid off val addr)
        (fun ts => s.KeyHeld cd (s.fieldPart cd fid off) (.nil, ts)) ↔
      s.WriteInBounds cd fid off val := by
  unfold WriteInBounds
  rw [if_neg (by rw [hc]; exact Bool.false_ne_true)]
  have htake : ∀ src, ((s.payload src).take (s.cts.raw fid).size).length ≤ (s.cts.raw fid).size := fun src => by
    rw [List.length_take]
    omega
  have hnumber : Returns (if ctypeIsPointer (s.rawOf cd).info then do
        let r ← s.storedAddr cd
        return if r.1 = 0 then r.2 else r.2 ++ [.write (.raw (r.1 + .ofNat 64 off)) (s.fieldBytes fid val)]
      else s.putField cd off (max (s.cts.raw fid).size 1) (s.fieldBytes fid val))
        (fun ts => s.KeyHeld cd (s.fieldPart cd fid off) (.nil, ts)) ↔
      if ctypeIsPointer (s.rawOf cd).info then
        s.heap.Resolves cd ∧ EndFits (s.heap.locate cd).1 8 ∧ s.heldAddr cd = 0
      else s.FieldInBounds cd off (max (s.cts.raw fid).size 1) := by
    split
    · next hp => exact derefWrite_safe hp
    · exact putField_safe length_fieldBytes.le (fieldPart_some (le_max_left ..))
  have hother : (∀ src, val ≠ .cdata src) → (Returns (s.writeField cd fid off val none)
        (fun ts => s.KeyHeld cd (s.fieldPart cd fid off) (.nil, ts)) ↔
      if ctypeIsPointer (s.rawOf cd).info then
        s.heap.Resolves cd ∧ EndFits (s.heap.locate cd).1 8 ∧ s.heldAddr cd = 0
      else s.FieldInBounds cd off (max (s.cts.raw fid).size 1)) := by
    intro hval
    rw [← hnumber]
    unfold writeField
    cases val with
    | cdata src => exact absurd rfl (hval src)
    | _ => cases ctypeIsPtr (s.cts.raw fid).info <;> exact Iff.rfl
  cases val with
  | cdata src =>
    rw [Returns, Ensures.bind_iff, valueAddr, Ensures.bind_iff, ← Returns, CDataHeap.returns_resolvePtr]
    refine and_congr_right fun _ => ?_
    rw [pure_eq_ok, Ensures.ok_iff]
    unfold writeField
    cases hptr : ctypeIsPtr (s.cts.raw fid).info with
    | true =>
      dsimp only
      rw [if_pos rfl]
      by_cases hsz : (s.cts.raw fid).size = 8 ∨ (s.cts.raw fid).size = 4
      · rw [if_pos hsz, if_pos (by simpa using hsz)]
        exact putField_safe (length_toLE ..).le (fieldPart_some le_rfl)
      · rw [if_neg hsz, if_neg (by simpa using hsz), Ensures.bind_iff, ← Returns, CDataHeap.returns_resolvePtr]
        refine and_congr_right fun _ => ?_
        rw [Ensures.bind_iff, ← Returns, returns_addI64]
        exact and_iff_left (keyHeld_nothing trivial)
    | false =>
      dsimp only
      rw [if_neg Bool.false_ne_true]
      split
      · next hp => exact derefWrite_safe hp
      · exact putField_safe (htake src) (fieldPart_some le_rfl)
  | _ => exact hother fun src => by simp

theorem newindexField_safe {val : LuaValue} :
    Ensures LuaError (s.newindexField cd name val)
        (fun ts => s.KeyHeld cd ((s.memberWritten cd name).map fun m => ((m.1 : ℤ), m.2)) (.nil, ts)) ↔
      s.PutInBounds cd name val := by
  unfold newindexField PutInBounds
  dsimp only
  cases hc : s.cts.complexPart (s.cts.raw (s.elemTypeId cd)) name with
  | some o =>
    have hnone : s.memberWritten cd name = none := by
      refine if_pos ?_
      by_contra hp
      have helem : s.elemTypeId cd = s.typeOf cd := if_neg hp
      have harray := isArray_of_isComplex (complexPart_some hc)
      rw [helem] at harray
      exact hp (by rw [ctypeIsPointer, rawOf, harray, Bool.or_true])
    rw [hnone, Option.map_none]
    refine ensures_lift.trans (putField_safe ?_ fun d m h => absurd h (by simp))
    rw [length_writeScalarValue, List.length_replicate]
  | none =>
    dsimp only
    rw [Ensures.bind_iff, ensures_lift]
    cases hf : s.cts.fieldOffset (s.elemTypeId cd) name with
    | error f => exact Iff.rfl
    | ok r =>
      cases r with
      | none => exact ⟨fun _ => trivial, fun _ => trivial⟩
      | some ft =>
        rw [memberWritten_field hf, Returns, Ensures.ok_iff]
        dsimp only
        split
        · next hcomplex =>
          refine ensures_lift.trans ((putComplexField_safe hcomplex).trans ?_)
          unfold WriteInBounds
          rw [if_pos hcomplex]
        · next hcomplex =>
          rw [← writeField_safe (Bool.eq_false_iff.mpr hcomplex), Ensures.bind_iff, ensures_lift, Returns, Returns,
            Ensures.bind_iff]
          simp only [ensures_lift]

theorem cdataNewindex_safe {key val : LuaValue} (hptr : ctypeIsPtr (s.rawOf cd).info = false) :
    Ensures LuaError (s.cdataNewindex cd key val)
        (fun ts => s.KeyHeld cd (s.named cd key (s.memberWritten cd)) (.nil, ts)) ↔
      s.KeyInBounds cd key fun name => s.PutInBounds cd name val := by
  unfold cdataNewindex
  rw [Ensures.bind_iff, ensures_lift, KeyInBounds]
  cases hi : s.indexNumber key with
  | error f => exact Iff.rfl
  | ok r =>
    cases r with
    | some idx =>
      rw [named_index hi]
      exact ensures_lift.trans (putElement_safe hptr val)
    | none =>
      rw [Returns, Ensures.ok_iff]
      cases key with
      | str k =>
        rw [named_name]
        refine Iff.trans newindexField_safe ⟨fun h k' hk => ?_, fun h => h k rfl⟩
        rw [← LuaValue.str.inj hk]
        exact h
      | _ => exact ⟨fun _ k hk => absurd hk (by simp), fun _ => trivial⟩

end FfiState

end LuajitRs.Ffi
