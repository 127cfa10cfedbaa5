import LuajitRs.Ffi.Store.Exact

/-! For which numbers a field shows what is written to it. A field is read by its size, and every integer with a sign. -/
namespace LuajitRs.Ffi
open Lib Lib.Bytes FfiState

def Scalar.isFp : Scalar → Bool
  | bool | int _ _ => false
  | float | double => true

/-- The numbers that a field shows after they are written to it. -/
def FieldExact (direct : Prop) (x : F64) : Scalar → Prop
  | .bool => False
  | .int signed w =>
    if w = 16 then False
    else if w = 8 then direct ∧ Keeps signed 8 x.trunc
    else direct ∧ Keeps signed w x.trunc ∧ (signed = true ∨ x.trunc % 2^(8*w) < 2^(8*w - 1)) ∨
      ¬ direct ∧ AliasShows signed w x.trunc
  | .float => direct ∨ single x = (F64.ofF32 (.ofInt 32 (satI64 x.trunc))).normalize
  | .double => direct ∨ x.isZero = true

section Field
variable {id base w a n : ℕ} {signed : Bool} {x y : F64} {bs : List UInt8} {sc : Scalar}

/-- An integer that is read by its size. -/
theorem readFieldFromSlice_small (hw : w = 1 ∨ w = 2 ∨ w = 4) (h : a + w ≤ bs.length) :
    readFieldFromSlice bs a w = .ok (.ofInt (residue true w (ofLE (window bs a w)))) := by
  rw [← signedLe_eq]
  obtain rfl | rfl | rfl := hw
  · rw [readFieldFromSlice, if_pos rfl, slice, if_pos h]; rfl
  · rw [readFieldFromSlice, if_neg (by decide), if_pos rfl, slice, if_pos h]; rfl
  · rw [readFieldFromSlice, if_neg (by decide), if_neg (by decide), if_pos rfl, slice, if_pos h]; rfl

theorem fieldValue_num {isFp : Bool} {sz : ℕ} (hne : ¬ ((id = CTypeID.int64 ∨ id = CTypeID.uint64) ∧ sz = 8))
    (h : scalarAt bs isFp 0 sz = .ok y) : fieldValue id isFp sz bs = .ok (.num y.normalize) := by
  rw [fieldValue, if_neg hne, h]
  rfl

/-- A small integer field with its bytes. -/
theorem fieldValue_small (hw : w = 1 ∨ w = 2 ∨ w = 4) :
    Returned id (fieldValue id false w (toLE w n)) ((Scalar.int signed w).convert x) ↔
      residue true w n = residue signed w x.trunc := by
  have hle : w ≤ 4 := by omega
  have hread : readFieldFromSlice (toLE w n) 0 w = .ok (.ofInt (residue true w (ofLE (window (toLE w n) 0 w)))) :=
    readFieldFromSlice_small hw (by rw [length_toLE]; omega)
  rw [window_all (length_toLE ..), residue_ofLE] at hread
  have hnum : fieldValue id false w (toLE w n) = .ok (.num (F64.ofInt (residue true w n)).normalize) :=
    fieldValue_num (by omega) hread
  rw [hnum, returned_ok, convert_small hle]
  exact normalize_ofInt_inj (natAbs_residue hle) (natAbs_residue hle)

theorem field_small (hx : x.isNaN = false) (h : scalarOf id = some (.int signed w)) (hw : w = 1 ∨ w = 2 ∨ w = 4) :
    Returned id (fieldValue id false w (stored id w x)) ((Scalar.int signed w).convert x) ↔
      Keeps signed w x.trunc ∧ (signed = true ∨ x.trunc % 2^(8*w) < 2^(8*w - 1)) := by
  rw [stored_int h (by omega), fieldValue_small hw]
  cases signed with
  | true =>
    rw [residue_eq_iff, written_emod_iff hx (by omega) (by omega)]
    exact (and_iff_left (.inl rfl)).symm
  | false =>
    rw [residue_signed_unsigned (by omega), written_emod_iff hx (by omega) (by omega)]
    exact and_congr_right fun _ => ⟨.inr, fun h => h.resolve_left Bool.false_ne_true⟩

theorem field_small_alias (hx : x.isNaN = false) (h : scalarOf id = none) (hw : w = 1 ∨ w = 2 ∨ w = 4) :
    Returned id (fieldValue id false w (stored id w x)) ((Scalar.int signed w).convert x) ↔ AliasShows signed w x.trunc := by
  rw [stored_alias h, fieldValue_small hw, alias_iff hx hw]

/-- A field of 16 bytes reads as zero. -/
theorem field_int128 : ¬ Returned id (fieldValue id false 16 bs) ((Scalar.int signed 16).convert x) := by
  rw [fieldValue_num (y := .zero) (by omega) rfl, convert_wide (by decide)]
  exact not_returned_exact

theorem field_wide (hx : x.isNaN = false) (h : scalarOf id = some (.int signed 8)) :
    Returned id (fieldValue id false 8 (stored id 8 x)) ((Scalar.int signed 8).convert x) ↔ Keeps signed 8 x.trunc := by
  rw [stored_int h le_rfl, fieldValue, if_pos ⟨wide_id h, rfl⟩, returned_ok, convert_wide (by decide), shows_exact,
    toLE_eq_iff, written_emod_iff hx (by decide) (by decide)]

theorem field_wide_alias (h : scalarOf id = none) (hbs : bs.length = 8) :
    ¬ Returned id (fieldValue id false 8 bs) ((Scalar.int signed 8).convert x) := by
  have hread : scalarAt bs false 0 8 = .ok (.ofInt64 (le 64 bs)) := by
    have hslice : slice bs 0 8 = .ok bs := slice_all hbs
    exact congrArg (· >>= fun b => (.ok (.ofInt64 (le 64 b)) : Except Fault F64)) hslice
  rw [fieldValue_num (fun hid => wide_none h hid.1) hread, convert_wide (by decide)]
  exact not_returned_exact

theorem scalarAt_float : scalarAt (toLE 4 n) true 0 4 = .ok (.ofF32 (.ofNat 32 n)) := by
  have hbits : le 32 (toLE 4 n) = .ofNat 32 n := by
    rw [le, ofLE_toLE]
    apply BitVec.eq_of_toNat_eq
    rw [BitVec.toNat_ofNat, BitVec.toNat_ofNat]
    exact Nat.mod_mod ..
  have hslice : slice (toLE 4 n) 0 4 = .ok (toLE 4 n) := slice_all (length_toLE ..)
  rw [← hbits]
  exact congrArg (· >>= fun b => (.ok (.ofF32 (le 32 b)) : Except Fault F64)) hslice

theorem scalarAt_double : scalarAt (toLE 8 y.bits.toNat) true 0 8 = .ok y := by
  have hslice : slice (toLE 8 y.bits.toNat) 0 8 = .ok (toLE 8 y.bits.toNat) := slice_all (length_toLE ..)
  have hread := congrArg (· >>= fun b => (.ok (f64OfLe b) : Except Fault F64)) hslice
  exact hread.trans (congrArg Except.ok (f64OfLe_toLE y))

theorem field_float (h : scalarOf id = some .float) :
    Returned id (fieldValue id true 4 (stored id 4 x)) (Scalar.float.convert x) := by
  have hstored : stored id 4 x = toLE 4 x.asF32.toNat := stored_direct h (by decide)
  rw [hstored, fieldValue_num (by omega) scalarAt_float, BitVec.ofNat_toNat, BitVec.setWidth_eq]
  exact returned_ok.mpr rfl

theorem field_float_alias (hx : x.isNaN = false) (h : scalarOf id = none) :
    Returned id (fieldValue id true 4 (stored id 4 x)) (Scalar.float.convert x) ↔
      single x = (F64.ofF32 (.ofInt 32 (satI64 x.trunc))).normalize := by
  have hword : BitVec.ofNat 32 (aliasWord 4 x) = .ofInt 32 (satI64 x.trunc) := by
    have hcast : (aliasWord 4 x : ℤ) = satI64 x.trunc % 2^32 := cast_aliasWord hx le_rfl
    apply BitVec.eq_of_toNat_eq
    rw [BitVec.toNat_ofNat, BitVec.toNat_ofInt]
    omega
  rw [stored_alias h, fieldValue_num (by omega) scalarAt_float, hword, returned_ok]
  exact eq_comm

theorem field_double (h : scalarOf id = some .double) :
    Returned id (fieldValue id true 8 (stored id 8 x)) (Scalar.double.convert x) := by
  have hstored : stored id 8 x = toLE 8 x.bits.toNat := stored_direct h (by decide)
  have hne : ¬ (id = CTypeID.int64 ∨ id = CTypeID.uint64) := not_wide fun s hs => by rw [h] at hs; simp at hs
  rw [hstored, fieldValue_num (fun hid => hne hid.1) scalarAt_double]
  exact returned_ok.mpr rfl

/-- A number below `2^32` as the bits of a double is tiny. -/
theorem trunc_tiny {k : ℕ} (hk : k < 2^32) : (⟨UInt64.ofNat k⟩ : F64).isNaN = false ∧ (⟨UInt64.ofNat k⟩ : F64).trunc = 0 := by
  have hbits : (UInt64.ofNat k).toNat = k := by
    rw [UInt64.toNat_ofNat']
    exact Nat.mod_eq_of_lt (by omega)
  have hexpo : (⟨UInt64.ofNat k⟩ : F64).expo = 0 := by
    rw [F64.expo, hbits]
    omega
  constructor
  · rw [F64.isNaN, hexpo, decide_eq_false_iff_not]
    exact fun h => absurd h.1 (by decide)
  · have hmag : (⟨UInt64.ofNat k⟩ : F64).truncMag = 0 := by rw [F64.truncMag, hexpo, if_pos (by decide)]
    rw [F64.trunc, hmag]
    split
    · rfl
    · rfl

theorem field_double_alias (hx : x.isNaN = false) (h : scalarOf id = none) :
    Returned id (fieldValue id true 8 (stored id 8 x)) (Scalar.double.convert x) ↔ x.isZero = true := by
  obtain ⟨k, hk⟩ : ∃ k, aliasWord 8 x = k := ⟨_, rfl⟩
  have hcast : (k : ℤ) = satI64 x.trunc % 2^32 := hk ▸ cast_aliasWord hx (by decide)
  have hlt : k < 2^32 := by omega
  obtain ⟨hnan, htrunc⟩ := trunc_tiny hlt
  have hbits : (UInt64.ofNat k).toNat = k := by
    rw [UInt64.toNat_ofNat']
    exact Nat.mod_eq_of_lt (by omega)
  have hstored : stored id 8 x = toLE 8 (UInt64.ofNat k).toNat := by rw [stored_alias h, hbits, hk]
  have hzero : x.trunc = 0 → (⟨UInt64.ofNat k⟩ : F64) = .zero := by
    intro ht
    have hk0 : k = 0 := by
      rw [ht, satI64] at hcast
      omega
    rw [hk0]
    rfl
  rw [hstored, fieldValue_num (fun hid => wide_none h hid.1) (scalarAt_double (y := ⟨UInt64.ofNat k⟩)), returned_ok,
    Scalar.convert, Val.Shows]
  constructor
  · intro hshow
    have ht := congrArg F64.trunc hshow
    rw [F64.trunc_normalize hnan, F64.trunc_normalize hx, htrunc] at ht
    have hnormalize : F64.zero = x.normalize := by rw [← hshow, hzero ht.symm]; rfl
    rw [F64.normalize, hx, if_neg Bool.false_ne_true] at hnormalize
    by_contra hnot
    rw [if_neg hnot] at hnormalize
    rw [← hnormalize] at hnot
    exact hnot (by decide)
  · intro hz
    have ht : x.trunc = 0 := by
      rw [← F64.trunc_normalize hx, F64.normalize, hx, if_neg Bool.false_ne_true, if_pos hz]
      rfl
    have hnormalize : x.normalize = .zero := by rw [F64.normalize, hx, if_neg Bool.false_ne_true, if_pos hz]
    rw [hzero ht, hnormalize]
    rfl

/-- The numbers that a field shows. -/
theorem field_iff_exact (hx : x.isNaN = false) (hsc : scalarOf base = some sc) (hname : id = base ∨ scalarOf id = none) :
    Returned id (fieldValue id sc.isFp sc.size (stored id sc.size x)) (sc.convert x) ↔ FieldExact (id = base) x sc := by
  have hdirect : scalarOf id = none → ¬ id = base := by
    rintro h rfl
    rw [h] at hsc
    simp at hsc
  obtain rfl | rfl | rfl | ⟨signed, w, rfl, hw⟩ := scalar_width hsc
  · exact iff_of_false not_returned_bool False.elim
  · cases hname with
    | inl hbase =>
      subst hbase
      exact iff_of_true (field_float hsc) (.inl rfl)
    | inr hnone => exact (field_float_alias hx hnone).trans (or_iff_right (hdirect hnone)).symm
  · cases hname with
    | inl hbase =>
      subst hbase
      exact iff_of_true (field_double hsc) (.inl rfl)
    | inr hnone => exact (field_double_alias hx hnone).trans (or_iff_right (hdirect hnone)).symm
  · rw [Scalar.size, Scalar.isFp, FieldExact]
    by_cases h16 : w = 16
    · subst h16
      rw [if_pos rfl]
      exact iff_of_false field_int128 not_false
    · rw [if_neg h16]
      by_cases h8 : w = 8
      · subst h8
        rw [if_pos rfl]
        cases hname with
        | inl hbase =>
          subst hbase
          exact (field_wide hx hsc).trans (and_iff_right rfl).symm
        | inr hnone => exact iff_of_false (field_wide_alias hnone length_stored) fun h => hdirect hnone h.1
      · have hsmall : w = 1 ∨ w = 2 ∨ w = 4 := by omega
        rw [if_neg h8]
        cases hname with
        | inl hbase =>
          subst hbase
          rw [field_small hx hsc hsmall]
          exact ⟨fun h => .inl ⟨rfl, h⟩, fun h => h.elim And.right fun h => absurd rfl h.1⟩
        | inr hnone =>
          have hne := hdirect hnone
          rw [field_small_alias hx hnone hsmall]
          exact ⟨fun h => .inr ⟨hne, h⟩, fun h => h.elim (fun h => absurd h.1 hne) And.right⟩

end Field

end LuajitRs.Ffi
