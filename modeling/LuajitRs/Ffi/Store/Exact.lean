import LuajitRs.Ffi.Store.Convert
import LuajitRs.Util.F64.Exact
import Mathlib.Tactic.Zify

/-! For which numbers the bytes that are written read back as the converted number: by the type id for an element, by
the size for a field, and for the names of types that both take for others. -/
namespace LuajitRs
open Lib Lib.Bytes

namespace Ffi

/-! ### What is read -/

/-- The value of an element with some bytes. -/
def elementValue (id : ℕ) (bs : List UInt8) : Except Fault Val :=
  if id = CTypeID.int64 ∨ id = CTypeID.uint64 then .ok (.obj ⟨.ofNat id, bs, none, 0⟩)
  else (cdataToNumber ⟨.ofNat id, bs, none, 0⟩).map fun r =>
    (r.map fun x => Val.num x.normalize).getD (.obj ⟨.ofNat id, bs, none, 0⟩)

/-- The value of a field with some bytes. -/
def fieldValue (id : ℕ) (isFp : Bool) (sz : ℕ) (bs : List UInt8) : Except Fault Val :=
  if (id = CTypeID.int64 ∨ id = CTypeID.uint64) ∧ sz = 8 then .ok (.obj ⟨.ofNat id, bs, none, 0⟩)
  else (FfiState.scalarAt bs isFp 0 sz).map fun x => .num x.normalize

/-- The value shows a C value of a type. No operation returns a truth value. -/
def Val.Shows (id : ℕ) : Val → CValue → Prop
  | .num x, .num y => x = y.normalize
  | .obj c, .exact bs => c = ⟨.ofNat id, bs, none, 0⟩
  | _, _ => False

/-- A computation that shows a C value. -/
def Returned (id : ℕ) (m : Except Fault Val) (c : CValue) : Prop := ∃ v, m = .ok v ∧ v.Shows id c

theorem returned_ok {id : ℕ} {v : Val} {c : CValue} : Returned id (.ok v) c ↔ v.Shows id c :=
  ⟨fun ⟨_, hv, h⟩ => Except.ok.inj hv ▸ h, fun h => ⟨v, rfl, h⟩⟩

end Ffi

namespace F64

theorem ofInt64_small {i : BitVec 64} (h : i.toInt.natAbs < 2^53) : ofInt64 i = ofInt i.toInt := by
  have hnormalize := normalize_int 0 h
  rw [pow_zero, mul_one] at hnormalize
  rw [ofInt64, ← pack_unpackedInt h, ← hnormalize]
  rfl

theorem trunc_normalize {x : F64} (hx : x.isNaN = false) : x.normalize.trunc = x.trunc := by
  rw [normalize, hx, if_neg Bool.false_ne_true]
  split
  · next hz =>
    rw [isZero, decide_eq_true_eq] at hz
    obtain rfl | rfl := hz
    · rfl
    · decide
  · rfl

end F64

namespace Ffi

theorem le_toLE {w n : ℕ} {b : BitVec n} (h : 8*w = n) : le n (toLE w b.toNat) = b := by
  subst h
  apply BitVec.eq_of_toNat_eq
  have hpow : 256^w = 2^(8*w) := by rw [pow_mul]; norm_num
  rw [le, BitVec.toNat_ofNat, ofLE_toLE, hpow, Nat.mod_mod, Nat.mod_eq_of_lt b.isLt]

theorem f64OfLe_toLE (x : F64) : f64OfLe (toLE 8 x.bits.toNat) = x := by
  have hbits : le 64 (toLE 8 x.bits.toBitVec.toNat) = x.bits.toBitVec := le_toLE rfl
  rw [f64OfLe, ← UInt64.toNat_toBitVec, hbits]

section Read
variable {id w n : ℕ} {bs : List UInt8} {signed : Bool}

/-- An integer in some bytes, by the sign of its type. -/
def signedLe (signed : Bool) (k : ℕ) (bs : List UInt8) : ℤ := if signed then (le k bs).toInt else (le k bs).toNat

theorem signedLe_eq : signedLe signed (8*w) bs = residue signed w (ofLE bs) := by
  unfold signedLe residue
  split
  · rw [le, BitVec.toInt_ofNat']
  · rw [le, BitVec.toNat_ofNat]
    norm_cast

theorem window_all (h : bs.length = n) : window bs 0 n = bs := by
  rw [window, List.drop_zero, ← h, List.take_length]

theorem slice_all (h : bs.length = n) : slice bs 0 n = .ok bs := by
  rw [slice, if_pos (by omega), window_all h]

/-- What `cdataToNumber` reads for a predefined number. -/
def Scalar.read (bs : List UInt8) : Scalar → Except Fault (Option F64)
  | bool => .ok (some (if firstByte bs ≠ 0 then .ofInt 1 else .zero))
  | int true 1 => .ok (some (.ofInt (firstByte bs).toInt))
  | int false 1 => .ok (some (.ofInt (firstByte bs).toNat))
  | int true 2 => do return some (.ofInt (le 16 (← slice bs 0 2)).toInt)
  | int false 2 => do return some (.ofInt (le 16 (← slice bs 0 2)).toNat)
  | int true 4 => do return some (.ofInt (le 32 (← slice bs 0 4)).toInt)
  | int false 4 => do return some (.ofInt (le 32 (← slice bs 0 4)).toNat)
  | int true 8 => .ok (if 8 ≤ bs.length then some (.ofInt64 (le 64 (window bs 0 8))) else none)
  | int false 8 => .ok (if 8 ≤ bs.length then some (.ofNat (le 64 (window bs 0 8)).toNat) else none)
  | int _ _ =>
    if bs.length = 1 then .ok (some (.ofInt (firstByte bs).toInt))
    else if bs.length = 2 then .ok (some (.ofInt (le 16 bs).toInt))
    else if bs.length = 4 then .ok (some (.ofInt (le 32 bs).toInt))
    else if bs.length = 8 then .ok (some (.ofInt64 (le 64 bs)))
    else .ok none
  | float => do return some (.ofF32 (le 32 (← slice bs 0 4)))
  | double => do return some (f64OfLe (← slice bs 0 8))

theorem cdataToNumber_direct {sc : Scalar} (h : scalarOf id = some sc) :
    cdataToNumber ⟨.ofNat id, bs, none, 0⟩ = sc.read bs := by
  have hall : ∀ p ∈ scalars, cdataToNumber ⟨.ofNat p.1, bs, none, 0⟩ = p.2.read bs := by
    intro p hp
    have hnat : (UInt32.ofNat p.1).toNat = p.1 := by fin_cases hp <;> rfl
    unfold cdataToNumber
    dsimp only
    rw [hnat]
    clear hnat
    fin_cases hp <;> rfl
  exact hall (id, sc) (scalarOf_some h)

/-- An integer of at most four bytes reads by the sign of its type. -/
theorem read_int (hw : w = 1 ∨ w = 2 ∨ w = 4) (hbs : bs.length = w) :
    (Scalar.int signed w).read bs = .ok (some (.ofInt (residue signed w (ofLE bs)))) := by
  rw [← signedLe_eq]
  obtain rfl | rfl | rfl := hw
  · have hfirst : firstByte bs = le 8 bs := by rw [firstByte, List.take_of_length_le hbs.le]
    cases signed
    · rw [Scalar.read, hfirst]; rfl
    · rw [Scalar.read, hfirst]; rfl
  · cases signed
    · rw [Scalar.read, slice_all hbs]; rfl
    · rw [Scalar.read, slice_all hbs]; rfl
  · cases signed
    · rw [Scalar.read, slice_all hbs]; rfl
    · rw [Scalar.read, slice_all hbs]; rfl

/-- Other types read by the size of the payload, as signed integers. -/
theorem cdataToNumber_alias (bs : List UInt8) (hid : id < 2^32) (h : scalarOf id = none) :
    cdataToNumber ⟨.ofNat id, bs, none, 0⟩ =
      if bs.length = 1 ∨ bs.length = 2 ∨ bs.length = 4 then .ok (some (.ofInt (residue true bs.length (ofLE bs))))
      else if bs.length = 8 then .ok (some (.ofInt64 (le 64 bs)))
      else .ok none := by
  have hne := scalarOf_none h
  have hk : ∀ {k : ℕ} {s : Scalar}, (k, s) ∈ scalars → id ≠ k := fun hk => hne _ hk
  have hnat : (UInt32.ofNat id).toNat = id := by
    rw [UInt32.toNat_ofNat']
    exact Nat.mod_eq_of_lt hid
  unfold cdataToNumber
  dsimp only
  rw [hnat, if_neg (hk (s := .int true 1) (by decide)), if_neg (hk (s := .int false 1) (by decide)),
    if_neg (hk (s := .int true 1) (by decide)), if_neg (hk (s := .bool) (by decide)),
    if_neg (hk (s := .int true 2) (by decide)), if_neg (hk (s := .int false 2) (by decide)),
    if_neg (hk (s := .int true 4) (by decide)), if_neg (hk (s := .int false 4) (by decide)),
    if_neg (hk (s := .int true 8) (by decide)), if_neg (hk (s := .int false 8) (by decide)),
    if_neg (hk (s := .float) (by decide)), if_neg (hk (s := .double) (by decide))]
  by_cases h1 : bs.length = 1
  · rw [if_pos h1, if_pos (.inl h1), h1, ← signedLe_eq, firstByte, List.take_of_length_le h1.le]
    rfl
  · rw [if_neg h1]
    by_cases h2 : bs.length = 2
    · rw [if_pos h2, if_pos (.inr (.inl h2)), h2, ← signedLe_eq]
      rfl
    · rw [if_neg h2]
      by_cases h4 : bs.length = 4
      · rw [if_pos h4, if_pos (.inr (.inr h4)), h4, ← signedLe_eq]
        rfl
      · have hno : ¬ (bs.length = 1 ∨ bs.length = 2 ∨ bs.length = 4) := by omega
        rw [if_neg h4, if_neg hno]

end Read

/-! ### Integers -/

section Integers
variable {id w : ℕ} {signed : Bool} {x : F64} {a b t : ℤ}

theorem residue_eq_iff : residue signed w a = residue signed w b ↔ a % 2^(8*w) = b % 2^(8*w) := by
  unfold residue
  split
  · exact_mod_cast bmod_eq_iff (n := 2^(8*w))
  · exact Iff.rfl

/-- A signed residue is the unsigned one of another integer when that is small. -/
theorem residue_signed_unsigned (hw : 1 ≤ w) :
    residue true w a = residue false w b ↔ a % 2^(8*w) = b % 2^(8*w) ∧ b % 2^(8*w) < 2^(8*w - 1) := by
  have hpow : (2:ℤ)^(8*w) = 2 * 2^(8*w - 1) := by
    rw [← pow_succ']
    congr 1
    omega
  have hpos : (0:ℤ) < 2^(8*w - 1) := by positivity
  rw [residue, residue, if_pos rfl, if_neg Bool.false_ne_true, Int.bmod_def]
  push_cast
  rw [hpow]
  generalize (2:ℤ)^(8*w - 1) = m at *
  have ha := Int.emod_nonneg a (show 2 * m ≠ 0 by omega)
  have hb := Int.emod_nonneg b (show 2 * m ≠ 0 by omega)
  have hb' := Int.emod_lt_of_pos b (show 0 < 2 * m by omega)
  have ha' := Int.emod_lt_of_pos a (show 0 < 2 * m by omega)
  split
  · omega
  · omega

theorem natAbs_residue (hw : w ≤ 4) : (residue signed w a).natAbs < 2^53 := by
  have hle : (2:ℤ)^(8*w) ≤ 2^32 := by exact_mod_cast Nat.pow_le_pow_right (by norm_num) (by omega : 8*w ≤ 32)
  have hpos : (0:ℤ) < 2^(8*w) := by positivity
  unfold residue
  split
  · have hlo := Int.le_bmod (x := a) (m := 2^(8*w)) (by positivity)
    have hhi := Int.bmod_lt (x := a) (m := 2^(8*w)) (by positivity)
    push_cast at hlo hhi
    omega
  · have hlo := Int.emod_nonneg a hpos.ne'
    have hhi := Int.emod_lt_of_pos a hpos
    omega

theorem normalize_ofInt_inj (ha : a.natAbs < 2^53) (hb : b.natAbs < 2^53) :
    (F64.ofInt a).normalize = (F64.ofInt b).normalize ↔ a = b := by
  rw [F64.normalize_ofInt ha, F64.normalize_ofInt hb]
  exact ⟨F64.ofInt_inj ha hb, fun h => by rw [h]⟩

theorem residue_ofLE {n : ℕ} : residue signed w (ofLE (toLE w n)) = residue signed w n := by
  rw [ofLE_toLE, residue_eq_iff]
  push_cast
  have hpow : (256:ℤ)^w = 2^(8*w) := by rw [pow_mul]; norm_num
  rw [hpow, Int.emod_emod_of_dvd _ dvd_rfl]

/-- The integer that is written for a type of its own. -/
def written (signed : Bool) (x : F64) : ℕ := if signed then x.asInt64.toNat else x.asU64.toNat

/-- A number that is written without losing its residue in a type of `w` bytes. -/
def Keeps (signed : Bool) (w : ℕ) (t : ℤ) : Prop := if signed then KeepsI64 (2^(8*w)) t else KeepsU64 (2^(8*w)) t

theorem written_emod_iff (hx : x.isNaN = false) (hw : 1 ≤ w) (hw' : w ≤ 8) :
    (written signed x : ℤ) % 2^(8*w) = x.trunc % 2^(8*w) ↔ Keeps signed w x.trunc := by
  have htwo : (2:ℤ) ∣ 2^(8*w) := dvd_pow_self 2 (by omega)
  have heven : 2^63 ≤ x.trunc → 2 ∣ x.trunc := fun h => F64.two_dvd_trunc (.inl (by omega))
  unfold written Keeps
  split
  · have hdvd : (2:ℤ)^(8*w) ∣ 2^64 := pow_dvd_pow 2 (by omega)
    rw [asInt64_toNat hx, Int.emod_emod_of_dvd _ hdvd, satI64_emod_iff htwo heven]
  · rw [asU64_toNat hx, satU64_emod_iff htwo heven]

theorem asInt64_emod_iff (hx : x.isNaN = false) (hw : 1 ≤ w) (hw' : w ≤ 8) :
    (x.asInt64.toNat : ℤ) % 2^(8*w) = x.trunc % 2^(8*w) ↔ KeepsI64 (2^(8*w)) x.trunc := by
  have hiff : (written true x : ℤ) % 2^(8*w) = x.trunc % 2^(8*w) ↔ Keeps true w x.trunc := written_emod_iff hx hw hw'
  exact hiff

/-- Eight bytes show an integer when they keep its residue. -/
theorem toLE_eq_iff {n : ℕ} : toLE w n = toLE w (t % 2^(8*w)).toNat ↔ (n : ℤ) % 2^(8*w) = t % 2^(8*w) := by
  have hpow : 256^w = 2^(8*w) := by rw [pow_mul]; norm_num
  have hpos : (0:ℤ) < 2^(8*w) := by positivity
  have hnonneg := Int.emod_nonneg t hpos.ne'
  have hlt := Int.emod_lt_of_pos t hpos
  have hnat : (t % 2^(8*w)).toNat % 2^(8*w) = (t % 2^(8*w)).toNat := by
    refine Nat.mod_eq_of_lt ?_
    zify
    rw [Int.toNat_of_nonneg hnonneg]
    exact hlt
  rw [toLE_inj, hpow, hnat]
  zify
  rw [Int.toNat_of_nonneg hnonneg]

/-- A number that its low word shows in 16 bytes. -/
def KeepsWord (t : ℤ) : Prop := 0 ≤ t ∧ t < 2^32 ∨ t < -2^63 ∧ 2^128 ∣ t

theorem word_iff (hx : x.isNaN = false) :
    toLE 16 (x.asInt64.toNat % 2^32) = toLE 16 (x.trunc % 2^(8*16)).toNat ↔ KeepsWord x.trunc := by
  have hcast : ((x.asInt64.toNat % 2^32 : ℕ) : ℤ) = satI64 x.trunc % 2^32 := by
    push_cast
    rw [asInt64_toNat hx]
    exact Int.emod_emod_of_dvd _ (by norm_num)
  rw [toLE_eq_iff, hcast, KeepsWord, Int.dvd_iff_emod_eq_zero, satI64]
  have heven : 2^63 ≤ x.trunc → 2 ∣ x.trunc := fun h => F64.two_dvd_trunc (.inl (by omega))
  generalize x.trunc = t at *
  by_cases hhi : 2^63 ≤ t
  · have h2 := heven hhi
    omega
  · omega

end Integers

/-- What is written under another name of a type, as a number: a word where there is room for one. -/
def aliasWord (w : ℕ) (x : F64) : ℕ := if 4 ≤ w then x.asInt64.toNat % 2^32 else 0

/-- An integer that a small type shows under another name, where it is read with a sign. -/
def AliasShows (signed : Bool) (w : ℕ) (t : ℤ) : Prop :=
  if w = 4 then KeepsI64 (2^32) t ∧ (signed = true ∨ t % 2^32 < 2^31) else 2^(8*w) ∣ t

section Alias
variable {id w : ℕ} {signed : Bool} {x : F64}

theorem stored_alias (h : scalarOf id = none) : stored id w x = toLE w (aliasWord w x) := by
  rw [stored_word (scalarBytes_alias h), aliasWord]
  split
  · rfl
  · exact (toLE_zero w).symm

theorem cast_aliasWord (hx : x.isNaN = false) (hw : 4 ≤ w) : (aliasWord w x : ℤ) = satI64 x.trunc % 2^32 := by
  rw [aliasWord, if_pos hw]
  push_cast
  rw [asInt64_toNat hx]
  exact Int.emod_emod_of_dvd _ (by norm_num)

theorem alias_iff (hx : x.isNaN = false) (hw : w = 1 ∨ w = 2 ∨ w = 4) :
    residue true w (aliasWord w x) = residue signed w x.trunc ↔ AliasShows signed w x.trunc := by
  have hzero : residue true w 0 = residue signed w 0 := by simp [residue]
  have hsmall : ¬ 4 ≤ w → (residue true w (aliasWord w x) = residue signed w x.trunc ↔ 2^(8*w) ∣ x.trunc) := by
    intro hw
    rw [aliasWord, if_neg hw, Nat.cast_zero, hzero, residue_eq_iff, Int.zero_emod, Int.dvd_iff_emod_eq_zero]
    exact eq_comm
  obtain rfl | rfl | rfl := hw
  · rw [AliasShows, if_neg (by decide)]
    exact hsmall (by decide)
  · rw [AliasShows, if_neg (by decide)]
    exact hsmall (by decide)
  · have hword : ((x.asInt64.toNat % 2^32 : ℕ) : ℤ) % 2^(8*4) = (x.asInt64.toNat : ℤ) % 2^(8*4) := by
      push_cast
      exact Int.emod_emod_of_dvd _ dvd_rfl
    rw [AliasShows, if_pos rfl, aliasWord, if_pos le_rfl]
    cases signed with
    | true =>
      rw [residue_eq_iff, hword, asInt64_emod_iff hx (by decide) (by decide)]
      exact (and_iff_left (.inl rfl)).symm
    | false =>
      rw [residue_signed_unsigned (by decide), hword, asInt64_emod_iff hx (by decide) (by decide)]
      exact and_congr_right fun _ => ⟨.inr, fun h => h.resolve_left Bool.false_ne_true⟩

end Alias

/-! ### Elements -/

/-- The number that a float shows, as single precision rounds it. -/
def single (x : F64) : F64 := (F64.ofF32 x.asF32).normalize

/-- The numbers that an element shows after they are written to it. `direct` says that its type is predefined and not
the name of another one. -/
def ElementExact (direct : Prop) (x : F64) : Scalar → Prop
  | .bool => False
  | .int signed w =>
    if w = 16 then KeepsWord x.trunc
    else if w = 8 then direct ∧ Keeps signed 8 x.trunc
    else direct ∧ Keeps signed w x.trunc ∨ ¬ direct ∧ AliasShows signed w x.trunc
  | .float => direct ∨ single x = (F64.ofInt ((satI64 x.trunc).bmod (2^32))).normalize
  | .double => direct ∨ 0 ≤ x.trunc ∧ x.trunc < 2^32 ∧ x.normalize = .ofInt x.trunc

section Element
variable {id base w : ℕ} {signed : Bool} {x y : F64} {bs : List UInt8} {sc : Scalar}

theorem wide_scalar (hid : id = CTypeID.int64 ∨ id = CTypeID.uint64) : ∃ signed, scalarOf id = some (.int signed 8) := by
  obtain rfl | rfl := hid
  · exact ⟨true, by decide⟩
  · exact ⟨false, by decide⟩

theorem not_wide (h : ∀ s, scalarOf id ≠ some (.int s 8)) : ¬ (id = CTypeID.int64 ∨ id = CTypeID.uint64) := by
  intro hid
  obtain ⟨s, hs⟩ := wide_scalar hid
  exact h s hs

theorem elementValue_num (hne : ¬ (id = CTypeID.int64 ∨ id = CTypeID.uint64))
    (h : cdataToNumber ⟨.ofNat id, bs, none, 0⟩ = .ok (some y)) : elementValue id bs = .ok (.num y.normalize) := by
  rw [elementValue, if_neg hne, h]
  rfl

theorem elementValue_obj (h : id = CTypeID.int64 ∨ id = CTypeID.uint64 ∨
    cdataToNumber ⟨.ofNat id, bs, none, 0⟩ = .ok none) : elementValue id bs = .ok (.obj ⟨.ofNat id, bs, none, 0⟩) := by
  by_cases hwide : id = CTypeID.int64 ∨ id = CTypeID.uint64
  · rw [elementValue, if_pos hwide]
  · have hnone := (or_assoc.mpr h).resolve_left hwide
    rw [elementValue, if_neg hwide, hnone]
    rfl

/-- An object of `w` bytes shows the integer that it holds exactly. -/
theorem shows_exact {n : ℕ} {t : ℤ} :
    (Val.obj ⟨.ofNat id, toLE w n, none, 0⟩).Shows id (.exact (toLE w (t % 2^(8*w)).toNat)) ↔
      toLE w n = toLE w (t % 2^(8*w)).toNat := by
  rw [Val.Shows, CData.mk.injEq]
  exact ⟨fun h => h.2.1, fun h => ⟨rfl, h, rfl, rfl⟩⟩

theorem convert_small (hw : w ≤ 4) : (Scalar.int signed w).convert x = .num (.ofInt (residue signed w x.trunc)) :=
  if_pos hw

theorem convert_wide (hw : ¬ w ≤ 4) :
    (Scalar.int signed w).convert x = .exact (toLE w (x.trunc % 2^(8*w)).toNat) := if_neg hw

/-- An integer in an object of 16 bytes. -/
theorem element_int128 (hx : x.isNaN = false) (hid : id < 2^32)
    (hsc : scalarOf id = some (.int signed 16) ∨ scalarOf id = none) :
    Returned id (elementValue id (stored id 16 x)) ((Scalar.int signed 16).convert x) ↔ KeepsWord x.trunc := by
  have hbytes : scalarBytes id x = toLE 4 x.asInt64.toNat := by
    cases hsc with
    | inl h => rw [scalarBytes_direct h]; rfl
    | inr h => exact scalarBytes_alias h
  have hnone : ∀ bs : List UInt8, bs.length = 16 → cdataToNumber ⟨.ofNat id, bs, none, 0⟩ = .ok none := by
    intro bs hbs
    cases hsc with
    | inl h =>
      rw [cdataToNumber_direct h, Scalar.read, if_neg (by omega), if_neg (by omega), if_neg (by omega), if_neg (by omega)]
      all_goals simp
    | inr h =>
      rw [cdataToNumber_alias bs hid h, if_neg (by omega), if_neg (by omega)]
  rw [stored_word hbytes, if_pos (by decide), elementValue_obj (.inr (.inr (hnone _ (length_toLE ..)))), returned_ok,
    convert_wide (by decide), shows_exact, word_iff hx]

theorem stored_int (h : scalarOf id = some (.int signed w)) (hw : w ≤ 8) : stored id w x = toLE w (written signed x) := by
  have hs := stored_direct (x := x) h (by rw [Scalar.size]; exact hw)
  rw [Scalar.size, Scalar.bytes, if_neg (by omega)] at hs
  exact hs

theorem wide_id (h : scalarOf id = some (.int signed 8)) : id = CTypeID.int64 ∨ id = CTypeID.uint64 := by
  have hall : ∀ p ∈ scalars, ∀ s, p.2 = .int s 8 → p.1 = CTypeID.int64 ∨ p.1 = CTypeID.uint64 := by decide
  exact hall _ (scalarOf_some h) signed rfl

theorem wide_none (h : scalarOf id = none) : ¬ (id = CTypeID.int64 ∨ id = CTypeID.uint64) :=
  not_wide fun s hs => by rw [h] at hs; simp at hs

/-- A small integer with a type of its own. -/
theorem element_small (hx : x.isNaN = false) (h : scalarOf id = some (.int signed w)) (hw : w = 1 ∨ w = 2 ∨ w = 4) :
    Returned id (elementValue id (stored id w x)) ((Scalar.int signed w).convert x) ↔ Keeps signed w x.trunc := by
  have hle : w ≤ 4 := by omega
  have hne : ¬ (id = CTypeID.int64 ∨ id = CTypeID.uint64) := by
    refine not_wide fun s hs => ?_
    rw [h] at hs
    injection Option.some.inj hs with _ hw8
    omega
  have hread : cdataToNumber ⟨.ofNat id, toLE w (written signed x), none, 0⟩ =
      .ok (some (.ofInt (residue signed w (ofLE (toLE w (written signed x)))))) :=
    (cdataToNumber_direct h).trans (read_int hw (length_toLE ..))
  rw [stored_int h (by omega), elementValue_num hne hread, returned_ok, convert_small hle, Val.Shows, residue_ofLE,
    normalize_ofInt_inj (natAbs_residue hle) (natAbs_residue hle), residue_eq_iff, written_emod_iff hx (by omega) (by omega)]

/-- An integer of eight bytes with a type of its own. -/
theorem element_wide (hx : x.isNaN = false) (h : scalarOf id = some (.int signed 8)) :
    Returned id (elementValue id (stored id 8 x)) ((Scalar.int signed 8).convert x) ↔ Keeps signed 8 x.trunc := by
  rw [stored_int h le_rfl, elementValue_obj (or_assoc.mp (.inl (wide_id h))), returned_ok, convert_wide (by decide),
    shows_exact, toLE_eq_iff, written_emod_iff hx (by decide) (by decide)]

/-- A truth value never shows. -/
theorem not_returned_bool {m : Except Fault Val} {b : Bool} : ¬ Returned id m (.bool b) := by
  rintro ⟨v, -, hv⟩
  cases v <;> exact hv

/-- An object of eight bytes never shows as a number. -/
theorem not_returned_exact {y : F64} : ¬ Returned id (.ok (.num y)) (.exact bs) := fun h => returned_ok.mp h

theorem elementValue_alias (h : scalarOf id = none) {r : Option F64}
    (hr : cdataToNumber ⟨.ofNat id, bs, none, 0⟩ = .ok r) :
    elementValue id bs = .ok ((r.map fun x => Val.num x.normalize).getD (.obj ⟨.ofNat id, bs, none, 0⟩)) := by
  rw [elementValue, if_neg (wide_none h), hr]
  rfl

/-- A small integer with the name of another type. -/
theorem element_small_alias (hx : x.isNaN = false) (hid : id < 2^32) (h : scalarOf id = none) (hw : w = 1 ∨ w = 2 ∨ w = 4) :
    Returned id (elementValue id (stored id w x)) ((Scalar.int signed w).convert x) ↔ AliasShows signed w x.trunc := by
  have hle : w ≤ 4 := by omega
  have hread := cdataToNumber_alias (toLE w (aliasWord w x)) hid h
  rw [length_toLE, if_pos hw, residue_ofLE] at hread
  rw [stored_alias h, elementValue_alias h hread, returned_ok, convert_small hle]
  exact (normalize_ofInt_inj (natAbs_residue hle) (natAbs_residue hle)).trans (alias_iff hx hw)

/-- The number in eight bytes of another type. -/
theorem elementValue_alias_eight (hid : id < 2^32) (h : scalarOf id = none) (hbs : bs.length = 8) :
    elementValue id bs = .ok (.num (F64.ofInt64 (le 64 bs)).normalize) := by
  have hread := cdataToNumber_alias bs hid h
  rw [if_neg (by omega), if_pos hbs] at hread
  exact elementValue_alias h hread

theorem element_float (h : scalarOf id = some .float) :
    Returned id (elementValue id (stored id 4 x)) (Scalar.float.convert x) := by
  have hstored : stored id 4 x = toLE 4 x.asF32.toNat := stored_direct h (by decide)
  have hne : ¬ (id = CTypeID.int64 ∨ id = CTypeID.uint64) := not_wide fun s hs => by rw [h] at hs; simp at hs
  have hread : cdataToNumber ⟨.ofNat id, toLE 4 x.asF32.toNat, none, 0⟩ = .ok (some (.ofF32 x.asF32)) := by
    have hle : le 32 (toLE 4 x.asF32.toNat) = x.asF32 := le_toLE rfl
    rw [cdataToNumber_direct h, Scalar.read, slice_all (length_toLE ..), ok_bind, hle]
    rfl
  rw [hstored, elementValue_num hne hread]
  exact returned_ok.mpr rfl

theorem element_double (h : scalarOf id = some .double) :
    Returned id (elementValue id (stored id 8 x)) (Scalar.double.convert x) := by
  have hstored : stored id 8 x = toLE 8 x.bits.toNat := stored_direct h (by decide)
  have hne : ¬ (id = CTypeID.int64 ∨ id = CTypeID.uint64) := not_wide fun s hs => by rw [h] at hs; simp at hs
  have hread : cdataToNumber ⟨.ofNat id, toLE 8 x.bits.toNat, none, 0⟩ = .ok (some x) := by
    rw [cdataToNumber_direct h, Scalar.read, slice_all (length_toLE ..)]
    exact congrArg (fun y => Except.ok (some y)) (f64OfLe_toLE x)
  rw [hstored, elementValue_num hne hread]
  exact returned_ok.mpr rfl

theorem element_float_alias (hx : x.isNaN = false) (hid : id < 2^32) (h : scalarOf id = none) :
    Returned id (elementValue id (stored id 4 x)) (Scalar.float.convert x) ↔
      single x = (F64.ofInt ((satI64 x.trunc).bmod (2^32))).normalize := by
  have hread := cdataToNumber_alias (toLE 4 (aliasWord 4 x)) hid h
  rw [length_toLE, if_pos (.inr (.inr rfl)), residue_ofLE] at hread
  have hword : residue true 4 (aliasWord 4 x) = (satI64 x.trunc).bmod (2^32) := by
    rw [cast_aliasWord hx le_rfl]
    exact Int.emod_bmod (n := 2^32) _
  rw [stored_alias h, elementValue_alias h hread, returned_ok, hword]
  exact eq_comm

theorem element_double_alias (hx : x.isNaN = false) (hid : id < 2^32) (h : scalarOf id = none) :
    Returned id (elementValue id (stored id 8 x)) (Scalar.double.convert x) ↔
      0 ≤ x.trunc ∧ x.trunc < 2^32 ∧ x.normalize = .ofInt x.trunc := by
  have hlt : aliasWord 8 x < 2^32 := by
    rw [aliasWord, if_pos (by decide)]
    exact Nat.mod_lt _ (by positivity)
  have hcast : (aliasWord 8 x : ℤ) = satI64 x.trunc % 2^32 := cast_aliasWord hx (by decide)
  have hint : (le 64 (toLE 8 (aliasWord 8 x))).toInt = aliasWord 8 x := by
    rw [le, BitVec.toInt_ofNat', ofLE_toLE, Int.bmod_eq_of_le]
    · omega
    · omega
    · omega
  have hsmall : (aliasWord 8 x : ℤ).natAbs < 2^53 := by omega
  rw [stored_alias h, elementValue_alias_eight hid h (length_toLE ..), returned_ok,
    F64.ofInt64_small (by rw [hint]; exact hsmall), hint, Scalar.convert, Val.Shows, F64.normalize_ofInt hsmall]
  constructor
  · intro hshow
    have htrunc := congrArg F64.trunc hshow
    rw [F64.trunc_ofInt hsmall, F64.trunc_normalize hx] at htrunc
    exact ⟨by omega, by omega, by rw [← htrunc, hshow]⟩
  · rintro ⟨hlo, hhi, hint⟩
    have hword : (aliasWord 8 x : ℤ) = x.trunc := by
      rw [hcast, satI64]
      omega
    rw [hword, hint]

/-- The numbers that an element shows. -/
theorem element_iff_exact (hx : x.isNaN = false) (hid : id < 2^32) (hsc : scalarOf base = some sc)
    (hname : id = base ∨ scalarOf id = none) :
    Returned id (elementValue id (stored id sc.size x)) (sc.convert x) ↔ ElementExact (id = base) x sc := by
  have hdirect : scalarOf id = none → ¬ id = base := by
    rintro h rfl
    rw [h] at hsc
    simp at hsc
  obtain rfl | rfl | rfl | ⟨signed, w, rfl, hw⟩ := scalar_width hsc
  · exact iff_of_false not_returned_bool False.elim
  · cases hname with
    | inl hbase =>
      subst hbase
      exact iff_of_true (element_float hsc) (.inl rfl)
    | inr hnone => exact (element_float_alias hx hid hnone).trans (or_iff_right (hdirect hnone)).symm
  · cases hname with
    | inl hbase =>
      subst hbase
      exact iff_of_true (element_double hsc) (.inl rfl)
    | inr hnone => exact (element_double_alias hx hid hnone).trans (or_iff_right (hdirect hnone)).symm
  · rw [Scalar.size, ElementExact]
    by_cases h16 : w = 16
    · subst h16
      rw [if_pos rfl]
      refine element_int128 hx hid ?_
      cases hname with
      | inl hbase => exact .inl (hbase ▸ hsc)
      | inr hnone => exact .inr hnone
    · rw [if_neg h16]
      by_cases h8 : w = 8
      · subst h8
        rw [if_pos rfl]
        cases hname with
        | inl hbase =>
          subst hbase
          exact (element_wide hx hsc).trans (and_iff_right rfl).symm
        | inr hnone =>
          rw [elementValue_alias_eight hid hnone length_stored, convert_wide (by decide)]
          exact iff_of_false not_returned_exact fun h => hdirect hnone h.1
      · have hsmall : w = 1 ∨ w = 2 ∨ w = 4 := by omega
        rw [if_neg h8]
        cases hname with
        | inl hbase =>
          subst hbase
          rw [element_small hx hsc hsmall]
          exact ⟨fun h => .inl ⟨rfl, h⟩, fun h => h.elim And.right fun h => absurd rfl h.1⟩
        | inr hnone =>
          have hne := hdirect hnone
          rw [element_small_alias hx hid hnone hsmall]
          exact ⟨fun h => .inr ⟨hne, h⟩, fun h => h.elim (fun h => absurd h.1 hne) And.right⟩

end Element

end Ffi
end LuajitRs
