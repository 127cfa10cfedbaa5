import LuajitRs.Ffi.Access
import LuajitRs.Lib.Ensures

/-! Positions as exact integers: when the checked arithmetic on them returns, and what it returns. -/
namespace LuajitRs
open Lib

/-- The values of `i64`. -/
def I64 (z : ℤ) : Prop := -2^63 ≤ z ∧ z < 2^63

/-- No error is allowed. -/
abbrev Returns {α : Type} (m : Except Fault α) (Q : α → Prop) : Prop := Ensures (fun _ => False) m Q

theorem returns_addI64 {x y : ℤ} {Q : ℤ → Prop} : Returns (addI64 x y) Q ↔ I64 (x + y) ∧ Q (x + y) := by
  unfold addI64
  split
  · next h => exact ⟨fun hq => ⟨h, hq⟩, And.right⟩
  · next h => exact ⟨False.elim, fun hq => h hq.1⟩

namespace CDataHeap
variable (h : CDataHeap)

/-- The exact offset of an object into its storage. -/
def locateFrom : ℕ → ℤ → ℕ → ℤ × ℕ
  | 0, off, a => (off, a)
  | fuel + 1, off, a =>
    match (h.get a).base with
    | some b => locateFrom fuel (off + (h.get a).offset) b
    | none => (off, a)

def locate (a : ℕ) : ℤ × ℕ := h.locateFrom a 0 a

/-- Every partial sum along a chain of aliases fits in 64 bits. -/
def ChainFits : ℕ → ℤ → ℕ → Prop
  | 0, _, _ => True
  | fuel + 1, off, a =>
    match (h.get a).base with
    | some b => I64 (off + (h.get a).offset) ∧ ChainFits fuel (off + (h.get a).offset) b
    | none => True

/-- The offsets along the aliases of an object add up without an overflow. -/
def Resolves (a : ℕ) : Prop := h.ChainFits a 0 a

theorem returns_resolveFrom {fuel : ℕ} {off : ℤ} {a : ℕ} {Q : ℤ × ℕ → Prop} :
    Returns (h.resolveFrom fuel off a) Q ↔ h.ChainFits fuel off a ∧ Q (h.locateFrom fuel off a) := by
  induction fuel generalizing off a with
  | zero => exact ⟨fun hq => ⟨trivial, hq⟩, And.right⟩
  | succ fuel ih =>
    rw [resolveFrom, ChainFits, locateFrom]
    cases hb : (h.get a).base with
    | none => exact ⟨fun hq => ⟨trivial, hq⟩, And.right⟩
    | some b =>
      dsimp only
      rw [Returns, Ensures.bind_iff, ← Returns, returns_addI64]
      exact (and_congr_right fun _ => ih).trans and_assoc.symm

theorem returns_resolvePtr {a : ℕ} {Q : ℤ × ℕ → Prop} :
    Returns (h.resolvePtr a) Q ↔ h.Resolves a ∧ Q (h.locate a) := returns_resolveFrom h

theorem chainFits_locateFrom {fuel : ℕ} {off : ℤ} {a : ℕ} (hoff : I64 off) (hc : h.ChainFits fuel off a) :
    I64 (h.locateFrom fuel off a).1 := by
  induction fuel generalizing off a with
  | zero => exact hoff
  | succ fuel ih =>
    rw [ChainFits] at hc
    rw [locateFrom]
    cases hb : (h.get a).base with
    | none => exact hoff
    | some b =>
      rw [hb] at hc
      exact ih hc.1 hc.2

theorem Resolves.i64 {a : ℕ} (hc : h.Resolves a) : I64 (h.locate a).1 :=
  chainFits_locateFrom h ⟨by omega, by omega⟩ hc

end CDataHeap

namespace Ffi

/-! ### Indices -/

/-- The end of `n` bytes from a position on, as unsigned numbers, does not overflow. -/
def EndFits (z : ℤ) (n : ℕ) : Prop := (0 ≤ z → z + n < 2^64) ∧ (z < 0 → z + n < 0)

/-- The `n` bytes from a position on lie in a storage of `len` bytes. -/
def Within (z : ℤ) (n len : ℕ) : Prop := 0 ≤ z ∧ z + n ≤ len

instance (z : ℤ) (n len : ℕ) : Decidable (Within z n len) := inferInstanceAs (Decidable (_ ∧ _))

/-- The position as an index. -/
def index (z : ℤ) (n len : ℕ) : Option ℕ := if Within z n len then some z.toNat else none

theorem asUsize_of_nonneg {z : ℤ} (h : 0 ≤ z) (hz : I64 z) : (asUsize z : ℤ) = z := by
  rw [asUsize, BitVec.toNat_ofInt, I64] at *
  omega

theorem asUsize_of_neg {z : ℤ} (h : z < 0) (hz : I64 z) : (asUsize z : ℤ) = z + 2^64 := by
  rw [asUsize, BitVec.toNat_ofInt, I64] at *
  omega

theorem returns_indexAt {z : ℤ} {n len : ℕ} {Q : Option ℕ → Prop} (hz : I64 z) (hlen : len < 2^63) :
    Returns (indexAt z n len) Q ↔ EndFits z n ∧ Q (index z n len) := by
  have hbound := hz
  rw [I64] at hbound
  rw [indexAt, Returns, Ensures.bind_iff, addUsize]
  by_cases hneg : z < 0
  · have ha := asUsize_of_neg hneg hz
    have hindex : index z n len = none := if_neg fun hw => absurd hw.1 (by omega)
    by_cases hend : z + n < 0
    · rw [if_pos (by omega), Ensures.ok_iff, if_neg (by omega), hindex]
      exact ⟨fun hq => ⟨⟨fun h => absurd h (by omega), fun _ => hend⟩, hq⟩, And.right⟩
    · rw [if_neg (by omega), Ensures.error_iff]
      exact ⟨False.elim, fun hq => hend (hq.1.2 hneg)⟩
  · have ha := asUsize_of_nonneg (by omega) hz
    have hnat : asUsize z = z.toNat := by omega
    by_cases hend : z + n < 2^64
    · rw [if_pos (by omega), Ensures.ok_iff, hnat]
      have hif : (if z.toNat + n ≤ len then some z.toNat else none) = index z n len :=
        if_congr (by rw [Within]; omega) rfl rfl
      rw [hif]
      exact ⟨fun hq => ⟨⟨fun _ => hend, fun h => absurd h hneg⟩, hq⟩, And.right⟩
    · rw [if_neg (by omega), Ensures.error_iff]
      exact ⟨False.elim, fun hq => hend (hq.1.1 (by omega))⟩

theorem returns_fieldAt {boff offset : ℤ} {n len : ℕ} {Q : Option ℕ → Prop} (hlen : len < 2^63) :
    Returns (fieldAt boff offset n len) Q ↔
      I64 (boff + offset) ∧ EndFits (boff + offset) n ∧ Q (index (boff + offset) n len) := by
  rw [fieldAt, Returns, Ensures.bind_iff, ← Returns, returns_addI64]
  exact and_congr_right fun hz => returns_indexAt hz hlen

/-- The position of an element by the wrapped product. -/
def elemPos (off idx : ℤ) (elemSz : ℕ) : ℤ := off + wrapI64 (idx * elemSz)

theorem returns_elemAt {off idx : ℤ} {elemSz len : ℕ} {Q : Option ℕ → Prop} :
    Returns (elemAt off idx elemSz len) Q ↔
      I64 (elemPos off idx elemSz) ∧ (0 ≤ elemPos off idx elemSz → elemPos off idx elemSz + elemSz < 2^63) ∧
        Q (index (elemPos off idx elemSz) elemSz len) := by
  rw [elemAt, Returns, Ensures.bind_iff, ← Returns, returns_addI64, ← elemPos]
  refine and_congr_right fun hz => ?_
  rw [I64] at hz
  generalize elemPos off idx elemSz = p at *
  by_cases hneg : p < 0
  · have hindex : index p elemSz len = none := if_neg fun hw => absurd hw.1 (by omega)
    rw [if_pos hneg, hindex]
    exact ⟨fun hq => ⟨fun h => absurd h (by omega), hq⟩, And.right⟩
  · rw [if_neg hneg, Ensures.bind_iff, ← Returns, returns_addI64, I64]
    have hif : (if (len : ℤ) < p + elemSz then none else some p.toNat) = index p elemSz len := by
      by_cases hend : (len : ℤ) < p + elemSz
      · rw [if_pos hend, index, if_neg fun hw => absurd hw.2 (by omega)]
      · rw [if_neg hend, index, if_pos ⟨by omega, by omega⟩]
    rw [pure_eq_ok, Ensures.ok_iff, hif]
    exact and_congr_left fun _ => ⟨fun h _ => h.2, fun h => ⟨by omega, h (by omega)⟩⟩

/-- A wrapped position inside of the storage is the exact one when that lies inside too. -/
theorem elemPos_eq {off idx : ℤ} {elemSz len : ℕ} (hlen : len < 2^63) (hp : Within (elemPos off idx elemSz) elemSz len)
    (ha : Within (off + idx * elemSz) elemSz len) : elemPos off idx elemSz = off + idx * elemSz := by
  have hmod : wrapI64 (idx * elemSz) % 2^64 = (idx * elemSz) % 2^64 := by
    rw [wrapI64, BitVec.toInt_ofInt]
    exact Int.bmod_emod ..
  rw [Within, elemPos] at *
  generalize idx * (elemSz : ℤ) = q at *
  omega

end Ffi
end LuajitRs

/-! The types that accesses go by: the predefined ones, the parts of complex numbers, and payloads of the right size. -/
namespace LuajitRs.Ffi
open Lib Lib.Bytes

theorem returns_slice {d : List UInt8} {a n : ℕ} {Q : List UInt8 → Prop} :
    Returns (slice d a n) Q ↔ a + n ≤ d.length ∧ Q (window d a n) := by
  unfold slice
  split
  · next h => exact ⟨fun hq => ⟨h, hq⟩, And.right⟩
  · next h => exact ⟨False.elim, fun hq => h hq.1⟩

theorem ite_ok {α : Type} {P : Prop} [Decidable P] {m k : Except Fault α} (hm : P → ∃ r, m = .ok r)
    (hk : ¬ P → ∃ r, k = .ok r) : ∃ r, (if P then m else k) = .ok r := by
  split
  · next h => exact hm h
  · next h => exact hk h

theorem resolveFrom_of_raw {cts : CTState} {fuel id : ℕ} (ha : ctypeIsAttrib (cts.get id).info = false)
    (ht : ctypeIsTypedef (cts.get id).info = false) : cts.resolveFrom fuel id = id := by
  cases fuel with
  | zero => rfl
  | succ fuel => rw [CTState.resolveFrom, ha, ht]; rfl

theorem ctypeCid_lt (info : CTInfo) : ctypeCid info < 2^16 := by
  rw [ctypeCid, BitVec.toNat_and]
  exact Nat.lt_of_le_of_lt Nat.and_le_right (by decide)

theorem isArray_of_isComplex {info : CTInfo} (h : ctypeIsComplex info = true) : ctypeIsArray info = true := by
  rw [ctypeIsComplex, decide_eq_true_eq] at h
  have hcode : info >>> 28 = 3#32 := by
    have hhigh : (info &&& (CTInfo.MASK_NUM ||| CTInfo.COMPLEX)) >>> 28 = ctInfo .array CTInfo.COMPLEX >>> 28 := by rw [h]
    rw [BitVec.ushiftRight_and_distrib] at hhigh
    have hmask : (CTInfo.MASK_NUM ||| CTInfo.COMPLEX) >>> 28 = 15#32 := by decide
    have hctInfo : ctInfo .array CTInfo.COMPLEX >>> 28 = 3#32 := by decide
    rw [hmask, hctInfo] at hhigh
    have hnat := congrArg BitVec.toNat hhigh
    have hand : (info >>> 28 &&& 15#32).toNat = (info >>> 28).toNat % 2^4 := by
      rw [BitVec.toNat_and]
      exact Nat.and_two_pow_sub_one_eq_mod _ 4
    have hlt : (info >>> 28).toNat < 2^4 := by
      have hinfo := info.isLt
      rw [BitVec.toNat_ushiftRight, Nat.shiftRight_eq_div_pow]
      omega
    rw [hand, Nat.mod_eq_of_lt hlt] at hnat
    exact BitVec.eq_of_toNat_eq hnat
  rw [ctypeIsArray, ctypeType, hcode]
  decide

namespace FfiState
variable (s : FfiState)

/-- A predefined number is no typedef. -/
theorem raw_predefined {id : ℕ} (hlo : CTypeID.bool ≤ id) (hhi : id ≤ CTypeID.complexDouble) :
    s.cts.raw id = CTState.new.get id := by
  have hget := s.predefined_kept id hlo hhi
  have hpredef : ∀ k < 19, 3 ≤ k → ctypeIsAttrib (CTState.new.get k).info = false ∧
      ctypeIsTypedef (CTState.new.get k).info = false := by decide
  have hraw := hpredef id (Nat.lt_succ_of_le hhi) hlo
  rw [CTState.raw, CTState.resolveRawId, resolveFrom_of_raw (by rw [hget]; exact hraw.1) (by rw [hget]; exact hraw.2), hget]

/-- A complex type is one of two, and its size is twice the size of its parts. -/
theorem raw_complex {id : ℕ} (h : ctypeIsComplex (s.cts.raw id).info = true) :
    ((s.cts.raw (ctypeCid (s.cts.raw id).info)).size = 4 ∨ (s.cts.raw (ctypeCid (s.cts.raw id).info)).size = 8) ∧
      (s.cts.raw id).size = (s.cts.raw (ctypeCid (s.cts.raw id).info)).size * 2 := by
  have hraw : s.cts.raw id = CTState.new.get CTypeID.complexFloat ∨ s.cts.raw id = CTState.new.get CTypeID.complexDouble := by
    cases s.complex_predefined _ h with
    | inl hid => exact .inl (by rw [CTState.raw, hid]; exact s.predefined_kept _ (by decide) (by decide))
    | inr hid => exact .inr (by rw [CTState.raw, hid]; exact s.predefined_kept _ (by decide) (by decide))
  have hfloat : (s.cts.raw CTypeID.float).size = 4 := by rw [s.raw_predefined (by decide) (by decide)]; rfl
  have hdouble : (s.cts.raw CTypeID.double).size = 8 := by rw [s.raw_predefined (by decide) (by decide)]; rfl
  cases hraw with
  | inl hraw =>
    have hcid : ctypeCid (s.cts.raw id).info = CTypeID.float := by rw [hraw]; decide
    rw [hcid, hfloat, hraw]
    exact ⟨.inl rfl, rfl⟩
  | inr hraw =>
    have hcid : ctypeCid (s.cts.raw id).info = CTypeID.double := by rw [hraw]; decide
    rw [hcid, hdouble, hraw]
    exact ⟨.inr rfl, rfl⟩

theorem elemTypeId_lt (cd : ℕ) : s.elemTypeId cd < 2^32 := by
  unfold elemTypeId
  split
  · exact (ctypeCid_lt _).trans (by decide)
  · exact (s.heap.get cd).ctypeid.toNat_lt

/-- The size of a predefined number with a fixed width. -/
theorem size_predefined {id : ℕ} (hlo : CTypeID.bool ≤ id) (hhi : id ≤ CTypeID.complexDouble) :
    (s.cts.raw id).size = (CTState.new.get id).size := by rw [raw_predefined s hlo hhi]

/-- An object with a payload of the size of its type has a number or none. -/
theorem cdataToNumber_returns {id : ℕ} {d : List UInt8} (hid : id < 2^32) (hd : d.length = (s.cts.raw id).size) :
    ∃ r, cdataToNumber ⟨.ofNat id, d, none, 0⟩ = .ok r := by
  have hnat : (UInt32.ofNat id).toNat = id := by
    rw [UInt32.toNat_ofNat']
    exact Nat.mod_eq_of_lt hid
  have hslice : ∀ {n : ℕ} {f : List UInt8 → F64}, n ≤ d.length →
      ∃ r, (do return some (f (← slice d 0 n)) : Except Fault (Option F64)) = .ok r := by
    intro n f hn
    exact ⟨_, by rw [slice, if_pos (by omega)]; rfl⟩
  have hsize : ∀ {k : ℕ}, id = k → CTypeID.bool ≤ k → k ≤ CTypeID.complexDouble →
      d.length = (CTState.new.get k).size := by
    rintro k rfl hlo hhi
    rw [hd, size_predefined s hlo hhi]
  unfold cdataToNumber
  dsimp only
  rw [hnat]
  refine ite_ok (fun _ => ⟨_, rfl⟩) fun _ => ?_
  refine ite_ok (fun _ => ⟨_, rfl⟩) fun _ => ?_
  refine ite_ok (fun _ => ⟨_, rfl⟩) fun _ => ?_
  refine ite_ok (fun _ => ⟨_, rfl⟩) fun _ => ?_
  refine ite_ok (fun h => hslice (hsize h (by decide) (by decide)).ge) fun _ => ?_
  refine ite_ok (fun h => hslice (hsize h (by decide) (by decide)).ge) fun _ => ?_
  refine ite_ok (fun h => hslice (hsize h (by decide) (by decide)).ge) fun _ => ?_
  refine ite_ok (fun h => hslice (hsize h (by decide) (by decide)).ge) fun _ => ?_
  refine ite_ok (fun _ => ⟨_, rfl⟩) fun _ => ?_
  refine ite_ok (fun _ => ⟨_, rfl⟩) fun _ => ?_
  refine ite_ok (fun h => hslice (hsize h (by decide) (by decide)).ge) fun _ => ?_
  refine ite_ok (fun h => hslice (hsize h (by decide) (by decide)).ge) fun _ => ?_
  refine ite_ok (fun _ => ⟨_, rfl⟩) fun _ => ?_
  refine ite_ok (fun _ => ⟨_, rfl⟩) fun _ => ?_
  refine ite_ok (fun _ => ⟨_, rfl⟩) fun _ => ?_
  exact ite_ok (fun _ => ⟨_, rfl⟩) fun _ => ⟨_, rfl⟩

end FfiState

end LuajitRs.Ffi
