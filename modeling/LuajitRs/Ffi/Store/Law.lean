import LuajitRs.Ffi.Access.Bounds
import LuajitRs.Ffi.Access.Safe
import LuajitRs.Ffi.Store.Fields

/-! Storing a number in a part of an object and loading it again, for elements and for members of structs. After the
writes of an access the bytes of one object are changed, and nothing that finds them. -/
namespace LuajitRs
open Lib Lib.Bytes

/-- The bytes `bs` put into a payload, where they fit. -/
def CData.store (c : CData) (a : ℕ) (bs : List UInt8) : CData :=
  if a + bs.length ≤ c.data.length then { c with data := splice c.data a bs } else c

section Object
variable {c : CData} {a : ℕ} {bs : List UInt8}

theorem CData.store_fits (h : a + bs.length ≤ c.data.length) : c.store a bs = { c with data := splice c.data a bs } :=
  if_pos h

theorem CData.base_store : (c.store a bs).base = c.base := by
  unfold store
  split
  · rfl
  · rfl

theorem CData.offset_store : (c.store a bs).offset = c.offset := by
  unfold store
  split
  · rfl
  · rfl

theorem CData.ctypeid_store : (c.store a bs).ctypeid = c.ctypeid := by
  unfold store
  split
  · rfl
  · rfl

theorem CData.length_store : (c.store a bs).data.length = c.data.length := by
  unfold store
  split
  · next h => exact length_splice h
  · rfl

/-- There is no room for bytes in an object that does not exist. -/
theorem CData.store_empty : (⟨0, [], none, 0⟩ : CData).store a bs = ⟨0, [], none, 0⟩ := by
  unfold store
  split
  · next hfit =>
    have hbs : bs = [] := List.length_eq_zero_iff.mp (by simpa using Nat.le_trans (Nat.le_add_left ..) hfit)
    rw [hbs, splice, List.take_nil, List.drop_nil]
    rfl
  · rfl

end Object

namespace CDataHeap
variable (h : CDataHeap) (obj a : ℕ) (bs : List UInt8)

def store : CDataHeap where
  objs := h.objs.modify obj fun c => c.store a bs
  dataPtr := h.dataPtr
  base_lt := by
    intro i d b hd hb
    rw [List.getElem?_modify] at hd
    obtain ⟨c, hc, hcd⟩ := Option.map_eq_some_iff.mp hd
    refine h.base_lt i c b hc ?_
    split at hcd
    · rw [← hcd, CData.base_store] at hb
      exact hb
    · rw [hcd]
      exact hb

variable {h obj a bs} {j : ℕ}

theorem get_store : (h.store obj a bs).get j = if obj = j then (h.get j).store a bs else h.get j := by
  rw [get, get, List.getD_eq_getElem?_getD, List.getD_eq_getElem?_getD]
  rw [store, List.getElem?_modify]
  cases h.objs[j]? with
  | none =>
    split
    · exact CData.store_empty.symm
    · rfl
  | some c =>
    split
    · rfl
    · rfl

theorem base_get_store : ((h.store obj a bs).get j).base = (h.get j).base := by
  rw [get_store]
  split
  · exact CData.base_store
  · rfl

theorem offset_get_store : ((h.store obj a bs).get j).offset = (h.get j).offset := by
  rw [get_store]
  split
  · exact CData.offset_store
  · rfl

theorem ctypeid_get_store : ((h.store obj a bs).get j).ctypeid = (h.get j).ctypeid := by
  rw [get_store]
  split
  · exact CData.ctypeid_store
  · rfl

theorem length_get_store : ((h.store obj a bs).get j).data.length = (h.get j).data.length := by
  rw [get_store]
  split
  · exact CData.length_store
  · rfl

theorem locateFrom_store {fuel : ℕ} {off : ℤ} : (h.store obj a bs).locateFrom fuel off j = h.locateFrom fuel off j := by
  induction fuel generalizing off j with
  | zero => rfl
  | succ fuel ih =>
    rw [locateFrom, locateFrom, base_get_store, offset_get_store]
    cases (h.get j).base with
    | none => rfl
    | some b => exact ih

theorem locate_store : (h.store obj a bs).locate j = h.locate j := locateFrom_store

theorem chainFits_store {fuel : ℕ} {off : ℤ} : (h.store obj a bs).ChainFits fuel off j ↔ h.ChainFits fuel off j := by
  induction fuel generalizing off j with
  | zero => exact Iff.rfl
  | succ fuel ih =>
    rw [ChainFits, ChainFits, base_get_store, offset_get_store]
    cases (h.get j).base with
    | none => exact Iff.rfl
    | some b => exact and_congr_right fun _ => ih

theorem resolves_store : (h.store obj a bs).Resolves j ↔ h.Resolves j := chainFits_store

end CDataHeap

namespace Ffi
namespace FfiState

/-- The runtime after a write to a payload. -/
def store (s : FfiState) (obj a : ℕ) (bs : List UInt8) : FfiState :=
  { s with
    heap := s.heap.store obj a bs
    payload_lt := by
      intro j
      rw [CDataHeap.length_get_store]
      exact s.payload_lt j }

/-- The runtime after a touch. -/
def touch (s : FfiState) : Touch → FfiState
  | .read _ _ => s
  | .write (.payload obj a) bs => s.store obj a bs
  | .write (.raw addr) bs => { s with mem := fun p => bs.getD (p - addr).toNat (s.mem p) }

/-- The runtime after the touches of an access. -/
def after (s : FfiState) (ts : List Touch) : FfiState := ts.foldl touch s

variable {s : FfiState} {obj a j : ℕ} {bs : List UInt8}

theorem payload_store (h : a + bs.length ≤ (s.payload obj).length) : (s.store obj a bs).payload obj = splice (s.payload obj) a bs := by
  have hget : (s.store obj a bs).heap.get obj = (s.heap.get obj).store a bs := CDataHeap.get_store.trans (if_pos rfl)
  rw [payload, hget, CData.store_fits h]
  rfl

theorem payload_store_ne (h : obj ≠ j) : (s.store obj a bs).payload j = s.payload j := by
  have hget : (s.store obj a bs).heap.get j = s.heap.get j := CDataHeap.get_store.trans (if_neg h)
  rw [payload, hget]
  rfl

theorem length_payload_store : ((s.store obj a bs).payload j).length = (s.payload j).length := CDataHeap.length_get_store

theorem typeOf_store : (s.store obj a bs).typeOf j = s.typeOf j := congrArg UInt32.toNat CDataHeap.ctypeid_get_store

theorem rawOf_store : (s.store obj a bs).rawOf j = s.rawOf j := congrArg s.cts.raw typeOf_store

theorem elemTypeId_store : (s.store obj a bs).elemTypeId j = s.elemTypeId j := by
  rw [elemTypeId, rawOf_store, typeOf_store]
  rfl

end FfiState
end Ffi
end LuajitRs

namespace LuajitRs.Ffi
open Lib Lib.Bytes

/-- A part of an object: an element, or a member with its type and its offset. -/
inductive Part
  | element (idx : ℤ)
  | member (id off : ℕ)
  deriving DecidableEq, Repr

namespace FfiState
variable (s : FfiState)

def partType (cd : ℕ) : Part → ℕ
  | .element _ => s.elemTypeId cd
  | .member id _ => id

/-- Where a part starts in its storage. -/
def partPos (cd : ℕ) : Part → ℤ
  | .element idx => (s.heap.locate cd).1 + idx * s.elemSize cd
  | .member _ off => (s.heap.locate cd).1 + off

/-- The key names the part. An object that is indexed by its own storage changes its index when it is written. -/
def Names (cd : ℕ) (key : LuaValue) : Part → Prop
  | .element idx => s.indexNumber key = .ok (some idx) ∧ key ≠ .cdata (s.heap.locate cd).2
  | .member id off => ctypeIsStruct (s.rawOf cd).info = true ∧ id < 2^32 ∧
      ∃ k, key = .str k ∧ s.cts.fieldOffset (s.typeOf cd) (s.text k) = .ok (some (id, off))

/-- A number that is stored in a part loads as C converts it, and no other byte of any storage changes. -/
def StoreLoad (cd : ℕ) (key : LuaValue) (p : Part) (sc : Scalar) (x : F64) : Prop :=
  ∃ ts, s.cdataNewindex cd key (.num x) = .ok ts ∧
    (∃ v rs, (s.after ts).cdataIndex cd key = .ok (v, rs) ∧ v.Shows (s.partType cd p) (sc.convert x)) ∧
    ∀ (obj k : ℕ), (obj ≠ (s.heap.locate cd).2 ∨ (k : ℤ) < s.partPos cd p ∨ s.partPos cd p + sc.size ≤ k) →
      ((s.after ts).payload obj)[k]? = (s.payload obj)[k]?

/-- The type of a part is predefined and not the name of another one. -/
def Direct (cd : ℕ) (p : Part) : Prop := s.partType cd p = s.cts.resolveRawId (s.partType cd p)

/-- The number shows in a member at position `a` of a payload. A small integer behind 4 GiB is read from another
position, which has to hold the integer already. -/
def MemberExact (direct : Prop) (d : List UInt8) (a : ℕ) (x : F64) : Scalar → Prop
  | .int signed w =>
    if w ≤ 4 ∧ 2^32 ≤ a then residue true w (ofLE (window d (a % 2^32) w)) = residue signed w x.trunc
    else FieldExact direct x (.int signed w)
  | sc => FieldExact direct x sc

/-- The condition under which the law holds. -/
def Stores (cd : ℕ) (p : Part) (sc : Scalar) (x : F64) : Prop :=
  s.heap.Resolves cd ∧
    match p with
    | .element idx => I64 (idx * s.elemSize cd) ∧ ElementExact (s.Direct cd p) x sc
    | .member _ _ => MemberExact (s.Direct cd p) (s.payload (s.heap.locate cd).2) (s.partPos cd p).toNat x sc

/-! ### Types -/

theorem wrapI64_of_i64 {z : ℤ} (h : I64 z) : wrapI64 z = z := by
  rw [wrapI64, BitVec.toInt_ofInt]
  exact Int.bmod_eq_of_le h.1 h.2

variable {s} {cd id a : ℕ} {sc : Scalar}

theorem resolve_scalar (h : scalarOf id = some sc) : s.cts.resolveRawId id = id := by
  have hpredef : ∀ p ∈ scalars, CTypeID.bool ≤ p.1 ∧ p.1 ≤ CTypeID.complexDouble ∧
      ctypeIsAttrib (CTState.new.get p.1).info = false ∧ ctypeIsTypedef (CTState.new.get p.1).info = false := by decide
  obtain ⟨hlo, hhi, hattrib, htypedef⟩ := hpredef _ (scalarOf_some h)
  have hget := s.predefined_kept id hlo hhi
  exact resolveFrom_of_raw (by rw [hget]; exact hattrib) (by rw [hget]; exact htypedef)

theorem scalar_name : id = s.cts.resolveRawId id ∨ scalarOf id = none := by
  cases hid : scalarOf id with
  | none => exact .inr rfl
  | some sc' => exact .inl (resolve_scalar hid).symm

/-- What the entry of a scalar type says. -/
theorem scalar_entry (h : scalarOf (s.cts.resolveRawId id) = some sc) :
    (s.cts.raw id).size = sc.size ∧ ctypeIsNum (s.cts.raw id).info = true ∧ ctypeIsComplex (s.cts.raw id).info = false ∧
      ctypeIsPtr (s.cts.raw id).info = false ∧ ctypeIsFp (s.cts.raw id).info = sc.isFp := by
  have hall : ∀ p ∈ scalars, CTypeID.bool ≤ p.1 ∧ p.1 ≤ CTypeID.complexDouble ∧ (CTState.new.get p.1).size = p.2.size ∧
      ctypeIsNum (CTState.new.get p.1).info = true ∧ ctypeIsComplex (CTState.new.get p.1).info = false ∧
      ctypeIsPtr (CTState.new.get p.1).info = false ∧ ctypeIsFp (CTState.new.get p.1).info = p.2.isFp := by decide
  obtain ⟨hlo, hhi, hrest⟩ := hall _ (scalarOf_some h)
  rw [CTState.raw, s.predefined_kept _ hlo hhi]
  exact hrest

theorem size_pos (h : scalarOf id = some sc) : 0 < sc.size := by
  have hall : ∀ p ∈ scalars, 0 < p.2.size := by decide
  exact hall _ (scalarOf_some h)

/-! ### Elements -/

section Element
variable {key : LuaValue} {x : F64} {idx : ℤ}

/-- The address of an element that is found where it lies. -/
theorem elemAddr_exact {n : ℕ} (hptr : ctypeIsPtr (s.rawOf cd).info = false) (hres : s.heap.Resolves cd) (hq : I64 (idx * n))
    (ha : (a : ℤ) = (s.heap.locate cd).1 + idx * n) (hfit : a + n ≤ (s.payload (s.heap.locate cd).2).length) :
    s.cdataElemAddr cd idx n = .ok (some (.payload (s.heap.locate cd).2 a)) := by
  have hlen := s.payload_lt (s.heap.locate cd).2
  have hfit' : a + n ≤ (s.heap.get (s.heap.locate cd).2).data.length := hfit
  have hpos : elemPos (s.heap.locate cd).1 idx n = a := by
    rw [elemPos, wrapI64_of_i64 hq, ha]
  have hindex : index a n (s.payload (s.heap.locate cd).2).length = some a := by
    rw [index, if_pos ⟨by omega, by exact_mod_cast hfit⟩, Int.toNat_natCast]
  have hret : Returns (s.cdataElemAddr cd idx n) (· = some (.payload (s.heap.locate cd).2 a)) := by
    rw [returns_elemAddr hptr, hpos, hindex]
    exact ⟨hres, ⟨by omega, by omega⟩, fun _ => by omega, rfl⟩
  obtain ⟨r, hr, rfl⟩ := Ensures.none_iff.mp hret
  exact hr

/-- An element of a scalar type that is found is read by its type. -/
theorem arrayElement_scalar {root : ℕ} (hsc : scalarOf (s.cts.resolveRawId (s.elemTypeId cd)) = some sc)
    (haddr : s.cdataElemAddr cd idx (s.elemSize cd) = .ok (some (.payload root a))) :
    s.arrayElement cd idx = (elementValue (s.elemTypeId cd) (window (s.payload root) a sc.size)).map
      fun v => (v, [.read (.payload root a) sc.size]) := by
  obtain ⟨hsize, hnum, hcomplex, -, -⟩ := scalar_entry hsc
  have hpos := size_pos hsc
  have hesz : s.elemSize cd = sc.size := hsize
  rw [hesz] at haddr
  unfold arrayElement elementValue
  dsimp only
  rw [hsize, if_neg hpos.ne', hnum, haddr, hcomplex]
  by_cases hwide : s.elemTypeId cd = CTypeID.int64 ∨ s.elemTypeId cd = CTypeID.uint64
  · have hcond : (decide (s.elemTypeId cd = CTypeID.int64) || decide (s.elemTypeId cd = CTypeID.uint64) || false) = true := by
      simpa using hwide
    rw [if_pos hwide, hcond]
    rfl
  · rw [if_neg hwide]
    have hno := not_or.mp hwide
    have hcond : (decide (s.elemTypeId cd = CTypeID.int64) || decide (s.elemTypeId cd = CTypeID.uint64) || false) = false := by
      simpa using hno
    rw [hcond]
    have hbs : s.load (.payload root a) sc.size = window (s.payload root) a sc.size := rfl
    rw [ok_bind]
    dsimp only
    rw [hbs]
    cases cdataToNumber ⟨.ofNat (s.elemTypeId cd), window (s.payload root) a sc.size, none, 0⟩ with
    | error f => rfl
    | ok r =>
      cases r with
      | none => rfl
      | some y => rfl

theorem putElement_scalar {root : ℕ} (hsc : scalarOf (s.cts.resolveRawId (s.elemTypeId cd)) = some sc)
    (haddr : s.cdataElemAddr cd idx (s.elemSize cd) = .ok (some (.payload root a))) :
    s.putElement cd idx (.num x) = .ok [.write (.payload root a) (stored (s.elemTypeId cd) sc.size x)] := by
  have hsize : (s.cts.raw (s.elemTypeId cd)).size = sc.size := (scalar_entry hsc).1
  have hesz : s.elemSize cd = sc.size := hsize
  have hpos := size_pos hsc
  rw [hesz] at haddr
  unfold putElement
  dsimp only
  rw [hsize, if_neg hpos.ne', haddr]
  rfl

theorem putElement_lost (hsc : scalarOf (s.cts.resolveRawId (s.elemTypeId cd)) = some sc)
    (haddr : s.cdataElemAddr cd idx (s.elemSize cd) = .ok none) : s.putElement cd idx (.num x) = .ok [] := by
  have hsize : s.elemSize cd = sc.size := (scalar_entry hsc).1
  have hpos := size_pos hsc
  unfold putElement
  dsimp only
  rw [← elemSize, if_neg (by omega), haddr]
  rfl

theorem putElement_error {f : Fault} (hsc : scalarOf (s.cts.resolveRawId (s.elemTypeId cd)) = some sc)
    (haddr : s.cdataElemAddr cd idx (s.elemSize cd) = .error f) : s.putElement cd idx (.num x) = .error f := by
  have hsize : s.elemSize cd = sc.size := (scalar_entry hsc).1
  have hpos := size_pos hsc
  unfold putElement
  dsimp only
  rw [← elemSize, if_neg (by omega), haddr]
  rfl

/-- An element that is found at another position than its own is not read. -/
theorem arrayElement_lost (hsc : scalarOf (s.cts.resolveRawId (s.elemTypeId cd)) = some sc)
    (haddr : s.cdataElemAddr cd idx (s.elemSize cd) = .ok none) : s.arrayElement cd idx = .ok (.nil, []) := by
  obtain ⟨hsize, hnum, -, -, -⟩ := scalar_entry hsc
  have hpos := size_pos hsc
  have hesz : s.elemSize cd = sc.size := hsize
  rw [hesz] at haddr
  unfold arrayElement
  dsimp only
  rw [hsize, if_neg hpos.ne', hnum, haddr]
  rfl

theorem indexNumber_store {obj : ℕ} {bs : List UInt8} (h : key ≠ .cdata obj) :
    (s.store obj a bs).indexNumber key = s.indexNumber key := by
  cases key with
  | cdata k =>
    have hget : (s.store obj a bs).heap.get k = s.heap.get k :=
      CDataHeap.get_store.trans (if_neg fun hk => h (by rw [hk]))
    rw [indexNumber, indexNumber, rawOf_store, hget]
  | _ => rfl

theorem elemSize_store {obj : ℕ} {bs : List UInt8} : (s.store obj a bs).elemSize cd = s.elemSize cd := by
  rw [elemSize, elemTypeId_store]
  rfl

/-- The bytes that are not stored stay. -/
theorem frame_store {obj root n : ℕ} {pos : ℤ} {bs : List UInt8} {k : ℕ} (hfit : a + bs.length ≤ (s.payload root).length)
    (ha : (a : ℤ) = pos) (hn : bs.length = n) (hk : obj ≠ root ∨ (k : ℤ) < pos ∨ pos + n ≤ k) :
    ((s.store root a bs).payload obj)[k]? = (s.payload obj)[k]? := by
  by_cases hobj : obj = root
  · subst hobj
    have hout : k < a ∨ a + bs.length ≤ k := by
      have hk' := hk.resolve_left fun h => h rfl
      omega
    rw [payload_store hfit, getElem?_splice hfit hout]
  · rw [payload_store_ne (Ne.symm hobj)]

theorem window_store {root n : ℕ} {bs : List UInt8} (hfit : a + bs.length ≤ (s.payload root).length) (hn : bs.length = n) :
    window ((s.store root a bs).payload root) a n = bs := by
  subst hn
  rw [payload_store hfit, window_splice hfit]

theorem cdataNewindex_index {val : LuaValue} (h : s.indexNumber key = .ok (some idx)) :
    s.cdataNewindex cd key val = lift (s.putElement cd idx val) := by
  unfold cdataNewindex
  rw [h]
  rfl

theorem cdataIndex_index (h : s.indexNumber key = .ok (some idx)) : s.cdataIndex cd key = lift (s.arrayElement cd idx) := by
  unfold cdataIndex
  rw [h]
  rfl

/-- A value that is returned with what was touched for it. -/
theorem shown_iff {n : ℕ} {m : Except Fault Val} {ts : Val → List Touch} {c : CValue} :
    (∃ v rs, lift (m.map fun v => (v, ts v)) = .ok (v, rs) ∧ v.Shows n c) ↔ Returned n m c := by
  cases m with
  | ok v =>
    rw [returned_ok]
    constructor
    · rintro ⟨v', rs, h, hv⟩
      injection Except.ok.inj h with hv'
      exact hv' ▸ hv
    · intro hv
      exact ⟨v, _, rfl, hv⟩
  | error f =>
    constructor
    · rintro ⟨v, rs, h, -⟩
      exact absurd h (by simp [lift, Except.map])
    · rintro ⟨v, h, -⟩
      exact absurd h (by simp)

/-- The law for an element that is found where it lies. -/
theorem element_at (hptr : ctypeIsPtr (s.rawOf cd).info = false) (hname : s.Names cd key (.element idx))
    (hsc : scalarOf (s.cts.resolveRawId (s.elemTypeId cd)) = some sc) (hx : x.isNaN = false) (hres : s.heap.Resolves cd)
    (hq : I64 (idx * s.elemSize cd)) (ha : (a : ℤ) = (s.heap.locate cd).1 + idx * s.elemSize cd)
    (hfit : a + s.elemSize cd ≤ (s.payload (s.heap.locate cd).2).length) :
    s.StoreLoad cd key (.element idx) sc x ↔ ElementExact (s.Direct cd (.element idx)) x sc := by
  obtain ⟨hkey, hself⟩ := hname
  obtain ⟨bs, hbs⟩ : ∃ bs, stored (s.elemTypeId cd) sc.size x = bs := ⟨_, rfl⟩
  have hsize : s.elemSize cd = sc.size := (scalar_entry hsc).1
  have hlen : bs.length = sc.size := hbs ▸ length_stored
  have hfit' : a + bs.length ≤ (s.payload (s.heap.locate cd).2).length := by rw [hlen, ← hsize]; exact hfit
  have hnew : s.cdataNewindex cd key (.num x) = .ok [.write (.payload (s.heap.locate cd).2 a) bs] := by
    rw [cdataNewindex_index hkey, putElement_scalar hsc (elemAddr_exact hptr hres hq ha hfit), hbs]
    rfl
  obtain ⟨t, ht⟩ : ∃ t, s.store (s.heap.locate cd).2 a bs = t := ⟨_, rfl⟩
  have hlocate : t.heap.locate cd = s.heap.locate cd := by rw [← ht]; exact CDataHeap.locate_store
  have htype : t.elemTypeId cd = s.elemTypeId cd := by rw [← ht]; exact elemTypeId_store
  have hesz : t.elemSize cd = s.elemSize cd := by rw [← ht]; exact elemSize_store
  have hcts : t.cts = s.cts := by rw [← ht]; rfl
  have hread : t.cdataIndex cd key = lift ((elementValue (s.elemTypeId cd) bs).map
      fun v => (v, [.read (.payload (s.heap.locate cd).2 a) sc.size])) := by
    have haddr : t.cdataElemAddr cd idx (t.elemSize cd) = .ok (some (.payload (t.heap.locate cd).2 a)) := by
      refine elemAddr_exact ?_ ?_ (by rw [hesz]; exact hq) (by rw [hlocate, hesz]; exact ha) ?_
      · rw [← ht, rawOf_store]
        exact hptr
      · rw [← ht]
        exact CDataHeap.resolves_store.mpr hres
      · rw [hlocate, hesz, ← ht, length_payload_store]
        exact hfit
    have hkey' : t.indexNumber key = .ok (some idx) := by rw [← ht, indexNumber_store hself, hkey]
    have hwindow : window (t.payload (s.heap.locate cd).2) a sc.size = bs := by rw [← ht]; exact window_store hfit' hlen
    rw [cdataIndex_index hkey', arrayElement_scalar (by rw [hcts, htype]; exact hsc) haddr, hlocate, htype, hwindow]
  have hvalue := element_iff_exact hx (s.elemTypeId_lt cd) hsc scalar_name
  rw [hbs] at hvalue
  rw [StoreLoad, Direct, partType, ← hvalue, ← shown_iff, ← hread]
  constructor
  · rintro ⟨ts, hts, hshow, -⟩
    rw [hnew] at hts
    rw [← Except.ok.inj hts, after, List.foldl_cons, List.foldl_nil, touch, ht] at hshow
    exact hshow
  · intro hshow
    refine ⟨_, hnew, ?_, fun obj k hk => ?_⟩
    · rw [after, List.foldl_cons, List.foldl_nil, touch, ht]
      exact hshow
    · exact frame_store hfit' ha hlen hk

theorem i64_wrapI64 (z : ℤ) : I64 (wrapI64 z) := ⟨BitVec.le_toInt _, BitVec.toInt_lt⟩

/-- The law for an element. -/
theorem element_law (hptr : ctypeIsPtr (s.rawOf cd).info = false) (hname : s.Names cd key (.element idx))
    (hsc : scalarOf (s.cts.resolveRawId (s.elemTypeId cd)) = some sc) (hx : x.isNaN = false)
    (hfits : s.Fits (s.heap.locate cd).2 ((s.heap.locate cd).1 + idx * s.elemSize cd) sc.size) :
    s.StoreLoad cd key (.element idx) sc x ↔ s.Stores cd (.element idx) sc x := by
  have hsize : s.elemSize cd = sc.size := (scalar_entry hsc).1
  rw [← hsize] at hfits
  have hexact : s.heap.Resolves cd → I64 (idx * s.elemSize cd) →
      (s.StoreLoad cd key (.element idx) sc x ↔ ElementExact (s.Direct cd (.element idx)) x sc) := by
    intro hres hq
    obtain ⟨a, ha⟩ := Int.eq_ofNat_of_zero_le hfits.1
    refine element_at hptr hname hsc hx hres hq ha.symm ?_
    have hend := hfits.2
    omega
  constructor
  · intro hlaw
    have hreach : s.heap.Resolves cd ∧ I64 (idx * s.elemSize cd) := by
      obtain ⟨ts, hnew, ⟨v, rs, hread, hshow⟩, -⟩ := hlaw
      rw [cdataNewindex_index hname.1] at hnew
      cases haddr : s.cdataElemAddr cd idx (s.elemSize cd) with
      | error f =>
        rw [putElement_error hsc haddr] at hnew
        exact absurd hnew (by simp [lift])
      | ok found =>
        have hret : Returns (s.cdataElemAddr cd idx (s.elemSize cd)) (· = found) := by
          rw [haddr]
          rfl
        rw [returns_elemAddr hptr] at hret
        obtain ⟨hres, -, -, hfound⟩ := hret
        cases hindex : index (elemPos (s.heap.locate cd).1 idx (s.elemSize cd)) (s.elemSize cd)
            (s.payload (s.heap.locate cd).2).length with
        | none =>
          rw [hindex, Option.map_none] at hfound
          subst hfound
          rw [putElement_lost hsc haddr] at hnew
          rw [← Except.ok.inj hnew, after, List.foldl_nil, cdataIndex_index hname.1, arrayElement_lost hsc haddr] at hread
          injection Except.ok.inj hread with hv
          rw [← hv] at hshow
          exact absurd hshow (by rintro ⟨⟩)
        | some a =>
          obtain ⟨ha, hfit⟩ := index_some hindex
          have hexact : elemPos (s.heap.locate cd).1 idx (s.elemSize cd) =
              (s.heap.locate cd).1 + idx * s.elemSize cd := elemPos_eq (s.payload_lt _) ⟨by omega, by rw [← ha]; exact_mod_cast hfit⟩ hfits
          have hwrap : wrapI64 (idx * s.elemSize cd) = idx * s.elemSize cd := add_left_cancel hexact
          exact ⟨hres, hwrap ▸ i64_wrapI64 _⟩
    exact ⟨hreach.1, hreach.2, (hexact hreach.1 hreach.2).mp hlaw⟩
  · rintro ⟨hres, hq, hshow⟩
    exact (hexact hres hq).mpr hshow

end Element

end FfiState

end LuajitRs.Ffi
