import LuajitRs.Ffi.Access.Bounds
import LuajitRs.Ffi.Access.Position

/-! Elements: an index whose product wraps around is the only one that reaches a wrong place. -/
namespace LuajitRs.Ffi
open Lib Lib.Bytes

theorem index_some {z : ℤ} {n len a : ℕ} (h : index z n len = some a) : (a : ℤ) = z ∧ a + n ≤ len := by
  unfold index at h
  split at h
  · next hw =>
    have ha := Option.some.inj h
    rw [Within] at hw
    omega
  · next => exact absurd h (by simp)

theorem index_none {z : ℤ} {n len : ℕ} (h : index z n len = none) : ¬ Within z n len := by
  intro hw
  rw [index, if_pos hw] at h
  exact absurd h (by simp)

/-- What holds when a position misses the storage holds unless the position is found. -/
theorem index_cases {R C : Prop} {z : ℤ} {n len : ℕ} (hmiss : index z n len = none → R)
    (hhit : ∀ a : ℕ, index z n len = some a → (R ↔ C)) : R ↔ C ∨ ¬ Within z n len := by
  cases hi : index z n len with
  | none => exact ⟨fun _ => .inr (index_none hi), fun _ => hmiss hi⟩
  | some a =>
    have ha := index_some hi
    have hw : Within z n len := ⟨by omega, by omega⟩
    exact (hhit a hi).trans ⟨.inl, fun h => h.resolve_right fun h => h hw⟩

namespace FfiState
variable (s : FfiState)

/-! ### The bytes of a value -/

theorem length_complexPartBytes {src buf bs : List UInt8} {seSz deSz de j : ℕ}
    (h : complexPartBytes src seSz deSz de buf j = .ok bs) : bs.length = buf.length := by
  unfold complexPartBytes at h
  split at h
  · next hfit =>
    obtain ⟨v, -, hv⟩ := bind_eq_ok.mp h
    rw [pure_eq_ok] at hv
    have hw := length_window hfit.2
    rw [← Except.ok.inj hv, length_splice (by rw [length_writeScalarValue, hw]; exact hfit.2)]
  · next => rw [← Except.ok.inj h]

theorem complexPartBytes_returns {src buf : List UInt8} {seSz deSz de j : ℕ} (hse : seSz = 4 ∨ seSz = 8) :
    ∃ bs, complexPartBytes src seSz deSz de buf j = .ok bs := by
  unfold complexPartBytes
  split
  · next hfit =>
    cases hse with
    | inl hse =>
      rw [if_neg (by omega), slice, if_pos (by omega)]
      exact ⟨_, rfl⟩
    | inr hse =>
      rw [if_pos hse, slice, if_pos (by omega)]
      exact ⟨_, rfl⟩
  · next => exact ⟨_, rfl⟩

theorem length_tableItem {eid esz : ℕ} {buf : List UInt8} {item : LuaValue × ℕ} :
    (tableItem eid esz buf item).length = buf.length := by
  unfold tableItem
  split
  · split
    · next hfit =>
      rw [length_splice]
      rw [length_writeScalarValue, List.length_replicate]
      exact hfit
    · next => rfl
  · next => rfl

theorem length_foldl_tableItem {eid esz : ℕ} (items : List (LuaValue × ℕ)) (buf : List UInt8) :
    (items.foldl (tableItem eid esz) buf).length = buf.length := by
  induction items generalizing buf with
  | nil => rfl
  | cons item items ih => rw [List.foldl_cons, ih, length_tableItem]

/-- A value always has bytes as an element, as many as the element. -/
theorem elementBytes_returns (elem elemSz : ℕ) (val : LuaValue) :
    ∃ bs, s.elementBytes elem elemSz val = .ok bs ∧ bs.length = elemSz := by
  have hzeros : (List.replicate elemSz (0 : UInt8)).length = elemSz := List.length_replicate
  have hscalar : ∀ x, (writeScalarValue (List.replicate elemSz 0) elem x).length = elemSz := fun x => by
    rw [length_writeScalarValue, hzeros]
  unfold elementBytes
  cases val with
  | cdata src =>
    dsimp only
    split
    · next hcomplex =>
      have hsrc := (s.raw_complex ((Bool.and_eq_true _ _).mp hcomplex).1).1
      have hpart : ∀ buf j, ∃ bs, complexPartBytes (s.payload src) (s.cts.raw (ctypeCid (s.cts.raw (s.typeOf src)).info)).size
          (s.cts.raw (ctypeCid (s.cts.raw elem).info)).size (ctypeCid (s.cts.raw elem).info) buf j = .ok bs :=
        fun buf j => complexPartBytes_returns hsrc
      obtain ⟨b₀, h₀⟩ := hpart (List.replicate elemSz 0) 0
      obtain ⟨b₁, h₁⟩ := hpart b₀ 1
      refine ⟨b₁, ?_, ?_⟩
      · rw [List.foldlM_cons, rawOf, h₀, ok_bind, List.foldlM_cons, h₁]
        rfl
      · rw [length_complexPartBytes h₁, length_complexPartBytes h₀, hzeros]
    · next =>
      refine ⟨_, rfl, ?_⟩
      rw [length_splice (by rw [hzeros, List.length_take]; omega), hzeros]
  | tab t =>
    dsimp only
    split
    · exact ⟨_, rfl, by rw [length_foldl_tableItem, hzeros]⟩
    · exact ⟨_, rfl, hzeros⟩
  | _ => exact ⟨_, rfl, hscalar _⟩

/-! ### Touches in place -/

theorem held_nothing {root n : ℕ} {pos : ℤ} {v : Val} (hv : v.IsEmpty) : s.Held root pos n (v, []) :=
  ⟨fun _ ht => absurd ht List.not_mem_nil, fun _ => ⟨hv, rfl⟩⟩

/-- One touch of all the bytes holds exactly at its own position. -/
theorem held_single {root n a : ℕ} {pos : ℤ} {v : Val} {t : Touch} (hplace : t.place = .payload root a)
    (hsize : t.size = n) (hfit : a + n ≤ (s.payload root).length) : s.Held root pos n (v, [t]) ↔ (a : ℤ) = pos := by
  constructor
  · intro h
    obtain ⟨b, hb, hpos, -⟩ := h.1 t (List.mem_singleton_self t)
    rw [hplace] at hb
    injection hb with _ hab
    rw [hab, hpos]
  · intro h
    refine ⟨fun u hu => ?_, fun hnot => absurd ⟨by omega, by omega⟩ hnot⟩
    rw [List.mem_singleton.mp hu]
    exact ⟨a, hplace, h, by rw [hsize]; exact hfit⟩

/-- An alias holds exactly where its storage fits. -/
theorem held_alias {root n : ℕ} {pos : ℤ} {c : CData} : s.Held root pos n (.obj c, []) ↔ s.Fits root pos n := by
  constructor
  · intro h
    by_contra hnot
    exact (h.2 hnot).1
  · intro h
    exact ⟨fun _ ht => absurd ht List.not_mem_nil, fun hnot => absurd h hnot⟩

/-! ### The operations -/

variable {s} {cd : ℕ} {idx : ℤ}

/-- What holds at the wrapped position exactly when that is the exact one. -/
theorem element_iff {R : Prop} (hsize : s.elemSize cd ≠ 0)
    (hmiss : index (elemPos (s.heap.locate cd).1 idx (s.elemSize cd)) (s.elemSize cd)
      (s.payload (s.heap.locate cd).2).length = none → R)
    (hhit : ∀ a : ℕ, index (elemPos (s.heap.locate cd).1 idx (s.elemSize cd)) (s.elemSize cd)
      (s.payload (s.heap.locate cd).2).length = some a → (R ↔ (a : ℤ) = (s.heap.locate cd).1 + idx * s.elemSize cd)) :
    (s.heap.Resolves cd ∧ I64 (elemPos (s.heap.locate cd).1 idx (s.elemSize cd)) ∧
      (0 ≤ elemPos (s.heap.locate cd).1 idx (s.elemSize cd) →
        elemPos (s.heap.locate cd).1 idx (s.elemSize cd) + s.elemSize cd < 2^63) ∧ R) ↔ s.ElementInBounds cd idx := by
  rw [ElementInBounds, or_iff_right hsize]
  refine and_congr_right fun _ => and_congr_right fun _ => and_congr_right fun _ => index_cases hmiss fun a hi => ?_
  rw [hhit a hi, (index_some hi).1, elemPos]
  constructor
  · intro h
    exact add_left_cancel h
  · intro h
    rw [h]

theorem returns_elemAddr {n : ℕ} {Q : Option Place → Prop} (hptr : ctypeIsPtr (s.rawOf cd).info = false) :
    Returns (s.cdataElemAddr cd idx n) Q ↔
      s.heap.Resolves cd ∧ I64 (elemPos (s.heap.locate cd).1 idx n) ∧
        (0 ≤ elemPos (s.heap.locate cd).1 idx n → elemPos (s.heap.locate cd).1 idx n + n < 2^63) ∧
        Q ((index (elemPos (s.heap.locate cd).1 idx n) n (s.payload (s.heap.locate cd).2).length).map
          (.payload (s.heap.locate cd).2)) := by
  rw [cdataElemAddr, if_neg (by rw [hptr]; decide), Returns, Ensures.bind_iff, ← Returns, CDataHeap.returns_resolvePtr]
  refine and_congr_right fun _ => ?_
  rw [Ensures.bind_iff, ← Returns, returns_elemAt]
  exact Iff.rfl

theorem arrayElement_safe (hptr : ctypeIsPtr (s.rawOf cd).info = false) :
    Returns (s.arrayElement cd idx)
        (s.Held (s.heap.locate cd).2 ((s.heap.locate cd).1 + idx * s.elemSize cd) (s.elemSize cd)) ↔
      s.ElementInBounds cd idx := by
  unfold arrayElement
  dsimp only
  rw [← elemSize, hptr]
  split
  · next hzero => exact ⟨fun _ => .inl hzero, fun _ => held_nothing s trivial⟩
  · next hsize =>
    split
    · next =>
      rw [Returns, Ensures.bind_iff, ← Returns, CDataHeap.returns_resolvePtr, Ensures.bind_iff, ← Returns, returns_elemAt]
      refine element_iff hsize (fun hi => ?_) fun a hi => ?_
      · rw [hi]
        exact held_nothing s trivial
      obtain ⟨ha, hfit⟩ := index_some hi
      rw [hi]
      refine (held_alias s).trans ⟨fun hexact => ?_, fun hpos => ?_⟩
      · rw [ha]
        refine elemPos_eq (s.payload_lt _) ?_ hexact
        rw [← ha]
        exact ⟨by omega, by exact_mod_cast hfit⟩
      · rw [← hpos]
        exact ⟨by omega, by exact_mod_cast hfit⟩
    · next =>
      rw [Returns, Ensures.bind_iff, ← Returns, returns_elemAddr hptr]
      refine element_iff hsize (fun hi => ?_) fun a hi => ?_
      · rw [hi]
        exact held_nothing s trivial
      obtain ⟨ha, hfit⟩ := index_some hi
      rw [hi]
      have hlen : (s.load (.payload (s.heap.locate cd).2 a) (s.elemSize cd)).length = s.elemSize cd := length_window hfit
      obtain ⟨r, hr⟩ := s.cdataToNumber_returns (s.elemTypeId_lt cd) hlen
      have hsingle : ∀ v, s.Held (s.heap.locate cd).2 ((s.heap.locate cd).1 + idx * s.elemSize cd) (s.elemSize cd)
          (v, [.read (.payload (s.heap.locate cd).2 a) (s.elemSize cd)]) ↔
          (a : ℤ) = (s.heap.locate cd).1 + idx * s.elemSize cd := fun v => held_single s rfl rfl hfit
      rw [Option.map_some]
      dsimp only
      split
      · exact hsingle _
      · rw [hr]
        cases r with
        | none => exact hsingle _
        | some x => exact hsingle _

theorem putElement_safe (hptr : ctypeIsPtr (s.rawOf cd).info = false) (val : LuaValue) :
    Returns (s.putElement cd idx val) (fun ts =>
        s.Held (s.heap.locate cd).2 ((s.heap.locate cd).1 + idx * s.elemSize cd) (s.elemSize cd) (.nil, ts)) ↔
      s.ElementInBounds cd idx := by
  unfold putElement
  dsimp only
  rw [← elemSize]
  split
  · next hzero => exact ⟨fun _ => .inl hzero, fun _ => held_nothing s trivial⟩
  · next hsize =>
    rw [Returns, Ensures.bind_iff, ← Returns, returns_elemAddr hptr]
    refine element_iff hsize (fun hi => ?_) fun a hi => ?_
    · rw [hi]
      exact held_nothing s trivial
    obtain ⟨ha, hfit⟩ := index_some hi
    rw [hi]
    obtain ⟨bs, hbs, hlen⟩ := s.elementBytes_returns (s.elemTypeId cd) (s.elemSize cd) val
    rw [Option.map_some]
    dsimp only
    rw [hbs]
    exact held_single s rfl hlen hfit

end FfiState

end LuajitRs.Ffi

/-! Fields: positions that overflow, scalars behind the first 4 GiB, and arrays that are taken for addresses. -/
namespace LuajitRs.Ffi
open Lib Lib.Bytes

theorem returns_and_const {α : Type} {m : Except Fault α} {P : α → Prop} {K : Prop} :
    Returns m (fun a => P a ∧ K) ↔ Returns m P ∧ K := by
  cases m with
  | ok a => exact Iff.rfl
  | error f => exact ⟨False.elim, fun h => h.1⟩

namespace FfiState
variable {s : FfiState} {cd off sz : ℕ} {isFp : Bool}

/-! ### Scalars -/

/-- A scalar that is read at its own position, however far into the storage it lies. -/
def Wide (isFp : Bool) (sz : ℕ) : Prop := isFp = true ∧ (sz = 8 ∨ sz = 4) ∨ ¬ (sz = 1 ∨ sz = 2 ∨ sz = 4 ∨ sz = 8)

theorem scalarTouch_float {obj a : ℕ} (h : isFp = true ∧ (sz = 8 ∨ sz = 4)) :
    scalarTouch obj isFp a sz = [.read (.payload obj a) sz] := by
  rw [scalarTouch, if_pos]
  simpa using h

theorem scalarTouch_int {obj a : ℕ} (hfp : ¬ (isFp = true ∧ (sz = 8 ∨ sz = 4))) (h : sz = 1 ∨ sz = 2 ∨ sz = 4 ∨ sz = 8) :
    scalarTouch obj isFp a sz = [.read (.payload obj (a % 2^32)) sz] := by
  rw [scalarTouch, if_neg (by simpa using hfp), if_pos]
  simpa [or_assoc] using h

theorem scalarTouch_none {obj a : ℕ} (h : ¬ (sz = 1 ∨ sz = 2 ∨ sz = 4 ∨ sz = 8)) : scalarTouch obj isFp a sz = [] := by
  rw [scalarTouch, if_neg, if_neg]
  · simpa [or_assoc] using h
  · simp only [Bool.and_eq_true, Bool.or_eq_true, decide_eq_true_eq]
    omega

theorem inside_single {root obj a n : ℕ} :
    (∀ t ∈ [Touch.read (.payload obj a) n], s.Inside root t) ↔ obj = root ∧ a + n ≤ (s.payload root).length := by
  rw [List.forall_mem_singleton]
  constructor
  · rintro ⟨b, hb, hfit⟩
    injection hb with hobj hab
    exact ⟨hobj, hab ▸ hfit⟩
  · rintro ⟨rfl, hfit⟩
    exact ⟨a, rfl, hfit⟩

/-- A scalar is read when its bytes lie in the storage. -/
theorem returns_scalarAt {obj a : ℕ} {P : Prop} :
    Returns (scalarAt (s.payload obj) isFp a sz) (fun _ => P) ↔ s.ScalarFits obj isFp a sz ∧ P := by
  rw [ScalarFits]
  have hslice : ∀ {n b : ℕ} {f : List UInt8 → F64}, Returns (do return f (← slice (s.payload obj) b n)) (fun _ => P) ↔
      b + n ≤ (s.payload obj).length ∧ P := by
    intro n b f
    rw [Returns, Ensures.bind_iff, ← Returns, returns_slice]
    exact Iff.rfl
  by_cases hfp : isFp = true ∧ (sz = 8 ∨ sz = 4)
  · rw [scalarTouch_float hfp, inside_single, and_iff_right rfl]
    obtain ⟨rfl, rfl | rfl⟩ := hfp
    · exact hslice
    · exact hslice
  · have hint : scalarAt (s.payload obj) isFp a sz = readFieldFromSlice (s.payload obj) (a % 2^32) sz := by
      rw [scalarAt, if_neg, if_neg]
      · simp only [Bool.and_eq_true, decide_eq_true_eq]
        exact fun h => hfp ⟨h.1, .inr h.2⟩
      · simp only [Bool.and_eq_true, decide_eq_true_eq]
        exact fun h => hfp ⟨h.1, .inl h.2⟩
    rw [hint]
    by_cases hsz : sz = 1 ∨ sz = 2 ∨ sz = 4 ∨ sz = 8
    · rw [scalarTouch_int hfp hsz, inside_single, and_iff_right rfl]
      obtain rfl | rfl | rfl | rfl := hsz
      · exact hslice
      · exact hslice
      · exact hslice
      · exact hslice
    · rw [scalarTouch_none hsz, readFieldFromSlice, if_neg (by omega), if_neg (by omega), if_neg (by omega), if_neg (by omega)]
      exact ⟨fun h => ⟨fun _ ht => absurd ht List.not_mem_nil, h⟩, And.right⟩

theorem At.inside {root : ℕ} {pos : ℤ} {t : Touch} (h : s.At root pos t) : s.Inside root t := by
  obtain ⟨a, ha, -, hfit⟩ := h
  exact ⟨a, ha, hfit⟩

/-- The bytes of a scalar are read at its position unless the position is narrowed to another one. -/
theorem scalarTouch_at {root a : ℕ} (hfit : a + sz ≤ (s.payload root).length) :
    (∀ t ∈ scalarTouch root isFp a sz, s.At root a t) ↔ Wide isFp sz ∨ a < 2^32 := by
  have hsingle : ∀ b : ℕ, b ≤ a → ((∀ t ∈ [Touch.read (.payload root b) sz], s.At root a t) ↔ b = a) := by
    intro b hba
    rw [List.forall_mem_singleton]
    constructor
    · rintro ⟨c, hc, hpos, -⟩
      injection hc with _ hbc
      omega
    · rintro rfl
      exact ⟨b, rfl, rfl, hfit⟩
  rw [Wide]
  by_cases hfp : isFp = true ∧ (sz = 8 ∨ sz = 4)
  · rw [scalarTouch_float hfp, hsingle a le_rfl]
    exact ⟨fun _ => .inl (.inl hfp), fun _ => rfl⟩
  · by_cases hsz : sz = 1 ∨ sz = 2 ∨ sz = 4 ∨ sz = 8
    · rw [scalarTouch_int hfp hsz, hsingle _ (Nat.mod_le ..)]
      constructor
      · intro h
        exact .inr (by omega)
      · rintro ((h | h) | h)
        · exact absurd h hfp
        · exact absurd hsz h
        · exact Nat.mod_eq_of_lt h
    · rw [scalarTouch_none hsz]
      exact ⟨fun _ => .inl (.inr hsz), fun _ _ ht => absurd ht List.not_mem_nil⟩

/-! ### Direct fields -/

/-- Code that goes on with the position of a field in the storage of an object. -/
theorem returns_locateField {α : Type} {n : ℕ} {k : ℤ × ℕ → Option ℕ → Except Fault α} {Q : α → Prop} :
    Returns (s.heap.resolvePtr cd >>= fun r => fieldAt r.1 off n (s.payload r.2).length >>= fun a => k r a) Q ↔
      s.FieldInBounds cd off n ∧ Returns (k (s.heap.locate cd)
        (index ((s.heap.locate cd).1 + off) n (s.payload (s.heap.locate cd).2).length)) Q := by
  have hlen : (s.payload (s.heap.locate cd).2).length < 2^63 := s.payload_lt _
  rw [Returns, Ensures.bind_iff, ← Returns, CDataHeap.returns_resolvePtr, FieldInBounds, and_assoc, and_assoc]
  refine and_congr_right fun _ => ?_
  rw [Ensures.bind_iff, ← Returns, returns_fieldAt hlen]

theorem fieldInBounds_iff_narrow {R : Prop}
    (hmiss : s.FieldInBounds cd off sz →
      index ((s.heap.locate cd).1 + off) sz (s.payload (s.heap.locate cd).2).length = none → R)
    (hhit : ∀ a : ℕ, s.FieldInBounds cd off sz →
      index ((s.heap.locate cd).1 + off) sz (s.payload (s.heap.locate cd).2).length = some a →
      (R ↔ Wide isFp sz ∨ a < 2^32)) :
    s.FieldInBounds cd off sz ∧ R ↔ s.FieldInBounds cd off sz ∧ s.Narrow cd off isFp sz := by
  refine and_congr_right fun hin => ?_
  cases hi : index ((s.heap.locate cd).1 + off) sz (s.payload (s.heap.locate cd).2).length with
  | none =>
    have hnot := index_none hi
    exact ⟨fun _ => .inr (.inr fun hfits => absurd hfits hnot), fun _ => hmiss hin hi⟩
  | some a =>
    have ha := index_some hi
    rw [hhit a hin hi, Narrow, Wide, or_assoc]
    refine or_congr_right (or_congr_right ⟨fun h _ => by omega, fun h => ?_⟩)
    have hpos := h ⟨by omega, by exact_mod_cast (by omega : (s.heap.locate cd).1 + off + sz ≤ (s.payload (s.heap.locate cd).2).length)⟩
    omega

/-- What a part holds that fits. -/
theorem held_of_fits {root n : ℕ} {pos : ℤ} {v : Val} {ts : List Touch} (h : s.Fits root pos n) :
    s.Held root pos n (v, ts) ↔ ∀ t ∈ ts, s.At root pos t :=
  ⟨And.left, fun hat => ⟨hat, fun hnot => absurd h hnot⟩⟩

theorem fits_of_index {root n a : ℕ} {pos : ℤ} (h : index pos n (s.payload root).length = some a) : s.Fits root pos n := by
  have ha := index_some h
  exact ⟨by omega, by omega⟩

theorem scalar_at_iff {root a : ℕ} {pos : ℤ} (h : index pos sz (s.payload root).length = some a) :
    (s.ScalarFits root isFp a sz ∧ ∀ t ∈ scalarTouch root isFp a sz, s.At root pos t) ↔ Wide isFp sz ∨ a < 2^32 := by
  obtain ⟨ha, hfit⟩ := index_some h
  rw [← ha, scalarTouch_at hfit]
  refine and_iff_right_of_imp fun hwide => ?_
  intro t ht
  exact ((scalarTouch_at hfit).mpr hwide t ht).inside

/-- A part of a complex number is read in bounds. -/
theorem storedScalar_safe {v : F64 → Val} :
    Returns (s.storedScalar cd off isFp sz) (fun r =>
        s.Held (s.heap.locate cd).2 ((s.heap.locate cd).1 + off) sz ((r.1.map v).getD .nil, r.2)) ↔
      s.FieldInBounds cd off sz ∧ s.Narrow cd off isFp sz := by
  unfold storedScalar
  rw [returns_locateField]
  refine fieldInBounds_iff_narrow (fun _ hi => ?_) fun a _ hi => ?_
  · rw [hi]
    exact held_nothing s trivial
  · rw [hi, ← scalar_at_iff hi]
    dsimp only
    rw [Returns, Ensures.bind_iff, ← Returns]
    have hheld : ∀ x, Returns (pure (some x, scalarTouch (s.heap.locate cd).2 isFp a sz)) (fun r =>
        s.Held (s.heap.locate cd).2 ((s.heap.locate cd).1 + off) sz ((r.1.map v).getD .nil, r.2)) ↔
        ∀ t ∈ scalarTouch (s.heap.locate cd).2 isFp a sz, s.At (s.heap.locate cd).2 ((s.heap.locate cd).1 + off) t :=
      fun x => held_of_fits (fits_of_index hi)
    simp only [hheld]
    exact returns_scalarAt

/-! ### Direct fields -/

variable {fid : ℕ}

theorem isEmpty_zero : (Val.num F64.zero.normalize).IsEmpty := by
  rw [Val.IsEmpty]
  decide

theorem wideField_miss (hin : s.FieldInBounds cd off sz)
    (hi : index ((s.heap.locate cd).1 + off) sz (s.payload (s.heap.locate cd).2).length = none) :
    Returns (s.wideField cd fid off sz .zero []) (s.Held (s.heap.locate cd).2 ((s.heap.locate cd).1 + off) sz) := by
  unfold wideField
  split
  · next hwide =>
    have hsz : sz = 8 := of_decide_eq_true ((Bool.and_eq_true _ _).mp hwide).2
    subst hsz
    rw [returns_locateField, hi]
    exact ⟨hin, held_nothing s isEmpty_zero⟩
  · exact held_nothing s isEmpty_zero

theorem wideField_hit {x : F64} {ts : List Touch} {a : ℕ} (hin : s.FieldInBounds cd off sz)
    (hi : index ((s.heap.locate cd).1 + off) sz (s.payload (s.heap.locate cd).2).length = some a) :
    Returns (s.wideField cd fid off sz x ts) (s.Held (s.heap.locate cd).2 ((s.heap.locate cd).1 + off) sz) ↔
      ∀ t ∈ ts, s.At (s.heap.locate cd).2 ((s.heap.locate cd).1 + off) t := by
  unfold wideField
  split
  · next hwide =>
    have hsz : sz = 8 := of_decide_eq_true ((Bool.and_eq_true _ _).mp hwide).2
    subst hsz
    have ha := index_some hi
    have hread : s.At (s.heap.locate cd).2 ((s.heap.locate cd).1 + off) (.read (.payload (s.heap.locate cd).2 a) 8) :=
      ⟨a, rfl, ha.1, ha.2⟩
    rw [returns_locateField, hi, and_iff_right hin]
    refine (held_of_fits (fits_of_index hi)).trans ?_
    rw [List.forall_mem_append, List.forall_mem_singleton, and_iff_left hread]
  · exact held_of_fits (fits_of_index hi)

/-- A scalar field of a struct is read in bounds. -/
theorem directField_safe : Returns (do
      let r ← s.scalarField cd false off isFp sz
      s.wideField cd fid off sz r.1 r.2) (s.Held (s.heap.locate cd).2 ((s.heap.locate cd).1 + off) sz) ↔
    s.FieldInBounds cd off sz ∧ s.Narrow cd off isFp sz := by
  rw [scalarField, if_neg (by decide), Returns, Ensures.bind_iff, Ensures.map_iff, ← Returns, storedScalar, returns_locateField]
  refine fieldInBounds_iff_narrow (fun hin hi => ?_) fun a hin hi => ?_
  · rw [hi]
    exact wideField_miss hin hi
  · rw [hi, ← scalar_at_iff hi]
    dsimp only
    rw [Returns, Ensures.bind_iff, ← Returns]
    have hheld : ∀ x, Returns (pure (some x, scalarTouch (s.heap.locate cd).2 isFp a sz)) (fun r : Option F64 × List Touch =>
        Returns (s.wideField cd fid off sz (r.1.getD .zero) r.2)
          (s.Held (s.heap.locate cd).2 ((s.heap.locate cd).1 + off) sz)) ↔
        ∀ t ∈ scalarTouch (s.heap.locate cd).2 isFp a sz, s.At (s.heap.locate cd).2 ((s.heap.locate cd).1 + off) t :=
      fun x => wideField_hit hin hi
    simp only [hheld]
    exact returns_scalarAt

/-- A field that is no scalar is an alias. -/
theorem aliasField_safe {n : ℕ} : Returns (do
      let r ← s.heap.resolvePtr cd
      let o ← addI64 r.1 off
      (.ok (.obj ⟨.ofNat fid, [], some r.2, o⟩, []) : Except Fault (Val × List Touch)))
        (s.Held (s.heap.locate cd).2 ((s.heap.locate cd).1 + off) n) ↔
    s.heap.Resolves cd ∧ s.Fits (s.heap.locate cd).2 ((s.heap.locate cd).1 + off) n := by
  rw [Returns, Ensures.bind_iff, ← Returns, CDataHeap.returns_resolvePtr]
  refine and_congr_right fun _ => ?_
  rw [Ensures.bind_iff, ← Returns, returns_addI64, Ensures.ok_iff, held_alias]
  refine and_iff_right_of_imp fun hfits => ?_
  have hlen : (s.payload (s.heap.locate cd).2).length < 2^63 := s.payload_lt _
  rw [Fits, Within] at hfits
  exact ⟨by omega, by omega⟩

/-! ### Fields behind an address -/

/-- The touch that finds the address at the start of an object. -/
def heldTouch (s : FfiState) (cd : ℕ) : List Touch :=
  match index (s.heap.locate cd).1 8 (s.payload (s.heap.locate cd).2).length with
  | some a => [.read (.payload (s.heap.locate cd).2 a) 8]
  | none => []

theorem heldTouch_inside : ∀ t ∈ s.heldTouch cd, s.Inside (s.heap.locate cd).2 t := by
  unfold heldTouch
  split
  · next a ha => exact inside_single.mpr ⟨rfl, (index_some ha).2⟩
  · exact fun _ ht => absurd ht List.not_mem_nil

theorem returns_storedAddr {Q : BitVec 64 × List Touch → Prop} :
    Returns (s.storedAddr cd) Q ↔
      s.heap.Resolves cd ∧ EndFits (s.heap.locate cd).1 8 ∧ Q (s.heldAddr cd, s.heldTouch cd) := by
  have hlen : (s.payload (s.heap.locate cd).2).length < 2^63 := s.payload_lt _
  rw [storedAddr, Returns, Ensures.bind_iff, ← Returns, CDataHeap.returns_resolvePtr]
  refine and_congr_right fun hres => ?_
  rw [Ensures.bind_iff, ← Returns, returns_indexAt hres.i64 hlen, heldAddr, heldTouch]
  refine and_congr_right fun _ => ?_
  cases index (s.heap.locate cd).1 8 (s.payload (s.heap.locate cd).2).length with
  | none => exact Iff.rfl
  | some a => exact Iff.rfl

theorem returns_storedAddrSigned {Q : BitVec 64 × List Touch → Prop} :
    Returns (s.storedAddrSigned cd) Q ↔
      s.heap.Resolves cd ∧ I64 ((s.heap.locate cd).1 + 8) ∧
        ((s.heap.locate cd).1 + 8 ≤ (s.payload (s.heap.locate cd).2).length → 0 ≤ (s.heap.locate cd).1) ∧
        Q (s.heldAddr cd, s.heldTouch cd) := by
  have hlen : (s.payload (s.heap.locate cd).2).length < 2^63 := s.payload_lt _
  rw [storedAddrSigned, Returns, Ensures.bind_iff, ← Returns, CDataHeap.returns_resolvePtr]
  refine and_congr_right fun hres => ?_
  have hoff := hres.i64
  rw [Ensures.bind_iff, ← Returns, returns_addI64, heldAddr, heldTouch]
  refine and_congr_right fun _ => ?_
  split
  · next hend =>
    rw [Ensures.bind_iff, ← Returns, returns_slice]
    by_cases hneg : 0 ≤ (s.heap.locate cd).1
    · have hcast := asUsize_of_nonneg hneg hoff
      have hnat : asUsize (s.heap.locate cd).1 = (s.heap.locate cd).1.toNat := by omega
      have hi : index (s.heap.locate cd).1 8 (s.payload (s.heap.locate cd).2).length = some (s.heap.locate cd).1.toNat :=
        if_pos ⟨hneg, hend⟩
      rw [hi, hnat]
      refine ⟨fun h => ⟨fun _ => hneg, h.2⟩, fun h => ⟨by omega, h.2⟩⟩
    · have hcast := asUsize_of_neg (by omega) hoff
      rw [I64] at hoff
      exact ⟨fun h => absurd h.1 (by omega), fun h => absurd (h.1 hend) hneg⟩
  · next hend =>
    have hi : index (s.heap.locate cd).1 8 (s.payload (s.heap.locate cd).2).length = none := if_neg fun hw => hend hw.2
    rw [hi]
    exact ⟨fun h => ⟨fun h' => absurd h' hend, h⟩, And.right⟩

theorem not_inside_raw {root n : ℕ} {p : BitVec 64} : ¬ s.Inside root (.read (.raw p) n) := by
  rintro ⟨a, ha, -⟩
  injection ha

/-- A scalar in the storage of another object is not read. -/
theorem scalarTouch_inside {root j a : ℕ} (hfit : s.ScalarFits j isFp a sz) :
    (∀ t ∈ scalarTouch j isFp a sz, s.Inside root t) ↔ j = root ∨ scalarTouch j isFp a sz = [] := by
  constructor
  · intro h
    by_cases hempty : scalarTouch j isFp a sz = []
    · exact .inr hempty
    · obtain ⟨t, ht⟩ := List.exists_mem_of_ne_nil _ hempty
      obtain ⟨b, hb, -⟩ := h t ht
      obtain ⟨c, hc, -⟩ := hfit t ht
      rw [hc] at hb
      injection hb with hj
      exact .inl hj
  · rintro (rfl | hempty)
    · exact hfit
    · rw [hempty]
      exact fun _ ht => absurd ht List.not_mem_nil

theorem derefScalar_safe :
    Returns (s.derefScalar cd off isFp sz) (fun r => ∀ t ∈ r.2, s.Inside (s.heap.locate cd).2 t) ↔
      s.heap.Resolves cd ∧ s.DerefScalarInBounds cd off isFp sz := by
  rw [derefScalar, Returns, Ensures.bind_iff, ← Returns, returns_storedAddrSigned, DerefScalarInBounds]
  refine and_congr_right fun _ => and_congr_right fun _ => and_congr_right fun _ => ?_
  dsimp only
  split
  · next hzero => exact ⟨fun _ => .inl hzero, fun _ => heldTouch_inside⟩
  · next hzero =>
    rw [or_iff_right hzero, Ensures.bind_iff]
    cases s.findStorage (s.heldAddr cd).toInt sz s.storages with
    | error f => exact ⟨False.elim, fun h => absurd h.choose_spec.choose_spec.1 (by simp)⟩
    | ok found =>
      cases found with
      | none =>
        refine ⟨fun h => ?_, fun h => absurd h.choose_spec.choose_spec.1 (by simp)⟩
        have hraw : s.Inside (s.heap.locate cd).2 (.read (.raw (s.heldAddr cd + .ofNat 64 off)) sz) :=
          h _ (List.mem_append_right _ (List.mem_singleton_self _))
        exact absurd hraw not_inside_raw
      | some ja =>
        obtain ⟨j, a⟩ := ja
        rw [Ensures.ok_iff]
        dsimp only
        rw [Ensures.bind_iff]
        simp only [pure_eq_ok, Ensures.ok_iff]
        rw [← Returns, returns_scalarAt]
        constructor
        · rintro ⟨hfit, hin⟩
          exact ⟨j, a, rfl, hfit, (scalarTouch_inside hfit).mp (List.forall_mem_append.mp hin).2⟩
        · rintro ⟨j', a', hfound, hfit, hin⟩
          obtain ⟨rfl, rfl⟩ := Prod.mk.inj (Option.some.inj (Except.ok.inj hfound))
          exact ⟨hfit, List.forall_mem_append.mpr ⟨heldTouch_inside, (scalarTouch_inside hfit).mpr hin⟩⟩

theorem findStorage_some {addr : ℤ} {n j a : ℕ} {js : List ℕ} (h : s.findStorage addr n js = .ok (some (j, a))) :
    a + n ≤ (s.payload j).length := by
  induction js with
  | nil => exact absurd h (by simp [findStorage])
  | cons k js ih =>
    rw [findStorage] at h
    split at h
    · next hstart =>
      obtain ⟨stop, hstop, h⟩ := bind_eq_ok.mp h
      split at h
      · next hend =>
        obtain ⟨rfl, rfl⟩ := Prod.mk.inj (Option.some.inj (Except.ok.inj h))
        have hsum : stop = addr + n := by
          rw [addI64] at hstop
          split at hstop
          · exact (Except.ok.inj hstop).symm
          · exact absurd hstop (by simp)
        omega
      · exact ih h
    · exact ih h

theorem derefObject_safe :
    Returns (s.derefObject cd fid off sz) (fun r => ∀ t ∈ r.2, s.Inside (s.heap.locate cd).2 t) ↔
      s.heap.Resolves cd ∧ s.DerefObjectInBounds cd off sz := by
  rw [derefObject, Returns, Ensures.bind_iff, ← Returns, returns_storedAddr, DerefObjectInBounds]
  refine and_congr_right fun _ => and_congr_right fun _ => ?_
  dsimp only
  split
  · next hzero => exact ⟨fun _ => .inl hzero, fun _ => heldTouch_inside⟩
  · next hzero =>
    rw [or_iff_right hzero, Ensures.bind_iff, ← Returns, returns_addI64]
    refine and_congr_right fun _ => ?_
    rw [Ensures.bind_iff]
    cases hfound : s.findStorage ((s.heldAddr cd).toInt + off) sz s.storages with
    | error f => exact ⟨False.elim, fun h => absurd h.choose_spec (by simp)⟩
    | ok found =>
      have hall : ∀ p : Place, (∀ t ∈ s.heldTouch cd ++ [.read p sz], s.Inside (s.heap.locate cd).2 t) ↔
          s.Inside (s.heap.locate cd).2 (.read p sz) := fun p => by
        rw [List.forall_mem_append, and_iff_right heldTouch_inside, List.forall_mem_singleton]
      refine (hall _).trans ?_
      cases found with
      | none => exact ⟨fun h => absurd h not_inside_raw, fun h => absurd h.choose_spec (by simp)⟩
      | some ja =>
        constructor
        · rintro ⟨a, ha, -⟩
          injection ha with hj
          exact ⟨ja.2, by rw [← hj]⟩
        · rintro ⟨a, h⟩
          have hja := Option.some.inj (Except.ok.inj h)
          rw [hja] at hfound ⊢
          exact ⟨a, rfl, findStorage_some hfound⟩

theorem wideField_inside {x : F64} {ts : List Touch} (hsz : fid = CTypeID.int64 ∨ fid = CTypeID.uint64 → sz = 8) :
    Returns (s.wideField cd fid off sz x ts) (fun r => ∀ t ∈ r.2, s.Inside (s.heap.locate cd).2 t) ↔
      (∀ t ∈ ts, s.Inside (s.heap.locate cd).2 t) ∧ (fid = CTypeID.int64 ∨ fid = CTypeID.uint64 → s.FieldInBounds cd off 8) := by
  unfold wideField
  split
  · next hwide =>
    have hfid : fid = CTypeID.int64 ∨ fid = CTypeID.uint64 := by simpa using ((Bool.and_eq_true _ _).mp hwide).1
    rw [returns_locateField, forall_prop_of_true hfid, and_comm]
    refine and_congr_left fun _ => ?_
    cases hi : index ((s.heap.locate cd).1 + off) 8 (s.payload (s.heap.locate cd).2).length with
    | none => exact Iff.rfl
    | some a =>
      refine List.forall_mem_append.trans (and_iff_left ?_)
      exact inside_single.mpr ⟨rfl, (index_some hi).2⟩
  · next hwide =>
    have hfid : ¬ (fid = CTypeID.int64 ∨ fid = CTypeID.uint64) := fun h => hwide (by simpa using ⟨h, hsz h⟩)
    exact ⟨fun h => ⟨h, fun h' => absurd h' hfid⟩, And.left⟩

end FfiState

end LuajitRs.Ffi
