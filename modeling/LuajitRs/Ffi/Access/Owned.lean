import LuajitRs.Ffi.Access.Safe

/-! The bulk functions, and the condition under which an access to C data stays within its storage. -/
namespace LuajitRs.Ffi
open Lib Lib.Bytes

namespace FfiState
variable {s : FfiState} {cd dst n : ℕ}

/-! ### Runs of bytes -/

/-- The index at which a run starts. -/
def start (s : FfiState) (cd : ℕ) : ℕ := clampStart (s.heap.locate cd).1

theorem room_eq : s.storageLength cd - s.start cd = s.room cd := by
  rw [start, clampStart, room]
  omega

theorem start_eq (h : 0 ≤ (s.heap.locate cd).1) : (s.start cd : ℤ) = (s.heap.locate cd).1 := by
  rw [start, clampStart]
  omega

theorem start_of_neg (h : (s.heap.locate cd).1 < 0) : s.start cd = 0 := by
  rw [start, clampStart]
  omega

/-- The start of a run does not lie behind the storage. -/
theorem start_le_iff : s.start cd ≤ s.storageLength cd ↔ (s.heap.locate cd).1 ≤ s.storageLength cd := by
  rw [start, clampStart]
  omega

theorem starts_iff : s.Starts cd ↔ 0 ≤ (s.heap.locate cd).1 ∧ (s.heap.locate cd).1 ≤ s.storageLength cd := by
  rw [Starts, Fits, Within, storageLength]
  omega

theorem readTouch_at {k : ℕ} (hstart : 0 ≤ (s.heap.locate cd).1 ∨ k = 0)
    (hfit : k = 0 ∨ s.start cd + k ≤ s.storageLength cd) :
    ∀ t ∈ readTouch (s.heap.locate cd).2 (s.start cd) k, s.At (s.heap.locate cd).2 (s.heap.locate cd).1 t := by
  intro t ht
  unfold readTouch at ht
  split at ht
  · exact absurd ht List.not_mem_nil
  · next hk =>
    rw [List.mem_singleton.mp ht]
    exact ⟨s.start cd, rfl, start_eq (hstart.resolve_right hk), hfit.resolve_left hk⟩

theorem writeTouch_at {bs : List UInt8} (hstart : 0 ≤ (s.heap.locate cd).1 ∨ bs.length = 0)
    (hfit : bs.length = 0 ∨ s.start cd + bs.length ≤ s.storageLength cd) :
    ∀ t ∈ writeTouch (s.heap.locate cd).2 (s.start cd) bs, s.At (s.heap.locate cd).2 (s.heap.locate cd).1 t := by
  intro t ht
  unfold writeTouch at ht
  split at ht
  · exact absurd ht List.not_mem_nil
  · next hbs =>
    have hlen : bs.length ≠ 0 := fun h => hbs (List.length_eq_zero_iff.mp h)
    rw [List.mem_singleton.mp ht]
    exact ⟨s.start cd, rfl, start_eq (hstart.resolve_right hlen), hfit.resolve_left hlen⟩

theorem readTouch_eq_nil {obj a k : ℕ} : readTouch obj a k = [] ↔ k = 0 := by
  unfold readTouch
  split
  · next h => exact ⟨fun _ => h, fun _ => rfl⟩
  · next h => exact ⟨fun h' => absurd h' (by simp), fun h' => absurd h' h⟩

theorem writeTouch_eq_nil {obj a : ℕ} {bs : List UInt8} : writeTouch obj a bs = [] ↔ bs.length = 0 := by
  unfold writeTouch
  split
  · next h => exact ⟨fun _ => by rw [h]; rfl, fun _ => rfl⟩
  · next h => exact ⟨fun h' => absurd h' (by simp), fun h' => absurd (List.length_eq_zero_iff.mp h') h⟩

/-- A run of `k` bytes holds when it is read at the start of an object. -/
theorem run_iff {ts : List Touch} {v : Val} {k m : ℕ} (hts : ts = [] ↔ k = 0)
    (hat : (0 ≤ (s.heap.locate cd).1 ∨ k = 0) → ∀ t ∈ ts, s.At (s.heap.locate cd).2 (s.heap.locate cd).1 t)
    (hle : (s.heap.locate cd).1 ≤ s.storageLength cd) (hv : k = 0 → v.IsEmpty)
    (hm : (s.heap.locate cd).1 < 0 → (k = 0 ↔ m = 0)) :
    s.Held (s.heap.locate cd).2 (s.heap.locate cd).1 0 (v, ts) ↔ ((s.heap.locate cd).1 < 0 → m = 0) := by
  by_cases hneg : (s.heap.locate cd).1 < 0
  · have hnot : ¬ s.Fits (s.heap.locate cd).2 (s.heap.locate cd).1 0 := fun h => absurd h.1 (by omega)
    rw [forall_prop_of_true hneg, ← hm hneg]
    constructor
    · intro h
      exact hts.mp (h.2 hnot).2
    · intro hk
      exact ⟨hat (.inr hk), fun _ => ⟨hv hk, hts.mpr hk⟩⟩
  · have hfits : s.Fits (s.heap.locate cd).2 (s.heap.locate cd).1 0 := by
      refine ⟨by omega, ?_⟩
      rw [storageLength] at hle
      omega
    exact ⟨fun _ h => absurd h hneg, fun _ => ⟨hat (.inl (by omega)), fun h => absurd hfits h⟩⟩

/-! ### The functions -/

theorem findIdx?_getD_le {d : List UInt8} {p : UInt8 → Bool} {m : ℕ} (hm : d.length = m) :
    (d.findIdx? p).getD m ≤ m := by
  cases h : d.findIdx? p with
  | none => exact le_rfl
  | some i =>
    rw [← hm]
    exact (List.findIdx?_eq_some_iff_findIdx_eq.mp h).1.le

/-- A slice from the start of an object, with as many bytes as there is room for. -/
theorem returns_run {k : ℕ} {Q : List UInt8 → Prop} (hk : k ≤ s.room cd) :
    Returns (slice (s.payload (s.heap.locate cd).2) (s.start cd) k) Q ↔
      (s.heap.locate cd).1 ≤ s.storageLength cd ∧ Q (window (s.payload (s.heap.locate cd).2) (s.start cd) k) := by
  rw [returns_slice, ← start_le_iff, ← storageLength]
  rw [← room_eq] at hk
  exact and_congr_left fun _ => by omega

theorem window_zero {d : List UInt8} {a k : ℕ} (h : k = 0) : window d a k = [] := by
  rw [h, window, List.take_zero]

theorem ffiString_safe {len : Option LuaValue} :
    Ensures LuaError (s.ffiString (.cdata cd) len) (s.Held (s.heap.locate cd).2 (s.heap.locate cd).1 0) ↔
      s.InBounds (.string cd len) := by
  have hroom : (s.payload (s.heap.locate cd).2).length - clampStart (s.heap.locate cd).1 = s.room cd := room_eq
  unfold ffiString
  dsimp only
  rw [ensures_lift, Returns, Ensures.bind_iff, ← Returns, CDataHeap.returns_resolvePtr]
  cases len with
  | some len =>
    rw [InBounds, RunInBounds]
    refine and_congr_right fun _ => ?_
    dsimp only
    rw [hroom, Ensures.bind_iff, ← Returns, ← start, returns_run (Nat.min_le_right ..)]
    refine and_congr_right fun hle => ?_
    rw [pure_eq_ok, Ensures.ok_iff]
    refine run_iff readTouch_eq_nil (fun h => readTouch_at h (.inr ?_)) hle (fun h => window_zero h) fun hneg => ?_
    · have hstart := start_le_iff.mpr hle
      rw [← room_eq]
      omega
    · rw [← room_eq, start_of_neg hneg, Nat.sub_zero]
  | none =>
    rw [InBounds, RunInBounds]
    refine and_congr_right fun _ => ?_
    dsimp only
    rw [hroom, Ensures.bind_iff, ← Returns, ← start, returns_run le_rfl]
    refine and_congr_right fun hle => ?_
    have hstart := start_le_iff.mpr hle
    have hlen : (window (s.payload (s.heap.locate cd).2) (s.start cd) (s.room cd)).length = s.room cd := by
      apply length_window
      rw [← room_eq, ← storageLength]
      omega
    have hn : ((window (s.payload (s.heap.locate cd).2) (s.start cd) (s.room cd)).findIdx? (· = 0)).getD (s.room cd) ≤
        s.room cd := findIdx?_getD_le hlen
    generalize ((window (s.payload (s.heap.locate cd).2) (s.start cd) (s.room cd)).findIdx? (· = 0)).getD (s.room cd) = n at hn ⊢
    rw [Ensures.bind_iff, ← Returns, returns_run hn, and_iff_right hle, pure_eq_ok, Ensures.ok_iff]
    refine run_iff readTouch_eq_nil (fun h => readTouch_at h (.inr ?_)) hle (fun h => window_zero ?_) fun hneg => ?_
    · rw [← room_eq]
      omega
    · omega
    · rw [← room_eq, start_of_neg hneg]
      omega

theorem ffiFill_safe {len : LuaValue} {byte : Option LuaValue} :
    Ensures LuaError ((s.ffiFill (.cdata dst) len byte).map fun ts => (Val.nil, ts))
        (s.Held (s.heap.locate dst).2 (s.heap.locate dst).1 0) ↔ s.InBounds (.fill dst len byte) := by
  have hroom : (s.payload (s.heap.locate dst).2).length - clampStart (s.heap.locate dst).1 = s.room dst := room_eq
  unfold ffiFill
  dsimp only
  rw [Ensures.map_iff, ensures_lift, Returns, Ensures.bind_iff, ← Returns, CDataHeap.returns_resolvePtr, InBounds, RunInBounds]
  refine and_congr_right fun _ => ?_
  rw [hroom, Ensures.bind_iff, ← Returns, ← start, returns_run (Nat.min_le_right ..)]
  refine and_congr_right fun hle => ?_
  have hstart := start_le_iff.mpr hle
  rw [pure_eq_ok, Ensures.ok_iff]
  refine run_iff (k := min (lengthArg len) (s.room dst)) ?_ (fun h => writeTouch_at ?_ (.inr ?_)) hle (fun _ => trivial) fun hneg => ?_
  · rw [writeTouch_eq_nil, List.length_replicate]
  · rw [List.length_replicate]
    exact h
  · rw [List.length_replicate, ← room_eq]
    omega
  · rw [← room_eq, start_of_neg hneg, Nat.sub_zero]

/-! ### Copies -/

/-- A run of `k` bytes that goes nowhere else than to the start of an object. -/
def Moves (s : FfiState) (cd k : ℕ) : Prop := (s.heap.locate cd).1 ≤ s.storageLength cd ∧ ((s.heap.locate cd).1 < 0 → k = 0)

theorem Moves.at_start {k : ℕ} (h : s.Moves cd k) : 0 ≤ (s.heap.locate cd).1 ∨ k = 0 := by
  by_cases hneg : (s.heap.locate cd).1 < 0
  · exact .inr (h.2 hneg)
  · exact .inl (by omega)

/-- The touches of a copy hold when none of its ends starts outside of its storage. -/
theorem copyHeld_iff {src : LuaValue} {k : ℕ} {tr tw : List Touch} (hle : (s.heap.locate dst).1 ≤ s.storageLength dst)
    (hr : ∀ sc, src = .cdata sc → (s.heap.locate sc).1 ≤ s.storageLength sc)
    (hnil : tr ++ tw = [] ↔ k = 0)
    (hread : ∀ sc, src = .cdata sc → (0 ≤ (s.heap.locate sc).1 ∨ k = 0) →
      ∀ t ∈ tr, s.At (s.heap.locate sc).2 (s.heap.locate sc).1 t)
    (hnone : (∀ sc, src ≠ .cdata sc) → tr = [])
    (hwrite : (0 ≤ (s.heap.locate dst).1 ∨ k = 0) → ∀ t ∈ tw, s.At (s.heap.locate dst).2 (s.heap.locate dst).1 t) :
    s.CopyHeld dst src (.nil, tr ++ tw) ↔
      ((s.heap.locate dst).1 < 0 → k = 0) ∧ ∀ sc, src = .cdata sc → (s.heap.locate sc).1 < 0 → k = 0 := by
  have hstarts : ∀ {cd}, (s.heap.locate cd).1 ≤ s.storageLength cd → (¬ s.Starts cd ↔ (s.heap.locate cd).1 < 0) := by
    intro cd h
    rw [starts_iff]
    omega
  constructor
  · intro h
    refine ⟨fun hneg => hnil.mp (h.2 (.inl ((hstarts hle).mpr hneg))), fun sc hsc hneg => hnil.mp (h.2 (.inr ⟨sc, hsc, ?_⟩))⟩
    exact (hstarts (hr sc hsc)).mpr hneg
  · rintro ⟨hdst, hsrc⟩
    refine ⟨fun t ht => ?_, ?_⟩
    · cases List.mem_append.mp ht with
      | inl ht =>
        by_cases hcd : ∃ sc, src = .cdata sc
        · obtain ⟨sc, hsc⟩ := hcd
          exact .inr ⟨sc, hsc, hread sc hsc (Moves.at_start ⟨hr sc hsc, hsrc sc hsc⟩) t ht⟩
        · rw [hnone fun sc hsc => hcd ⟨sc, hsc⟩] at ht
          exact absurd ht List.not_mem_nil
      | inr ht => exact .inl (hwrite (Moves.at_start ⟨hle, hdst⟩) t ht)
    · rintro (hnot | ⟨sc, hsc, hnot⟩)
      · exact hnil.mpr (hdst ((hstarts hle).mp hnot))
      · exact hnil.mpr (hsrc sc hsc ((hstarts (hr sc hsc)).mp hnot))

theorem writeTouch_run {bs : List UInt8} {k : ℕ} (hk : bs.length = k) (hroom : k ≤ s.room cd)
    (hle : (s.heap.locate cd).1 ≤ s.storageLength cd) (hstart : 0 ≤ (s.heap.locate cd).1 ∨ k = 0) :
    ∀ t ∈ writeTouch (s.heap.locate cd).2 (s.start cd) bs, s.At (s.heap.locate cd).2 (s.heap.locate cd).1 t := by
  have h := start_le_iff.mpr hle
  rw [← room_eq] at hroom
  exact writeTouch_at (by rw [hk]; exact hstart) (by rw [hk]; omega)

theorem copySource_cdata {sc len : ℕ} {Q : List UInt8 × List Touch → Prop} :
    Ensures LuaError (s.copySource (.cdata sc) len n) Q ↔
      s.heap.Resolves sc ∧ (s.heap.locate sc).1 ≤ s.storageLength sc ∧
        Q (window (s.payload (s.heap.locate sc).2) (s.start sc) (min (min len n) (s.room sc)),
          readTouch (s.heap.locate sc).2 (s.start sc) (min (min len n) (s.room sc))) := by
  have hroom : (s.payload (s.heap.locate sc).2).length - clampStart (s.heap.locate sc).1 = s.room sc := room_eq
  unfold copySource
  dsimp only
  rw [ensures_lift, Returns, Ensures.bind_iff, ← Returns, CDataHeap.returns_resolvePtr]
  refine and_congr_right fun _ => ?_
  rw [hroom, Ensures.bind_iff, ← Returns, ← start, returns_run (Nat.min_le_right ..)]
  exact Iff.rfl

/-- The bytes of a string that are copied, as many as are counted. -/
theorem copySource_str {k len : ℕ} {Q : List UInt8 × List Touch → Prop} :
    ∃ bs : List UInt8, bs.length = s.copyCount dst (.str k) len ∧
      (Ensures LuaError (s.copySource (.str k) len (s.room dst)) Q ↔ Q (bs, [])) := by
  unfold copySource copyCount
  dsimp only
  by_cases hlen : len = 0
  · rw [if_pos hlen, if_pos hlen]
    refine ⟨_, ?_, Iff.rfl⟩
    rw [List.length_append, List.length_take]
    by_cases hroom : min (s.bytes k).length (s.room dst - 1) < s.room dst
    · rw [if_pos hroom, List.length_singleton]
      omega
    · rw [if_neg hroom, List.length_nil]
      omega
  · rw [if_neg hlen, if_neg hlen]
    refine ⟨_, ?_, Iff.rfl⟩
    rw [List.length_take]

theorem copyCount_le {src : LuaValue} {len : ℕ} : s.copyCount dst src len ≤ s.room dst := by
  unfold copyCount
  split
  · omega
  · split
    · omega
    · omega
  · omega

/-- The part of a copy after its source has been read. -/
def copyInto (s : FfiState) (dst : ℕ) (bt : List UInt8 × List Touch) : Except FfiError (List Touch) := do
  let _ ← lift (slice (s.payload (s.heap.locate dst).2) (s.start dst) (min bt.1.length (s.room dst)))
  return bt.2 ++ writeTouch (s.heap.locate dst).2 (s.start dst) (bt.1.take (min bt.1.length (s.room dst)))

theorem ensures_ffiCopy {src len : LuaValue} {Q : List Touch → Prop} :
    Ensures LuaError (s.ffiCopy (.cdata dst) src len) Q ↔
      s.heap.Resolves dst ∧
        Ensures LuaError (s.copySource src (lengthArg len) (s.room dst)) fun bt => Ensures LuaError (s.copyInto dst bt) Q := by
  have hroom : (s.payload (s.heap.locate dst).2).length - clampStart (s.heap.locate dst).1 = s.room dst := room_eq
  unfold ffiCopy
  dsimp only
  rw [Ensures.bind_iff, ensures_lift, CDataHeap.returns_resolvePtr, hroom, Ensures.bind_iff]
  exact Iff.rfl

theorem ensures_copyInto {bs : List UInt8} {tr : List Touch} {Q : List Touch → Prop} (hle : bs.length ≤ s.room dst) :
    Ensures LuaError (s.copyInto dst (bs, tr)) Q ↔
      (s.heap.locate dst).1 ≤ s.storageLength dst ∧ Q (tr ++ writeTouch (s.heap.locate dst).2 (s.start dst) bs) := by
  unfold copyInto
  rw [Nat.min_eq_left hle, List.take_length, Ensures.bind_iff, ensures_lift, returns_run hle]
  exact Iff.rfl

theorem copy_cdata_safe {sc len : ℕ} :
    (Ensures LuaError (s.copySource (.cdata sc) len (s.room dst)) fun bt =>
        Ensures LuaError (s.copyInto dst bt) fun ts => s.CopyHeld dst (.cdata sc) (.nil, ts)) ↔
      s.Moves dst (s.copyCount dst (.cdata sc) len) ∧ s.RunInBounds sc (s.copyCount dst (.cdata sc) len) := by
  have hcount : s.copyCount dst (.cdata sc) len ≤ s.room dst := copyCount_le
  have hroom : s.copyCount dst (.cdata sc) len ≤ s.room sc := Nat.min_le_right ..
  have hcopy : min (min len (s.room dst)) (s.room sc) = s.copyCount dst (.cdata sc) len := rfl
  rw [copySource_cdata, hcopy, RunInBounds, Moves]
  generalize s.copyCount dst (.cdata sc) len = k at hcount hroom
  by_cases hleS : (s.heap.locate sc).1 ≤ s.storageLength sc
  · have hstart := start_le_iff.mpr hleS
    rw [← room_eq] at hroom
    have hlen : (window (s.payload (s.heap.locate sc).2) (s.start sc) k).length = k := by
      apply length_window
      rw [← storageLength]
      omega
    rw [ensures_copyInto (by rw [hlen]; exact hcount), and_iff_right hleS]
    by_cases hleD : (s.heap.locate dst).1 ≤ s.storageLength dst
    · have hheld : s.CopyHeld dst (.cdata sc) (.nil, readTouch (s.heap.locate sc).2 (s.start sc) k ++
            writeTouch (s.heap.locate dst).2 (s.start dst) (window (s.payload (s.heap.locate sc).2) (s.start sc) k)) ↔
          ((s.heap.locate dst).1 < 0 → k = 0) ∧ ∀ sc', LuaValue.cdata sc = .cdata sc' → (s.heap.locate sc').1 < 0 → k = 0 := by
        refine copyHeld_iff hleD ?_ ?_ ?_ (fun h => absurd rfl (h sc)) (writeTouch_run hlen hcount hleD)
        · rintro _ ⟨⟩
          exact hleS
        · rw [List.append_eq_nil_iff, readTouch_eq_nil, writeTouch_eq_nil, hlen, and_self]
        · rintro _ ⟨⟩ h
          exact readTouch_at h (.inr (by omega))
      rw [hheld]
      constructor
      · rintro ⟨hres, -, hd, hsc⟩
        exact ⟨⟨hleD, hd⟩, hres, hleS, hsc sc rfl⟩
      · rintro ⟨⟨-, hd⟩, hres, -, hsc⟩
        refine ⟨hres, hleD, hd, ?_⟩
        rintro _ ⟨⟩
        exact hsc
    · exact ⟨fun h => absurd h.2.1 hleD, fun h => absurd h.1.1 hleD⟩
  · exact ⟨fun h => absurd h.2.1 hleS, fun h => absurd h.2.2.1 hleS⟩

theorem copy_str_safe {k len : ℕ} :
    (Ensures LuaError (s.copySource (.str k) len (s.room dst)) fun bt =>
        Ensures LuaError (s.copyInto dst bt) fun ts => s.CopyHeld dst (.str k) (.nil, ts)) ↔
      s.Moves dst (s.copyCount dst (.str k) len) := by
  have hcount : s.copyCount dst (.str k) len ≤ s.room dst := copyCount_le
  obtain ⟨bs, hlen, hsource⟩ : ∃ bs : List UInt8, bs.length = s.copyCount dst (.str k) len ∧
      ((Ensures LuaError (s.copySource (.str k) len (s.room dst)) fun bt =>
        Ensures LuaError (s.copyInto dst bt) fun ts => s.CopyHeld dst (.str k) (.nil, ts)) ↔
        Ensures LuaError (s.copyInto dst (bs, [])) fun ts => s.CopyHeld dst (.str k) (.nil, ts)) := copySource_str
  rw [hsource, ensures_copyInto (by rw [hlen]; exact hcount), Moves]
  refine and_congr_right fun hle => ?_
  have hheld : s.CopyHeld dst (.str k) (.nil, [] ++ writeTouch (s.heap.locate dst).2 (s.start dst) bs) ↔
      ((s.heap.locate dst).1 < 0 → s.copyCount dst (.str k) len = 0) ∧
        ∀ sc, LuaValue.str k = .cdata sc → (s.heap.locate sc).1 < 0 → s.copyCount dst (.str k) len = 0 := by
    refine copyHeld_iff hle (fun sc h => absurd h (by simp)) ?_ (fun sc h => absurd h (by simp)) (fun _ => rfl)
      (writeTouch_run hlen hcount hle)
    rw [List.nil_append, writeTouch_eq_nil, hlen]
  exact hheld.trans (and_iff_left fun sc h => absurd h (by simp))

theorem ffiCopy_safe {src len : LuaValue} :
    Ensures LuaError ((s.ffiCopy (.cdata dst) src len).map fun ts => (Val.nil, ts)) (s.CopyHeld dst src) ↔
      s.InBounds (.copy dst src len) := by
  rw [Ensures.map_iff, ensures_ffiCopy]
  cases src with
  | cdata sc =>
    rw [copy_cdata_safe, ← and_assoc]
    exact Iff.rfl
  | str k =>
    rw [copy_str_safe]
    exact Iff.rfl
  | _ => exact and_iff_left trivial

/-! ### All accesses -/

/-- C data that is no raw pointer is accessed within its storage, and only where it fits, under the condition on its
offsets, its index and its types: the arithmetic does not overflow or wrap around into the storage, a member is found
without an endless search, an array is not taken for an address, and a run of bytes starts in the storage. -/
theorem access_safe_iff (s : FfiState) (op : Access) (howned : s.Owned op) : s.Safe op ↔ s.InBounds op := by
  cases op with
  | get cd key => exact cdataIndex_safe howned
  | put cd key val =>
    rw [Safe, run, Ensures.map_iff]
    exact cdataNewindex_safe howned
  | string cd len => exact ffiString_safe
  | copy dst src len => exact ffiCopy_safe
  | fill dst len byte => exact ffiFill_safe

/-- The runtime with the predefined types and one object that is no alias. -/
def lone (c : CData) (hbase : c.base = none) (hlen : c.data.length < 2^63) : FfiState where
  cts := .new
  heap :=
    { objs := [c]
      dataPtr := fun _ => 0
      base_lt := by
        intro a d b hd hb
        cases a with
        | zero =>
          rw [← Option.some.inj hd, hbase] at hb
          exact absurd hb (by simp)
        | succ a => exact absurd hd (by simp) }
  cstring := fun _ => none
  callback := fun _ _ => .error (.runtime "")
  mem := fun _ => 0
  bytes := fun _ => []
  text := fun _ => ""
  seq := fun _ => []
  payload_lt := by
    intro obj
    cases obj with
    | zero => exact hlen
    | succ obj => exact Nat.two_pow_pos 63
  predefined_kept := fun _ _ _ => rfl
  complex_predefined := by
    intro id h
    have hnone : ∀ k < 26, ctypeIsComplex (CTState.new.get k).info = true → k = 17 ∨ k = 18 := by decide
    by_cases hid : id < 26
    · exact hnone id hid h
    · have hget : CTState.new.get id = ⟨ctInfo .attrib CTInfo.ATTR_BAD, 0, 0⟩ := by
        rw [CTState.get, List.getD_eq_getElem?_getD, List.getElem?_eq_none (by exact Nat.le_of_not_lt hid)]
        rfl
      rw [hget] at h
      exact absurd h (by decide)

/-- A double in its own storage. -/
def loneDouble : FfiState := lone ⟨16, List.replicate 8 0, none, 0⟩ rfl (by decide)

theorem loneDouble_owned : ctypeIsPtr (loneDouble.rawOf 0).info = false := by decide

theorem loneDouble_size : loneDouble.elemSize 0 = 8 := by decide

/-- The number is read at its own index. -/
theorem access_safe_double : loneDouble.Safe (.get 0 (.num .zero)) := by
  refine (access_safe_iff loneDouble (.get 0 (.num .zero)) loneDouble_owned).mpr ?_
  refine .inr ⟨trivial, ?_⟩
  rw [loneDouble_size]
  exact ⟨⟨by decide, by decide⟩, fun _ => by decide, .inl (by decide)⟩

/-- Index `2^61` is as good as index zero for the code. -/
theorem access_unsafe_wrapped : ¬ ∀ (s : FfiState) (op : Access), s.Owned op → s.Safe op := by
  intro h
  have hsafe : loneDouble.KeyInBounds 0 (.num ⟨0x43C0000000000000⟩) (loneDouble.GetInBounds 0) :=
    (cdataIndex_safe loneDouble_owned).mp (h loneDouble (.get 0 (.num ⟨0x43C0000000000000⟩)) loneDouble_owned)
  cases hsafe with
  | inl hsize => exact absurd hsize (by decide)
  | inr hbounds =>
    obtain ⟨-, -, -, hpos⟩ := hbounds
    rw [loneDouble_size] at hpos
    cases hpos with
    | inl hwrap => exact absurd hwrap (by decide)
    | inr hmiss => exact hmiss ⟨by decide, by decide⟩

end FfiState

end LuajitRs.Ffi
