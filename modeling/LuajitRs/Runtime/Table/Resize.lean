import LuajitRs.Runtime.Table.Set

/-! `resize`, `rehash` and the recursion of `set` through them. A resize empties the table except for
the array slots that stay and sets the other entries again; the sizes of a rehash leave room for all
of these and for the key that caused it, so that `set` recurs at most once. -/
namespace LuajitRs
open Lib.Chain

namespace LuaTable
variable {h : LuaValue → UInt32} {t t' : LuaTable} {key v k : LuaValue}

/-! ### The entries that a resize sets again -/

/-- The entries of a table that do not fit an array part of size `asize`. -/
def movedEntries (t : LuaTable) (asize : ℕ) : List (LuaValue × LuaValue) := t.dropped asize ++ t.hashEntries

theorem filterMap_ite {α β : Type} (p : α → Bool) (f : α → β) (l : List α) :
    (l.filterMap fun a => if p a then none else some (f a)) = (l.filter fun a => !p a).map f := by
  induction l with
  | nil => rfl
  | cons a l ih => cases hp : p a <;> simp [hp, ih]

theorem dropped_eq (w : t.Wf) (a : ℕ) :
    t.dropped a = (t.arrayKeys.filter (a ≤ ·)).map fun i => (.ofInt i, t.array.getD i .nil) := by
  have hzip : (t.array.drop a).zipIdx a =
      (List.range' a (t.asize - a)).map fun j => (t.array.getD j .nil, j) := by
    rw [w.asize_eq]
    apply List.ext_getElem (by simp)
    intro i h₁ h₂
    simp only [List.length_zipIdx, List.length_drop] at h₁
    simp [List.getD_eq_getElem?_getD, show a + i < t.array.length by omega]
  have hkeys : t.arrayKeys.filter (a ≤ ·) =
      (List.range' a (t.asize - a)).filter fun j => !(t.array.getD j .nil).isNil := by
    have hlow : ∀ n ≤ a, (t.arrayKeysBelow n).filter (a ≤ ·) = [] := by
      intro n hn
      rw [List.filter_eq_nil_iff]
      intro j hj
      simp only [arrayKeysBelow, List.mem_filter, List.mem_range] at hj
      simp only [decide_eq_true_eq]
      omega
    by_cases ha : a ≤ t.asize
    · rw [arrayKeys, show t.asize = a + (t.asize - a) by omega, arrayKeysBelow_add, List.filter_append,
        hlow a le_rfl, List.nil_append, Nat.add_sub_cancel_left, List.filter_filter]
      apply List.filter_congr
      intro j hj
      have := (List.mem_range'_1.mp hj).1
      simp [this]
    · rw [arrayKeys, hlow _ (by omega), Nat.sub_eq_zero_of_le (by omega)]
      rfl
  rw [dropped, hzip, hkeys, List.filterMap_map]
  exact filterMap_ite (fun j => (t.array.getD j .nil).isNil) _ _

theorem mem_dropped (w : t.Wf) {a : ℕ} :
    (k, v) ∈ t.dropped a ↔ v ≠ .nil ∧ ∃ i, a ≤ i ∧ i < t.asize ∧ k = .ofInt i ∧ t.array.getD i .nil = v := by
  simp only [dropped_eq w, List.mem_map, List.mem_filter, arrayKeys, arrayKeysBelow, List.mem_range,
    Prod.mk.injEq, decide_eq_true_eq, LuaValue.isNil, Bool.not_eq_true', decide_eq_false_iff_not]
  constructor
  · rintro ⟨i, ⟨⟨hi, hv⟩, ha⟩, rfl, rfl⟩
    exact ⟨hv, i, ha, hi, rfl, rfl⟩
  · rintro ⟨hv, i, ha, hi, rfl, rfl⟩
    exact ⟨i, ⟨⟨hi, hv⟩, ha⟩, rfl, rfl⟩

theorem hashEntries_eq (w : t.Wf) : t.hashEntries = (liveNodes t.node).map fun nd => (nd.key, nd.val) := by
  unfold hashEntries
  split_ifs with hp
  · exact filterMap_ite (fun nd : Node => nd.val.isNil) _ _
  · have hnil : t.node = [] := by
      rw [w.hasHpart_iff] at hp
      exact List.length_eq_zero_iff.mp (by omega)
    simp [hnil, liveNodes]

theorem mem_hashEntries (w : t.Wf) : (k, v) ∈ t.hashEntries ↔ t.Entry k v := by
  simp only [hashEntries_eq w, List.mem_map, liveNodes, List.mem_filter, Prod.mk.injEq, LuaValue.isNil,
    Bool.not_eq_true', decide_eq_false_iff_not]
  constructor
  · rintro ⟨nd, ⟨hmem, hnd⟩, rfl, rfl⟩
    obtain ⟨i, hi, rfl⟩ := List.mem_iff_getElem.mp hmem
    exact ⟨hnd, i, by simp [nodeAt, hi], by simp [nodeAt, hi]⟩
  · rintro ⟨hv, i, rfl, rfl⟩
    have hi := lt_of_keyed (w.keyed_of_live (i := i) hv)
    have hat : t.nodeAt i = t.node[i] := by simp [nodeAt, hi]
    exact ⟨t.nodeAt i, ⟨hat ▸ List.getElem_mem hi, hv⟩, rfl, rfl⟩

theorem mem_movedEntries (w : t.Wf) (fd : t.Findable h) {a : ℕ} (hkv : (k, v) ∈ t.movedEntries a) :
    k.ValidKey ∧ v ≠ .nil ∧ t.value k = v ∧ ∀ i, t.arrayIdx k = some i → a ≤ i := by
  obtain hd | he := List.mem_append.mp hkv
  · obtain ⟨hv, i, ha, hi, rfl, rfl⟩ := (mem_dropped w).mp hd
    have hidx := arrayIdx_ofInt w hi
    have hmax := w.asize_le
    refine ⟨LuaValue.validKey_ofInt ?_, hv, value_of_arrayIdx hidx, fun j hj => ?_⟩
    · simp only [LJ_MAX_ASIZE, LJ_MAX_ABITS] at hmax
      omega
    · rw [hidx, Option.some.injEq] at hj
      omega
  · have he := (mem_hashEntries w).mp he
    obtain ⟨hv, i, rfl, hiv⟩ := he
    have hi : t.Live i := by rw [Live, hiv]; exact hv
    refine ⟨w.valid i (w.keyed_of_live hi), hv, ?_, fun j hj => ?_⟩
    · rw [value_of_hash (w.split i hi)]
      exact ((entry_iff w fd).mp ⟨hv, i, rfl, hiv⟩).2
    · rw [w.split i hi] at hj
      cases hj

/-- Every stored value is either moved or in an array slot below the new size. -/
theorem moved_or_kept (w : t.Wf) (fd : t.Findable h) (a : ℕ) (hk : k.Normal) (hv : t.value k ≠ .nil) :
    (k, t.value k) ∈ t.movedEntries a ∨ ∃ i, i < a ∧ t.arrayIdx k = some i := by
  cases hidx : t.arrayIdx k with
  | some i =>
    by_cases ha : a ≤ i
    · refine .inl (List.mem_append_left _ ((mem_dropped w).mpr ⟨hv, i, ha, ?_, ?_, ?_⟩))
      · exact (arrayIdx_eq_some.mp hidx).2
      · exact eq_ofInt_of_arrayIdx hk hidx
      · exact (value_of_arrayIdx hidx).symm
    · exact .inr ⟨i, by omega, rfl⟩
  | none =>
    refine .inl (List.mem_append_right _ ((mem_hashEntries w).mpr ((entry_iff w fd).mpr ⟨hv, ?_⟩)))
    exact (value_of_hash hidx).symm

theorem nodup_movedEntries (w : t.Wf) (fd : t.Findable h) (a : ℕ) :
    ((t.movedEntries a).map Prod.fst).Nodup := by
  rw [movedEntries, List.map_append, List.nodup_append]
  refine ⟨?_, ?_, ?_⟩
  · rw [dropped_eq w, List.map_map]
    refine List.Nodup.map_on ?_ ((List.nodup_range.filter _).filter _)
    intro i hi j hj hij
    simp only [arrayKeys, arrayKeysBelow, List.mem_filter, List.mem_range] at hi hj
    have h₁ := arrayIdx_ofInt w hi.1.1
    rw [show LuaValue.ofInt i = LuaValue.ofInt j from hij, arrayIdx_ofInt w hj.1.1] at h₁
    exact (Option.some.inj h₁).symm
  · rw [hashEntries_eq w, List.map_map, List.Nodup, List.pairwise_map, liveNodes, List.pairwise_filter,
      List.pairwise_iff_getElem]
    intro i j hi hj hij hli hlj hkey
    have hati : t.nodeAt i = t.node[i] := by simp [nodeAt, hi]
    have hatj : t.nodeAt j = t.node[j] := by simp [nodeAt, hj]
    simp only [LuaValue.isNil, Bool.not_eq_true', decide_eq_false_iff_not] at hli hlj
    have hki : (t.nodeAt i).key = (t.nodeAt j).key := by rw [hati, hatj]; exact hkey
    have hl : t.Live i := by rw [Live, hati]; exact hli
    have hl' : t.Live j := by rw [Live, hatj]; exact hlj
    have := w.forest.antisymm (fd.first i hl j (hki ▸ fd.homed j hl') hki.symm)
      (fd.first j hl' i (hki ▸ fd.homed i hl) hki)
    omega
  · intro x hx y hy
    obtain ⟨⟨x, u⟩, hxu, rfl⟩ := List.mem_map.mp hx
    obtain ⟨⟨y, v⟩, hyv, rfl⟩ := List.mem_map.mp hy
    obtain ⟨_, i, _, hi, rfl, _⟩ := (mem_dropped w).mp hxu
    obtain ⟨hv, j, rfl, hjv⟩ := (mem_hashEntries w).mp hyv
    rintro he
    have hnone := w.split j (by rw [Live, hjv]; exact hv)
    have : LuaValue.ofInt i = (t.nodeAt j).key := he
    rw [← this, arrayIdx_ofInt w hi] at hnone
    cases hnone

/-! ### The emptied table -/

/-- The table with the new sizes before the entries are set again. -/
def emptied (t : LuaTable) (asize hbits : ℕ) : LuaTable :=
  { t with
    array := t.array.take asize ++ .replicate (asize - t.array.length) .nil, asize := asize
    node := if hbits = 0 then [] else .replicate (2^hbits) .EMPTY
    hmask := if hbits = 0 then 0 else 2^hbits - 1
    freetop := if hbits = 0 then 0 else 2^hbits }

theorem resizeHpart_eq (g : LuaTable) (hnode : g.node = []) (htop : g.hmask = 0 → g.freetop = 0)
    {hbits : ℕ} (hb : hbits ≤ LJ_MAX_HBITS) : g.resizeHpart hbits = .ok { g with
      node := if hbits = 0 then [] else .replicate (2^hbits) .EMPTY
      hmask := if hbits = 0 then 0 else 2^hbits - 1
      freetop := if hbits = 0 then 0 else 2^hbits } := by
  unfold resizeHpart
  by_cases h0 : hbits = 0
  · cases g
    simp only at hnode htop
    split_ifs <;> simp_all
  · simp [newHpart, h0, Nat.not_lt.mpr hb]

theorem freetop_of_hmask (w : t.Wf) (hm : t.hmask = 0) : t.freetop = 0 := by
  obtain ⟨_, hn⟩ | ⟨b, hb0, _, _, hmb⟩ := w.size
  · have := w.freetop_le
    simpa [hn] using this
  · have : 2^1 ≤ 2^b := Nat.pow_le_pow_right (by norm_num) hb0
    omega

theorem setAll_append (setf : Setter) (x : LuaTable) (es fs : List (LuaValue × LuaValue)) :
    setAll setf x (es ++ fs) = (setAll setf x es >>= fun y => setAll setf y fs) := by
  simp [setAll, List.foldlM_append]

theorem resizeWith_sized (hlen : t.asize = t.array.length) (htop : t.hmask = 0 → t.freetop = 0) (setf : Setter)
    {asize hbits : ℕ} (ha : asize ≤ LJ_MAX_ASIZE) (hb : hbits ≤ LJ_MAX_HBITS) :
    t.resizeWith setf asize hbits = setAll setf (t.emptied asize hbits) (t.movedEntries asize) := by
  have hgrow : (t.growArray asize).resizeHpart hbits = .ok { t.growArray asize with
      node := if hbits = 0 then [] else .replicate (2^hbits) .EMPTY
      hmask := if hbits = 0 then 0 else 2^hbits - 1
      freetop := if hbits = 0 then 0 else 2^hbits } := by
    refine resizeHpart_eq _ ?_ ?_ hb
    · unfold growArray; split_ifs <;> rfl
    · unfold growArray; split_ifs <;> exact htop
  have hkeep : t.asize ≤ asize → t.dropped asize = [] := by
    intro hle
    rw [dropped, List.drop_eq_nil_of_le (by omega)]
    rfl
  rw [resizeWith, if_neg (by omega), hgrow, movedEntries, setAll_append]
  simp only [bind, Except.bind, shrinkArray, growArray]
  by_cases hlt : t.asize < asize
  · rw [if_pos hlt, if_neg (by omega), hkeep hlt.le, emptied, List.take_of_length_le (by omega)]
    rfl
  · rw [if_neg hlt, emptied, show asize - t.array.length = 0 by omega, List.replicate_zero, List.append_nil]
    by_cases hshrink : asize < t.asize
    · rw [if_pos hshrink]
    · rw [if_neg hshrink, hkeep (by omega), List.take_of_length_le (by omega), show asize = t.asize by omega]
      rfl

theorem resizeWith_eq (w : t.Wf) (setf : Setter) {asize hbits : ℕ} (ha : asize ≤ LJ_MAX_ASIZE)
    (hb : hbits ≤ LJ_MAX_HBITS) :
    t.resizeWith setf asize hbits = setAll setf (t.emptied asize hbits) (t.movedEntries asize) :=
  resizeWith_sized w.asize_eq (freetop_of_hmask w) setf ha hb

theorem resizeWith_overflow (setf : Setter) {asize hbits : ℕ}
    (hover : LJ_MAX_ASIZE < asize ∨ LJ_MAX_HBITS < hbits) :
    t.resizeWith setf asize hbits = .error .tableOverflow := by
  unfold resizeWith
  split_ifs with ha
  · rfl
  · have hb := hover.resolve_left ha
    have h0 : hbits ≠ 0 := by omega
    simp [resizeHpart, h0, newHpart, hb, bind, Except.bind]

section Emptied
variable {asize hbits : ℕ}

theorem nodeAt_emptied (i : ℕ) : (t.emptied asize hbits).nodeAt i = .EMPTY := by
  unfold emptied nodeAt
  split_ifs with h0
  · simp
  · simp [List.getD_eq_getElem?_getD, List.getElem?_replicate]
    split_ifs <;> rfl

theorem not_keyed_emptied (i : ℕ) : ¬ (t.emptied asize hbits).Keyed i := by
  rw [Keyed, nodeAt_emptied]
  exact not_not.mpr rfl

theorem nextOf_emptied : (t.emptied asize hbits).nextOf = fun _ => none := by
  funext i
  rw [nextOf_eq_none, nodeAt_emptied]
  rfl

theorem length_emptied : (t.emptied asize hbits).node.length = if hbits = 0 then 0 else 2^hbits := by
  unfold emptied
  split_ifs <;> simp

theorem chained_emptied (ha : asize ≤ LJ_MAX_ASIZE) (hb : hbits ≤ LJ_MAX_HBITS) :
    (t.emptied asize hbits).Chained h where
  asize_eq := by simp [emptied]; omega
  asize_le := ha
  size := by
    by_cases h0 : hbits = 0
    · exact .inl (by simp [emptied, h0])
    · exact .inr ⟨hbits, by omega, hb, by simp [emptied, h0], by simp [emptied, h0]⟩
  freetop_le := by rw [length_emptied]; exact le_rfl
  next_lt i j hij := by simp [nextOf_emptied] at hij
  forest := by rw [nextOf_emptied]; exact .empty
  fresh i _ := by
    rw [nextOf_emptied, Live, nodeAt_emptied]
    exact ⟨⟨rfl, by simp⟩, not_not.mpr rfl⟩
  top_keyed i htop hlt := by
    rw [length_emptied] at hlt
    exact absurd htop (Nat.not_le.mpr hlt)
  valid i hi := absurd hi (not_keyed_emptied i)
  split i hi := absurd (by rw [nodeAt_emptied]; rfl) hi
  homed i hi := absurd hi (not_keyed_emptied i)
  unique i _ hi := absurd hi (not_keyed_emptied i)
  foreign i hi := absurd hi (not_keyed_emptied i)

theorem card_freeSet_emptied :
    (t.emptied asize hbits).freeSet.card = if hbits = 0 then 0 else 2^hbits := by
  rw [← length_emptied, freeSet, Finset.filter_true_of_mem, Finset.card_range]
  intro i _
  exact not_not.mp (not_keyed_emptied i)

theorem getD_emptied (i : ℕ) : (t.emptied asize hbits).array.getD i .nil =
    if i < asize then t.array.getD i .nil else .nil := by
  simp only [emptied, List.getD_eq_getElem?_getD]
  by_cases hlt : i < t.array.length
  · by_cases ha : i < asize
    · rw [List.getElem?_append_left (by simp; omega)]
      simp [ha]
    · rw [if_neg ha, List.getElem?_eq_none (by simp; omega)]
      rfl
  · rw [List.getElem?_append_right (by simp; omega), List.getElem?_replicate]
    split_ifs <;> simp [hlt]

theorem hashVal_emptied : (t.emptied asize hbits).hashVal k = .nil := by
  refine hashVal_eq_nil ?_
  rintro u ⟨hu, i, _, hiu⟩
  rw [nodeAt_emptied] at hiu
  exact hu hiu.symm

/-- The emptied table keeps the array slots below both sizes and nothing else. -/
theorem value_emptied_kept {i : ℕ} (hidx : t.arrayIdx k = some i) (hi : i < asize) :
    (t.emptied asize hbits).value k = t.value k := by
  have hnew : (t.emptied asize hbits).arrayIdx k = some i :=
    arrayIdx_eq_some.mpr ⟨(arrayIdx_eq_some.mp hidx).1, hi⟩
  rw [value_of_arrayIdx hnew, value_of_arrayIdx hidx, getD_emptied, if_pos hi]

theorem value_emptied_nil (w : t.Wf) (hout : ∀ i, t.arrayIdx k = some i → asize ≤ i) :
    (t.emptied asize hbits).value k = .nil := by
  cases hnew : (t.emptied asize hbits).arrayIdx k with
  | none => rw [value_of_hash hnew, hashVal_emptied]
  | some i =>
    obtain ⟨hkey, hi⟩ := arrayIdx_eq_some.mp hnew
    have hi : i < asize := hi
    have hge : t.array.length ≤ i := by
      rw [← w.asize_eq]
      by_contra hlt
      have := hout i (arrayIdx_eq_some.mpr ⟨hkey, by omega⟩)
      omega
    rw [value_of_arrayIdx hnew, getD_emptied, if_pos hi]
    simp [hge]

end Emptied

/-! ### Setting a list of entries -/

/-- What the setting of a list of entries leads to: a table that stores them all, or the fault of a
table that has grown too large. -/
def Outcome (P : LuaTable → Prop) (big : Prop) : Except Fault LuaTable → Prop
  | .ok t => P t
  | .error e => e = .tableOverflow ∧ big

theorem Outcome.imp {P Q : LuaTable → Prop} {b c : Prop} {r : Except Fault LuaTable} (hr : Outcome P b r)
    (hpq : ∀ t, P t → Q t) (hbc : b → c) : Outcome Q c r := by
  cases r with
  | ok t => exact hpq t hr
  | error e => exact ⟨hr.1, hbc hr.2⟩

/-- The table `t'` stores the entries `es` and is otherwise like `t`. -/
def PutsAll (t t' : LuaTable) (es : List (LuaValue × LuaValue)) : Prop :=
  ∀ k, k.Normal → (∀ v, (k, v) ∈ es → t'.value k = v) ∧ (k ∉ es.map Prod.fst → t'.value k = t.value k)

/-- A step that stores one entry and keeps `Q`, repeated over entries with distinct keys. -/
theorem setAll_outcome {setf : Setter} {Q : LuaTable → List (LuaValue × LuaValue) → Prop} {big : Prop}
    (step : ∀ t e es, Q t (e :: es) →
      Outcome (fun t' => Q t' es ∧ t.Puts t' e.1 e.2) big (setf t e.1 e.2)) :
    ∀ (es : List (LuaValue × LuaValue)) (t : LuaTable), Q t es → (es.map Prod.fst).Nodup →
      Outcome (fun t' => Q t' [] ∧ t.PutsAll t' es) big (setAll setf t es) := by
  intro es
  induction es with
  | nil => exact fun t hq _ => ⟨hq, fun k _ => ⟨by simp, fun _ => rfl⟩⟩
  | cons e es ih =>
    intro t hq hnd
    rw [List.map_cons, List.nodup_cons] at hnd
    have hstep := step t e es hq
    have hfold : setAll setf t (e :: es) = setf t e.1 e.2 >>= fun t' => setAll setf t' es := rfl
    rw [hfold]
    cases hr : setf t e.1 e.2 with
    | error f => rw [hr] at hstep; exact hstep
    | ok t₁ =>
      rw [hr] at hstep
      obtain ⟨hq₁, hput⟩ := hstep
      refine (ih t₁ hq₁ hnd.2).imp (fun t' ht' => ⟨ht'.1, fun k hk => ?_⟩) id
      obtain ⟨hin, hout⟩ := ht'.2 k hk
      constructor
      · intro v hv
        obtain rfl | hv := List.mem_cons.mp hv
        · rw [hout hnd.1, hput k hk, if_pos rfl]
        · exact hin v hv
      · intro hnot
        simp only [List.map_cons, List.mem_cons, not_or] at hnot
        rw [hout hnot.2, hput k hk, if_neg hnot.1]

/-- Setting the moved entries on the emptied table restores all values. -/
theorem value_of_putsAll (w : t.Wf) (fd : t.Findable h) {asize hbits : ℕ}
    (hput : (t.emptied asize hbits).PutsAll t' (t.movedEntries asize)) (hk : k.Normal) :
    t'.value k = t.value k := by
  obtain ⟨hin, hout⟩ := hput k hk
  by_cases hmem : k ∈ (t.movedEntries asize).map Prod.fst
  · obtain ⟨⟨k, v⟩, hkv, rfl⟩ := List.mem_map.mp hmem
    rw [hin v hkv, (mem_movedEntries w fd hkv).2.2.1]
  · rw [hout hmem]
    by_cases hidx : ∃ i, i < asize ∧ t.arrayIdx k = some i
    · obtain ⟨i, hi, hidx⟩ := hidx
      exact value_emptied_kept hidx hi
    · push Not at hidx
      rw [value_emptied_nil w fun i hi => by by_contra hlt; exact hidx i (by omega) hi]
      by_contra hv
      obtain hmv | hkept := moved_or_kept w fd asize hk (Ne.symm hv)
      · exact hmem (List.mem_map_of_mem hmv)
      · obtain ⟨i, hi, he⟩ := hkept
        exact hidx i hi he

/-! ### Room for the entries -/

/-- The key goes to the hash part of a table with array size `a`. -/
def hashBound (a : ℕ) (k : LuaValue) : Bool :=
  match arrayKey k with
  | some i => a ≤ i
  | none => true

theorem arrayIdx_eq_none : t.arrayIdx k = none ↔ hashBound t.asize k = true := by
  unfold arrayIdx hashBound
  cases arrayKey k with
  | none => simp
  | some i => simp

/-- How many of the entries need a node. -/
def needed (a : ℕ) (es : List (LuaValue × LuaValue)) : ℕ := es.countP fun e => hashBound a e.1

theorem chained_nomm (ch : t.Chained h) (m : ℕ) : Chained h { t with nomm := m } :=
  ⟨wf_nomm ch.toWf m, ch.homed, ch.unique, ch.foreign⟩

theorem clearNomm_eq (t : LuaTable) (key : LuaValue) : ∃ m, t.clearNomm key = { t with nomm := m } := by
  unfold clearNomm
  split_ifs
  · exact ⟨0, rfl⟩
  · exact ⟨t.nomm, rfl⟩

theorem setD_fits (d : ℕ) (w : t.Wf) (fd : t.Findable h) (hk : key.ValidKey) (hfit : t.Fits h key)
    (hstay : t.NoStrand h key) (v : LuaValue) :
    ∃ t', setD h (d+1) t key v = .ok t' ∧ SetTo h t t' key v := by
  obtain ⟨m, hm⟩ := clearNomm_eq t key
  obtain ⟨t', heq, st⟩ := setTurn_fits (t := { t with nomm := m }) (wf_nomm w m) ⟨fd.homed, fd.first⟩ hk
    hfit (fun hd => hstay ⟨hd.1, hd.2, hd.3, hd.4, hd.5, hd.6⟩) v
  refine ⟨t', by rw [setD, hm, heq], st.wf, st.findable, st.puts, st.asize, st.hmask, st.room, ?_⟩
  exact fun ch => st.chained (chained_nomm ch m)

theorem setD_rehash (d : ℕ) (w : t.Wf) (hfit : ¬ t.Fits h key) (v : LuaValue) :
    setD h (d+1) t key v = (do
      let t' ← (t.touch t.freetop).rehashWith (setD h d) key
      setD h d t' key v) := by
  obtain ⟨m, hm⟩ := clearNomm_eq t key
  rw [setD, hm]
  exact setTurn_rehash (t := { t with nomm := m }) (wf_nomm w m) hfit v

theorem fits_of_room (w : t.Wf) (hroom : hashBound t.asize key = true → 0 < t.freeSet.card) :
    t.Fits h key := by
  by_cases hidx : t.arrayIdx key = none
  · have hne := Finset.card_pos.mp (hroom (arrayIdx_eq_none.mp hidx))
    obtain ⟨i, hi⟩ := hne
    have hp := w.hasHpart_iff.mpr (by have := (mem_freeSet.mp hi).1; omega)
    exact .inr ⟨hp, .inr (.inr ⟨i, hi⟩)⟩
  · exact .inl hidx

/-- With a node for each entry that needs one, and `spare` more, the entries are set without a
rehash. -/
theorem setAll_fits (d : ℕ) {a spare : ℕ} (es : List (LuaValue × LuaValue)) (ch : t.Chained h)
    (hes : ∀ e ∈ es, e.1.ValidKey) (hnd : (es.map Prod.fst).Nodup) (ha : t.asize = a)
    (hroom : needed a es + spare ≤ t.freeSet.card) :
    ∃ t', setAll (setD h (d+1)) t es = .ok t' ∧ t'.Chained h ∧ t'.asize = a ∧
      spare ≤ t'.freeSet.card ∧ t.PutsAll t' es := by
  have hall : Outcome _ False (setAll (setD h (d+1)) t es) := setAll_outcome
    (Q := fun t es => t.Chained h ∧ (∀ e ∈ es, e.1.ValidKey) ∧ t.asize = a ∧
      needed a es + spare ≤ t.freeSet.card) ?_ es t ⟨ch, hes, ha, hroom⟩ hnd
  · cases hr : setAll (setD h (d+1)) t es with
    | error e => rw [hr] at hall; exact hall.2.elim
    | ok t' =>
      rw [hr] at hall
      obtain ⟨⟨hch, _, hasz, hcard⟩, hput⟩ := hall
      exact ⟨t', rfl, hch, hasz, by simpa [needed] using hcard, hput⟩
  · rintro t e es ⟨ch, hes, ha, hroom⟩
    have hneed : needed a (e :: es) = needed a es + if hashBound a e.1 then 1 else 0 := by
      simp [needed, List.countP_cons]
    have hfit : t.Fits h e.1 := by
      refine fits_of_room ch.toWf fun hb => ?_
      rw [ha] at hb
      rw [hneed, hb] at hroom
      simp only [if_true] at hroom
      omega
    obtain ⟨t', heq, st⟩ := setD_fits d ch.toWf ch.findable (hes e (by simp)) hfit (ch.noStrand _) e.2
    have hcard := st.room
    simp only [arrayIdx_eq_none, ha] at hcard
    rw [heq]
    exact ⟨⟨st.chained ch, fun e' he' => hes e' (by simp [he']), st.asize.trans ha, by omega⟩, st.puts⟩

/-- A resize whose new hash part has room for the entries that go there. -/
theorem resize_fits (d : ℕ) (w : t.Wf) (fd : t.Findable h) {asize hbits spare : ℕ}
    (ha : asize ≤ LJ_MAX_ASIZE) (hb : hbits ≤ LJ_MAX_HBITS)
    (hroom : needed asize (t.movedEntries asize) + spare ≤ if hbits = 0 then 0 else 2^hbits) :
    ∃ t', t.resizeWith (setD h (d+1)) asize hbits = .ok t' ∧ t'.Chained h ∧ t'.asize = asize ∧
      spare ≤ t'.freeSet.card ∧ ∀ k, k.Normal → t'.value k = t.value k := by
  obtain ⟨t', heq, hch, hasz, hcard, hput⟩ := setAll_fits (t := t.emptied asize hbits) (a := asize) d
    (t.movedEntries asize) (chained_emptied ha hb) (fun e he => (mem_movedEntries w fd he).1)
    (nodup_movedEntries w fd asize) rfl (by rw [card_freeSet_emptied]; exact hroom)
  exact ⟨t', by rw [resizeWith_eq w _ ha hb, heq], hch, hasz, hcard, fun k hk => value_of_putsAll w fd hput hk⟩

/-! ### The sizes of a rehash leave room -/

/-- The number of stored keys. -/
def liveCount (t : LuaTable) : ℕ := (t.movedEntries 0).length

theorem liveCount_eq (w : t.Wf) : t.liveCount = t.arrayKeys.length + (liveNodes t.node).length := by
  simp [liveCount, movedEntries, dropped_eq w, hashEntries_eq w]

theorem countP_hashBound (nodes : List Node) (a : ℕ) :
    (nodes.countP fun nd => hashBound a nd.key) +
      (nodes.flatMap fun nd => (arrayKey nd.key).toList).countP (· < a) = nodes.length := by
  induction nodes with
  | nil => rfl
  | cons nd nodes ih =>
    simp only [List.countP_cons, List.flatMap_cons, List.countP_append, List.length_cons]
    unfold hashBound at *
    cases hk : arrayKey nd.key with
    | none => simp; omega
    | some i =>
      by_cases hi : i < a
      · simp [hi, Nat.not_le.mpr hi]; omega
      · simp [hi, Nat.not_lt.mp hi]; omega

theorem needed_rehash (w : t.Wf) (ek : LuaValue) (a : ℕ) :
    needed a (t.movedEntries a) + (if hashBound a ek then 1 else 0) +
      (t.rehashKeys ek).countP (· < a) = 1 + t.arrayKeys.length + (liveNodes t.node).length := by
  have hdrop : needed a (t.dropped a) + t.arrayKeys.countP (· < a) = t.arrayKeys.length := by
    have hall : needed a (t.dropped a) = (t.arrayKeys.filter (a ≤ ·)).length := by
      rw [needed, dropped_eq w, List.countP_map, List.countP_eq_length]
      intro i hi
      simp only [arrayKeys, arrayKeysBelow, List.mem_filter, List.mem_range, decide_eq_true_eq] at hi
      have := w.asize_le
      simp [hashBound, arrayKey_ofInt (show i < LJ_MAX_ASIZE by omega), hi.2]
    rw [hall, ← List.countP_eq_length_filter, Nat.add_comm,
      List.length_eq_countP_add_countP (l := t.arrayKeys) (p := (· < a))]
    simp
  have hhash := countP_hashBound (liveNodes t.node) a
  have hek : (if hashBound a ek then 1 else 0) + (arrayKey ek).toList.countP (· < a) = 1 := by
    unfold hashBound
    cases arrayKey ek with
    | none => simp
    | some i =>
      by_cases hi : i < a
      · simp [hi, Nat.not_le.mpr hi]
      · simp [hi, Nat.not_lt.mp hi]
  have hent : needed a t.hashEntries = (liveNodes t.node).countP fun nd => hashBound a nd.key := by
    rw [needed, hashEntries_eq w, List.countP_map]
    rfl
  simp only [movedEntries, needed, rehashKeys, List.countP_append] at hdrop hent ⊢
  omega

/-- A resize to any array size, and to a hash part for the entries and the key that then go there, leaves room for
the key and restores all values. -/
theorem resize_rehash (d : ℕ) (w : t.Wf) (fd : t.Findable h) (ek : LuaValue) {a total : ℕ} (ha : a ≤ LJ_MAX_ASIZE)
    (htotal : total = 1 + t.arrayKeys.length + (liveNodes t.node).length - (t.rehashKeys ek).countP (· < a))
    (hb : hsize2hbits total ≤ LJ_MAX_HBITS) :
    ∃ t', t.resizeWith (setD h (d+1)) a (hsize2hbits total) = .ok t' ∧ t'.Chained h ∧ t'.asize = a ∧
      (∀ k, k.Normal → t'.value k = t.value k) ∧ (hashBound t'.asize ek = true → 0 < t'.freeSet.card) := by
  have hneed := needed_rehash w ek a
  have hroom : needed a (t.movedEntries a) + (if hashBound a ek then 1 else 0) ≤
      if hsize2hbits total = 0 then 0 else 2^hsize2hbits total := by
    have hexact : needed a (t.movedEntries a) + (if hashBound a ek then 1 else 0) = total := by omega
    rw [hexact]
    split_ifs with h0
    · exact (hsize2hbits_eq_zero.mp h0).le
    · exact le_two_pow_hsize2hbits total
  obtain ⟨t', hok, hch, hasz, hcard, hval⟩ := resize_fits d w fd ha hb hroom
  refine ⟨t', hok, hch, hasz, hval, fun hbound => ?_⟩
  rw [hasz] at hbound
  rw [hbound, if_pos rfl] at hcard
  omega

/-- A rehash for a key leaves room for it and restores all values, unless the hash part that it
needs is too large. The key 0 always goes to the array part. -/
theorem rehash_sized (d : ℕ) (w : t.Wf) (fd : t.Findable h) (ek : LuaValue) :
    Outcome (fun t' => t'.Chained h ∧ (∀ k, k.Normal → t'.value k = t.value k) ∧
      (hashBound t'.asize ek = true → 0 < t'.freeSet.card) ∧ (0 ∈ t.rehashKeys ek → 0 < t'.asize)) (2^LJ_MAX_HBITS ≤ t.liveCount)
      (t.rehashWith (setD h (d+1)) ek) := by
  obtain ⟨a, ha, hpos, heq⟩ := rehashWith_sized w (setD h (d+1)) ek
  rw [heq]
  obtain ⟨total, htotal⟩ : ∃ total, total = 1 + t.arrayKeys.length + (liveNodes t.node).length -
    (t.rehashKeys ek).countP (· < a) := ⟨_, rfl⟩
  rw [← htotal]
  by_cases hb : hsize2hbits total ≤ LJ_MAX_HBITS
  · obtain ⟨t', hok, hch, hasz, hval, hroom⟩ := resize_rehash d w fd ek ha htotal hb
    rw [hok]
    exact ⟨hch, hval, hroom, fun h0 => hasz ▸ hpos h0⟩
  · rw [resizeWith_overflow _ (.inr (by omega))]
    refine ⟨rfl, ?_⟩
    have := lt_of_hsize2hbits (s := total) (by omega)
    rw [liveCount_eq w]
    omega

theorem rehash_fits (d : ℕ) (w : t.Wf) (fd : t.Findable h) (ek : LuaValue) :
    Outcome (fun t' => t'.Chained h ∧ (∀ k, k.Normal → t'.value k = t.value k) ∧
      (hashBound t'.asize ek = true → 0 < t'.freeSet.card)) (2^LJ_MAX_HBITS ≤ t.liveCount)
      (t.rehashWith (setD h (d+1)) ek) :=
  (rehash_sized d w fd ek).imp (fun _ ht' => ⟨ht'.1, ht'.2.1, ht'.2.2.1⟩) id

/-! ### Any call -/

/-- What a call of a setter leads to, on a table that need not satisfy the chain invariant. -/
structure Stored (h : LuaValue → UInt32) (t t' : LuaTable) (key v : LuaValue) : Prop where
  wf : t'.Wf
  findable : t'.Findable h
  puts : t.Puts t' key v
  chained : t.Chained h → t'.Chained h

theorem setD_spec (d : ℕ) (w : t.Wf) (fd : t.Findable h) (hk : key.ValidKey) (hstay : t.NoStrand h key)
    (v : LuaValue) : Outcome (fun t' => t.Stored h t' key v) (2^LJ_MAX_HBITS ≤ t.liveCount)
      (setD h (d+2) t key v) := by
  by_cases hfit : t.Fits h key
  · obtain ⟨t', heq, st⟩ := setD_fits (d+1) w fd hk hfit hstay v
    rw [heq]
    exact ⟨st.wf, st.findable, st.puts, st.chained⟩
  · rw [setD_rehash (d+1) w hfit]
    have hre := rehash_fits (t := t.touch t.freetop) (h := h) d (wf_nomm w 0) ⟨fd.homed, fd.first⟩ key
    cases hr : (t.touch t.freetop).rehashWith (setD h (d+1)) key with
    | error e => rw [hr] at hre; exact hre
    | ok t₁ =>
      rw [hr] at hre
      obtain ⟨ch, hval, hroom⟩ := hre
      obtain ⟨t', heq, st⟩ := setD_fits d ch.toWf ch.findable hk (fits_of_room ch.toWf hroom)
        (ch.noStrand key) v
      refine (congrArg (Outcome _ _) heq).mpr ⟨st.wf, st.findable, fun k hkn => ?_, fun _ => st.chained ch⟩
      rw [st.puts k hkn, hval k hkn]
      rfl

theorem mem_keys (w : t.Wf) (fd : t.Findable h) :
    k ∈ (t.movedEntries 0).map Prod.fst ↔ k.Normal ∧ t.value k ≠ .nil := by
  constructor
  · intro hmem
    obtain ⟨⟨k, v⟩, hkv, rfl⟩ := List.mem_map.mp hmem
    obtain ⟨hval, hv, heq, _⟩ := mem_movedEntries w fd hkv
    exact ⟨hval.normal, heq ▸ hv⟩
  · rintro ⟨hk, hv⟩
    obtain hm | ⟨i, hi, _⟩ := moved_or_kept w fd 0 hk hv
    · exact List.mem_map_of_mem hm
    · omega

theorem liveCount_le {ks : List LuaValue} (w : t.Wf)
    (fd : t.Findable h) (hks : ∀ k, k.Normal → t.value k ≠ .nil → k ∈ ks) : t.liveCount ≤ ks.length := by
  have hsub : (t.movedEntries 0).map Prod.fst ⊆ ks := fun k hk =>
    hks k ((mem_keys w fd).mp hk).1 ((mem_keys w fd).mp hk).2
  have := (List.subperm_of_subset (nodup_movedEntries w fd 0) hsub).length_le
  simpa [liveCount] using this

theorem liveCount_puts (w : t.Wf) (fd : t.Findable h) (w' : t'.Wf) (fd' : t'.Findable h)
    (hput : t.Puts t' key v) : t'.liveCount ≤ t.liveCount + 1 := by
  have : t'.liveCount ≤ (key :: (t.movedEntries 0).map Prod.fst).length := liveCount_le w' fd' ?_
  · simpa [liveCount] using this
  · intro k hk hv
    rw [hput k hk] at hv
    by_cases he : k = key
    · simp [he]
    · rw [if_neg he] at hv
      exact List.mem_cons_of_mem _ ((mem_keys w fd).mpr ⟨hk, hv⟩)

theorem liveCount_emptied (w : t.Wf) (fd : t.Findable h) {asize hbits : ℕ} (ha : asize ≤ LJ_MAX_ASIZE)
    (hb : hbits ≤ LJ_MAX_HBITS) :
    (t.emptied asize hbits).liveCount + (t.movedEntries asize).length ≤ t.liveCount := by
  have ch : (t.emptied asize hbits).Chained h := chained_emptied ha hb
  have hnd : (((t.emptied asize hbits).movedEntries 0).map Prod.fst ++
      (t.movedEntries asize).map Prod.fst).Nodup := by
    refine List.nodup_append.mpr ⟨nodup_movedEntries ch.toWf ch.findable 0, nodup_movedEntries w fd asize, ?_⟩
    rintro k hk _ hm rfl
    obtain ⟨⟨k, v⟩, hkv, rfl⟩ := List.mem_map.mp hm
    exact ((mem_keys ch.toWf ch.findable).mp hk).2 (value_emptied_nil w (mem_movedEntries w fd hkv).2.2.2)
  have hsub : ((t.emptied asize hbits).movedEntries 0).map Prod.fst ++
      (t.movedEntries asize).map Prod.fst ⊆ (t.movedEntries 0).map Prod.fst := by
    intro k hk
    obtain hk | hk := List.mem_append.mp hk
    · obtain ⟨hkn, hv⟩ := (mem_keys ch.toWf ch.findable).mp hk
      refine (mem_keys w fd).mpr ⟨hkn, fun hnil => hv ?_⟩
      by_cases hidx : ∃ i, i < asize ∧ t.arrayIdx k = some i
      · obtain ⟨i, hi, hidx⟩ := hidx
        rw [value_emptied_kept hidx hi, hnil]
      · push Not at hidx
        exact value_emptied_nil w fun i hi => by by_contra hlt; exact hidx i (by omega) hi
    · obtain ⟨⟨k, v⟩, hkv, rfl⟩ := List.mem_map.mp hk
      obtain ⟨hval, hv, heq, _⟩ := mem_movedEntries w fd hkv
      exact (mem_keys w fd).mpr ⟨hval.normal, heq ▸ hv⟩
  have := (List.subperm_of_subset hnd hsub).length_le
  simpa [liveCount] using this

/-- A resize to any sizes keeps all values, unless a size limit is exceeded. -/
theorem resize_spec (w : t.Wf) (fd : t.Findable h) (asize hbits : ℕ) :
    Outcome (fun t' => t'.Chained h ∧ ∀ k, k.Normal → t'.value k = t.value k)
      (LJ_MAX_ASIZE < asize ∨ LJ_MAX_HBITS < hbits ∨ 2^LJ_MAX_HBITS ≤ t.liveCount)
      (t.resize h asize hbits) := by
  by_cases hover : LJ_MAX_ASIZE < asize ∨ LJ_MAX_HBITS < hbits
  · rw [resize, resizeWith_overflow _ hover]
    exact ⟨rfl, by tauto⟩
  push Not at hover
  obtain ⟨ha, hb⟩ := hover
  have hall : Outcome _ (2^LJ_MAX_HBITS ≤ t.liveCount)
      (setAll (setD h 2) (t.emptied asize hbits) (t.movedEntries asize)) := setAll_outcome
    (Q := fun s es => s.Chained h ∧ (∀ e ∈ es, e.1.ValidKey) ∧ s.liveCount + es.length ≤ t.liveCount) ?_
    _ _ ⟨chained_emptied ha hb, fun e he => (mem_movedEntries w fd he).1, liveCount_emptied w fd ha hb⟩
    (nodup_movedEntries w fd asize)
  · rw [resize, set, setDepth, resizeWith_eq w _ ha hb]
    exact hall.imp (fun t' ht' => ⟨ht'.1.1, fun k hk => value_of_putsAll w fd ht'.2 hk⟩) (by tauto)
  · rintro s e es ⟨ch, hes, hcount⟩
    simp only [List.length_cons] at hcount
    refine (setD_spec 0 ch.toWf ch.findable (hes e (by simp)) (ch.noStrand _) e.2).imp ?_ (by omega)
    intro s' st
    have := liveCount_puts ch.toWf ch.findable st.wf st.findable st.puts
    exact ⟨⟨st.chained ch, fun e' he' => hes e' (by simp [he']), by omega⟩, st.puts⟩

/-! ### The other setters -/

theorem set_spec (w : t.Wf) (fd : t.Findable h) (hk : key.ValidKey) (hstay : t.NoStrand h key) (v : LuaValue) :
    Outcome (fun t' => t.Stored h t' key v) (2^LJ_MAX_HBITS ≤ t.liveCount) (t.set h key v) :=
  setD_spec 0 w fd hk hstay v

theorem rehash_spec (w : t.Wf) (fd : t.Findable h) (ek : LuaValue) :
    Outcome (fun t' => t'.Chained h ∧ ∀ k, k.Normal → t'.value k = t.value k) (2^LJ_MAX_HBITS ≤ t.liveCount)
      (t.rehash h ek) :=
  (rehash_fits 1 w fd ek).imp (fun _ ht' => ⟨ht'.1, ht'.2.1⟩) id

theorem two_pow_hbits (w : t.Wf) (hp : t.hasHpart = true) : 2^t.hbits = t.node.length ∧ t.hbits ≠ 0 := by
  obtain ⟨b, hb0, hb, hlen, hm⟩ := w.length_of_hpart hp
  have h0 : t.hmask ≠ 0 := by simpa [hasHpart] using hp
  have hpos : 2^b = 2 * 2^(b-1) := by rw [← pow_succ']; congr 1; omega
  have hlog : t.hmask.log2 = b - 1 := by
    rw [Nat.log2_eq_iff h0, hm]
    have := Nat.two_pow_pos (b-1)
    have : b - 1 + 1 = b := by omega
    rw [this]
    omega
  have : t.hbits = b := by rw [hbits, if_neg h0, fls, hlog]; omega
  rw [this]
  exact ⟨hlen.symm, by omega⟩

theorem lt_nextPowerOfTwo {n : ℕ} (hn : n < LJ_MAX_ASIZE) : n < nextPowerOfTwo ((n + 1) % 2^32) := by
  have hmax : LJ_MAX_ASIZE = 134217729 := rfl
  rw [Nat.mod_eq_of_lt (by omega), nextPowerOfTwo, Nat.add_sub_cancel]
  split_ifs with h1
  · omega
  · have hlo := Nat.lt_log2_self (n := n)
    have hlog : n.log2 < 28 := (Nat.log2_lt (by omega)).mpr (by omega)
    have hpow : 2^(n.log2 + 1) ≤ 2^28 := Nat.pow_le_pow_right (by norm_num) (by omega)
    rw [Nat.mod_eq_of_lt (by omega)]
    exact hlo

/-- The growing resize of `set_int` keeps the size of the hash part, which holds all its entries. -/
theorem reasize_spec (w : t.Wf) (fd : t.Findable h) {n : ℕ} (hn : n < LJ_MAX_ASIZE) (htop : n = t.asize) :
    ∃ t', t.reasize h n = .ok t' ∧ t'.Chained h ∧ n < t'.asize ∧ ∀ k, k.Normal → t'.value k = t.value k := by
  obtain ⟨a, ha⟩ : ∃ a, a = min (nextPowerOfTwo ((n + 1) % 2^32)) LJ_MAX_ASIZE := ⟨_, rfl⟩
  have hlt := lt_nextPowerOfTwo hn
  have hna : n < a := by omega
  have hb : t.hbits ≤ LJ_MAX_HBITS ∧ (t.movedEntries a).length ≤ if t.hbits = 0 then 0 else 2^t.hbits := by
    have hlen := w.asize_eq
    have hdrop : t.dropped a = [] := by
      rw [dropped, List.drop_eq_nil_of_le (by omega)]
      rfl
    rw [movedEntries, hdrop, List.nil_append, hashEntries_eq w, List.length_map]
    have hle : (liveNodes t.node).length ≤ t.node.length := List.length_filter_le _ _
    by_cases hp : t.hasHpart = true
    · obtain ⟨hpow, h0⟩ := two_pow_hbits w hp
      obtain ⟨b, _, hb, hlen, _⟩ := w.length_of_hpart hp
      rw [if_neg h0, hpow]
      exact ⟨(Nat.pow_le_pow_iff_right (by norm_num)).mp (hpow.trans hlen ▸ Nat.pow_le_pow_right (by norm_num) hb), hle⟩
    · have hm : t.hmask = 0 := by simpa [hasHpart] using hp
      have hnode : t.node.length = 0 := by
        rw [w.hasHpart_iff] at hp
        omega
      simp only [hbits, hm, if_true]
      exact ⟨Nat.zero_le _, by omega⟩
  have hneed : needed a (t.movedEntries a) + 0 ≤ if t.hbits = 0 then 0 else 2^t.hbits :=
    List.countP_le_length.trans hb.2
  obtain ⟨t', hok, hch, hasz, _, hval⟩ := resize_fits 1 w fd (by omega) hb.1 hneed
  refine ⟨t', ?_, hch, by omega, hval⟩
  rw [reasize, ← ha]
  exact hok

/-- The store of `set_int` that grows the array part. -/
def Tops (t : LuaTable) (n : ℤ) (v : LuaValue) : Prop :=
  0 < n ∧ n.toNat < LJ_MAX_ASIZE ∧ v ≠ .nil ∧ n.toNat = t.asize

theorem setInt_spec (w : t.Wf) (fd : t.Findable h) {n : ℤ} (hlo : -2^31 ≤ n) (hhi : n < 2^31)
    {v : LuaValue} (hstay : ¬ t.Tops n v → t.NoStrand h (.ofInt n)) :
    Outcome (fun t' => t.Stored h t' (.ofInt n) v) (2^LJ_MAX_HBITS ≤ t.liveCount) (t.setInt h n v) := by
  have hk : (LuaValue.ofInt n).ValidKey := LuaValue.validKey_ofInt (by omega)
  unfold setInt
  split_ifs with hin htop
  · have hn : ((n.toNat : ℕ) : ℤ) = n := by omega
    have hidx := arrayIdx_ofInt w hin.2
    rw [hn] at hidx
    have st := setTo_storeArray (v := v) w fd hk hidx
    have hset : t.setArray n.toNat v = .ok (t.storeArray n.toNat v) := by
      simp [setArray, ← w.asize_eq, hin.2, storeArray]
    rw [hset]
    exact ⟨st.wf, st.findable, st.puts, st.chained⟩
  · have hn : ((n.toNat : ℕ) : ℤ) = n := by omega
    obtain ⟨t₁, hok, ch, hlt, hval⟩ := reasize_spec w fd htop.2.1 htop.2.2.2
    have hidx := arrayIdx_ofInt ch.toWf hlt
    rw [hn] at hidx
    have st := setTo_storeArray (v := v) ch.toWf ch.findable hk hidx
    have hset : t₁.setArray n.toNat v = .ok (t₁.storeArray n.toNat v) := by
      simp [setArray, ← ch.asize_eq, hlt, storeArray]
    simp only [hok, bind, Except.bind, hset]
    refine ⟨st.wf, st.findable, fun k hkn => ?_, fun _ => st.chained ch⟩
    rw [st.puts k hkn, hval k hkn]
  · refine set_spec w fd hk (hstay fun htops => htop ?_) v
    exact ⟨htops.1, htops.2.1, by simp [LuaValue.isNil, htops.2.2.1], htops.2.2.2⟩

/-- On a string key `set_str` does what `set` does. -/
theorem setStr_eq (hs : key.isString = true) : t.setStr h key v = t.set h key v := by
  have hidx : ∀ u : LuaTable, u.arrayIdx key = none := by
    intro u
    cases key <;> simp [LuaValue.isString] at hs
    rfl
  have hclear : ∀ u : LuaTable, u.clearNomm key = { u with nomm := 0 } := fun u => by rw [clearNomm, if_pos hs]
  have hset : ∀ u : LuaTable, u.set h key v = setTurn h (setD h 1) { u with nomm := 0 } key v := fun u => by
    rw [set, setDepth, setD, hclear]
  rw [hset, setStr, hset]
  split_ifs with hp
  · rfl
  · rw [setTurn, hidx]
    have hp : hasHpart { t with nomm := 0 } = true := by simpa using hp
    simp only [hp, if_true]
    cases hf : findKey h { t with nomm := 0 } key with
    | error e => rfl
    | ok r =>
      cases r with
      | some n => rfl
      | none =>
        simp only [bind, Except.bind]

end LuaTable
end LuajitRs
