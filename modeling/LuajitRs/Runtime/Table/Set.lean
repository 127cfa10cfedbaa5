import LuajitRs.Runtime.Table.Store
import LuajitRs.Runtime.Table.Count

/-! What a table stores, as a function from keys to values that does not mention the hash, and the
getters as readers of that function. -/
namespace LuajitRs
open Lib.Chain

namespace LuaValue

/-- A key in the form that a table stores. -/
def Normal (k : LuaValue) : Prop := k.normalizeKey = k

theorem ValidKey.normal {k : LuaValue} (hk : k.ValidKey) : k.Normal := hk.2.1

end LuaValue

namespace LuaTable
variable {h : LuaValue → UInt32} {t t' : LuaTable} {k v : LuaValue} {i : ℕ}

/-- The value in the hash part. -/
def hashVal (t : LuaTable) (k : LuaValue) : LuaValue :=
  match t.node.find? fun nd => nd.key = k && !nd.val.isNil with
  | some nd => nd.val
  | none => .nil

/-- The value that the table stores under a key, nil for none. -/
def value (t : LuaTable) (k : LuaValue) : LuaValue :=
  match t.arrayIdx k with
  | some i => t.array.getD i .nil
  | none => t.hashVal k

/-! ### Array keys -/

theorem arrayKey_ofInt (hi : i < LJ_MAX_ASIZE) : arrayKey (.ofInt i) = some i := by
  have hmax : LJ_MAX_ASIZE = 134217729 := rfl
  unfold arrayKey
  rw [LuaValue.asInt32Exact_ofInt (by omega) (by omega)]
  simp [hi]

theorem eq_ofInt_of_arrayKey (hk : k.Normal) (h : arrayKey k = some i) : k = .ofInt i := by
  unfold arrayKey at h
  split at h
  · rename_i j hj
    split_ifs at h with hb
    rw [Option.some.injEq] at h
    rw [LuaValue.eq_ofInt_of_asInt32Exact hk hj]
    congr 1
    omega
  · simp at h

theorem arrayIdx_eq_some : t.arrayIdx k = some i ↔ arrayKey k = some i ∧ i < t.asize := by
  unfold arrayIdx
  cases arrayKey k with
  | none => simp
  | some j =>
    simp only [Option.some.injEq]
    split_ifs with hj
    · simp only [Option.some.injEq]
      exact ⟨fun e => ⟨e, e ▸ hj⟩, fun e => e.1⟩
    · simp only [false_iff, not_and]
      rintro rfl
      exact hj

theorem arrayIdx_ofInt (w : t.Wf) (hi : i < t.asize) : t.arrayIdx (.ofInt i) = some i :=
  arrayIdx_eq_some.mpr ⟨arrayKey_ofInt (by have := w.asize_le; omega), hi⟩

theorem eq_ofInt_of_arrayIdx (hk : k.Normal) (h : t.arrayIdx k = some i) : k = .ofInt i :=
  eq_ofInt_of_arrayKey hk (arrayIdx_eq_some.mp h).1

theorem arrayIdx_inj {l : LuaValue} (hk : k.Normal) (hl : l.Normal) (h₁ : t.arrayIdx k = some i)
    (h₂ : t.arrayIdx l = some i) : k = l :=
  (eq_ofInt_of_arrayIdx hk h₁).trans (eq_ofInt_of_arrayIdx hl h₂).symm

theorem value_of_arrayIdx (h : t.arrayIdx k = some i) : t.value k = t.array.getD i .nil := by
  rw [value, h]

theorem value_of_hash (h : t.arrayIdx k = none) : t.value k = t.hashVal k := by rw [value, h]

theorem arrayAt_eq (hi : i < t.array.length) : t.arrayAt i = .ok (t.array.getD i .nil) := by
  simp [arrayAt, hi]

/-! ### Hash entries -/

theorem Findable.functional (w : t.Wf) (fd : t.Findable h) {u : LuaValue} (h₁ : t.Entry k u)
    (h₂ : t.Entry k v) : u = v := by
  obtain ⟨hu, i, hik, hiu⟩ := h₁
  obtain ⟨hv, j, hjk, hjv⟩ := h₂
  have hi : t.Live i := by rw [Live, hiu]; exact hu
  have hj : t.Live j := by rw [Live, hjv]; exact hv
  have hij := fd.first i hi j (by rw [hik, ← hjk]; exact fd.homed j hj) (hjk.trans hik.symm)
  have hji := fd.first j hj i (by rw [hjk, ← hik]; exact fd.homed i hi) (hik.trans hjk.symm)
  rw [← hiu, ← hjv, w.forest.antisymm hij hji]

theorem entry_of_find {nd : Node} (hf : t.node.find? (fun nd => nd.key = k && !nd.val.isNil) = some nd) :
    t.Entry k nd.val := by
  have hp := List.find?_some hf
  obtain ⟨i, hi, he⟩ := List.mem_iff_getElem.mp (List.mem_of_find?_eq_some hf)
  simp only [Bool.and_eq_true, decide_eq_true_eq, Bool.not_eq_true', LuaValue.isNil,
    decide_eq_false_iff_not] at hp
  have hat : t.nodeAt i = nd := by simp [nodeAt, hi, he]
  exact ⟨hp.2, i, hat ▸ hp.1, by rw [hat]⟩

theorem find_none_of_entry {u : LuaValue} (he : t.Entry k u) :
    t.node.find? (fun nd => nd.key = k && !nd.val.isNil) ≠ none := by
  obtain ⟨hu, i, hik, hiu⟩ := he
  intro hnone
  have hlt : i < t.node.length := by
    by_contra hge
    rw [nodeAt_of_ge (by omega)] at hiu
    exact hu hiu.symm
  have hat : t.nodeAt i = t.node[i] := by simp [nodeAt, hlt]
  have := List.find?_eq_none.mp hnone _ (List.getElem_mem hlt)
  rw [hat] at hik hiu
  simp [hik, hiu, LuaValue.isNil, hu] at this

theorem hashVal_eq_nil (hn : ∀ u, ¬ t.Entry k u) : t.hashVal k = .nil := by
  unfold hashVal
  split
  · rename_i nd hnd
    exact absurd (entry_of_find hnd) (hn _)
  · rfl

theorem entry_iff (w : t.Wf) (fd : t.Findable h) : t.Entry k v ↔ v ≠ .nil ∧ t.hashVal k = v := by
  unfold hashVal
  split
  · rename_i nd hnd
    have he := entry_of_find hnd
    exact ⟨fun hv => ⟨hv.1, fd.functional w he hv⟩, fun hv => hv.2 ▸ he⟩
  · rename_i hnone
    exact ⟨fun hv => absurd hnone (find_none_of_entry hv), fun hv => absurd hv.2.symm hv.1⟩

/-- The stored value is determined by the entries. -/
theorem hashVal_eq_of_entry (w : t.Wf) (fd : t.Findable h) (he : ∀ u, t.Entry k u ↔ u ≠ .nil ∧ u = v) :
    t.hashVal k = v := by
  by_cases hv : v = .nil
  · subst hv
    exact hashVal_eq_nil fun u hu => ((he u).mp hu).1 ((he u).mp hu).2
  · exact ((entry_iff w fd).mp ((he v).mpr ⟨hv, rfl⟩)).2

theorem value_of_live (w : t.Wf) (fd : t.Findable h) (hi : t.Live i) :
    t.value (t.nodeAt i).key = (t.nodeAt i).val := by
  rw [value_of_hash (w.split i hi)]
  exact ((entry_iff w fd).mp ⟨hi, i, rfl, rfl⟩).2

/-- A key is stored in one node only. -/
theorem Findable.once (w : t.Wf) (fd : t.Findable h) {j : ℕ} (hi : t.Live i) (hj : t.Live j)
    (hkey : (t.nodeAt i).key = (t.nodeAt j).key) : i = j := by
  have hij := fd.first i hi j (hkey ▸ fd.homed j hj) hkey.symm
  have hji := fd.first j hj i (hkey ▸ fd.homed i hi) hkey
  exact w.forest.antisymm hij hji

theorem entry_congr_hashVal (w : t.Wf) (fd : t.Findable h) (w' : t'.Wf) (fd' : t'.Findable h)
    (he : ∀ u, t'.Entry k u ↔ t.Entry k u) : t'.hashVal k = t.hashVal k := by
  refine hashVal_eq_of_entry w' fd' fun u => ?_
  rw [he, entry_iff w fd, eq_comm (a := u)]

theorem hashVal_nil (w : t.Wf) : t.hashVal .nil = .nil := by
  refine hashVal_eq_nil ?_
  rintro u ⟨hu, i, hik, hiu⟩
  exact w.keyed_of_live (i := i) (by rw [Live, hiu]; exact hu) hik

/-! ### Getters -/

theorem hashVal_of_no_hpart (w : t.Wf) (hp : t.hasHpart = false) : t.hashVal k = .nil := by
  have hnil : t.node = [] := by
    have := w.hasHpart_iff
    rw [hp] at this
    exact List.length_eq_zero_iff.mp (by simpa using this)
  simp [hashVal, hnil]

/-- The chain walk of a getter reads the stored value. -/
theorem getChain_spec (w : t.Wf) (fd : t.Findable h) (hp : t.hasHpart = true) (k : LuaValue) :
    t.getChain h k = .ok (t.hashVal k) := by
  obtain ⟨r, hr, hm⟩ := findKey_spec w h hp k
  simp only [getChain, hr, bind, Except.bind]
  cases r with
  | none =>
    refine congrArg _ (hashVal_eq_nil ?_).symm
    rintro u ⟨hu, i, rfl, hiu⟩
    exact hm i (fd.homed i (by rw [Live, hiu]; exact hu)) (decide_eq_true rfl)
  | some n =>
    obtain ⟨hreach, hkey, hfirst⟩ := hm
    have hkey : (t.nodeAt n).key = k := of_decide_eq_true hkey
    have hn := w.reach_lt (w.hashSlot_lt h hp k) hreach
    simp only [w.nodeSlot_eq hn]
    refine congrArg Except.ok (hashVal_eq_of_entry w fd fun u => ⟨?_, ?_⟩).symm
    · rintro ⟨hu, i, hik, hiu⟩
      have hi : t.Live i := by rw [Live, hiu]; exact hu
      have hni := hfirst i (hik ▸ fd.homed i hi) (decide_eq_true hik)
      have hin := fd.first i hi n (hik ▸ hreach) (hkey.trans hik.symm)
      rw [w.forest.antisymm hni hin]
      exact ⟨hu, hiu.symm⟩
    · rintro ⟨hu, rfl⟩
      exact ⟨hu, n, hkey, rfl⟩

theorem get_spec (w : t.Wf) (fd : t.Findable h) (k : LuaValue) : t.get h k = .ok (t.value k) := by
  unfold get value
  cases hidx : t.arrayIdx k with
  | some i => exact arrayAt_eq (by rw [← w.asize_eq]; exact (arrayIdx_eq_some.mp hidx).2)
  | none =>
    simp only [Bool.or_eq_true, Bool.not_eq_true']
    split_ifs with hc
    · obtain hnil | hp := hc
      · rw [of_decide_eq_true hnil, hashVal_nil w]
      · rw [hashVal_of_no_hpart w hp]
    · exact getChain_spec w fd (by simpa using (not_or.mp hc).2) k

theorem getInt_spec (w : t.Wf) (fd : t.Findable h) {n : ℤ} (hlo : -2^31 ≤ n) (hhi : n < 2^31) :
    t.getInt h n = .ok (t.value (.ofInt n)) := by
  unfold getInt
  split_ifs with hb
  · have hn : ((n.toNat : ℕ) : ℤ) = n := by omega
    have hidx := arrayIdx_ofInt w hb.2
    rw [hn] at hidx
    rw [value_of_arrayIdx hidx]
    exact arrayAt_eq (by rw [← w.asize_eq]; exact hb.2)
  · exact get_spec w fd _

theorem getStr_spec (w : t.Wf) (fd : t.Findable h) (hs : k.isString = true) :
    t.getStr h k = .ok (t.value k) := by
  have hidx : t.arrayIdx k = none := by
    cases k <;> simp [LuaValue.isString] at hs
    rfl
  rw [value_of_hash hidx]
  by_cases hp : t.hasHpart = true
  · exact getChain_spec w fd hp k
  · have hp : t.hasHpart = false := by simpa using hp
    have hm : t.hmask = 0 := by simpa [hasHpart] using hp
    have hne : ¬ LuaValue.nil = k := by rintro rfl; simp [LuaValue.isString] at hs
    rw [hashVal_of_no_hpart w hp]
    simp [getStr, getChain, findKey, walk, nodeSlot, hm, Node.EMPTY, hne, bind, Except.bind, pure,
      Except.pure]

end LuaTable
end LuajitRs

/-! `set` while the table has room for the key: one turn of its loop stores the value, in the array
part, in the node that holds the key, or in a node where the key is inserted. -/
namespace LuajitRs
open Lib.Chain

namespace LuaTable
variable {h : LuaValue → UInt32} {t t' : LuaTable} {key v : LuaValue} {s : ℕ}

/-- The table `t'` stores `v` under `key` and is otherwise like `t`. -/
def Puts (t t' : LuaTable) (key v : LuaValue) : Prop :=
  ∀ k, k.Normal → t'.value k = if k = key then v else t.value k

/-- The table `t'` results from storing `v` under `key` without a rehash. The invariant for a fixed
hash is kept where it held before. -/
structure SetTo (h : LuaValue → UInt32) (t t' : LuaTable) (key v : LuaValue) : Prop where
  wf : t'.Wf
  findable : t'.Findable h
  puts : t.Puts t' key v
  asize : t'.asize = t.asize
  hmask : t'.hmask = t.hmask
  room : t.freeSet.card ≤ t'.freeSet.card + if t.arrayIdx key = none then 1 else 0
  chained : t.Chained h → t'.Chained h

/-! ### The array part -/

def storeArray (t : LuaTable) (i : ℕ) (v : LuaValue) : LuaTable := { t with array := t.array.set i v }

theorem wf_storeArray (w : t.Wf) (i : ℕ) : (t.storeArray i v).Wf :=
  ⟨by simpa [storeArray] using w.asize_eq, w.asize_le, w.size, w.freetop_le, w.next_lt, w.forest, w.fresh,
    w.top_keyed, w.valid, w.split⟩

theorem puts_storeArray (w : t.Wf) (hk : key.ValidKey) {i : ℕ} (hidx : t.arrayIdx key = some i) :
    t.Puts (t.storeArray i v) key v := by
  intro k hkn
  have hi : i < t.array.length := w.asize_eq ▸ (arrayIdx_eq_some.mp hidx).2
  split_ifs with he
  · subst he
    rw [value_of_arrayIdx (t := t.storeArray i v) hidx]
    simp [storeArray, hi]
  · cases hkidx : t.arrayIdx k with
    | none =>
      rw [value_of_hash hkidx, value_of_hash (t := t.storeArray i v) hkidx]
      rfl
    | some j =>
      have hij : i ≠ j := by
        rintro rfl
        exact he (arrayIdx_inj hkn hk.normal hkidx hidx)
      rw [value_of_arrayIdx hkidx, value_of_arrayIdx (t := t.storeArray i v) hkidx]
      simp [storeArray, List.getD_eq_getElem?_getD, hij]

theorem setTo_storeArray (w : t.Wf) (fd : t.Findable h) (hk : key.ValidKey) {i : ℕ}
    (hidx : t.arrayIdx key = some i) : SetTo h t (t.storeArray i v) key v where
  wf := wf_storeArray w i
  findable := ⟨fd.homed, fd.first⟩
  puts := puts_storeArray w hk hidx
  asize := rfl
  hmask := rfl
  room := Nat.le_add_right _ _
  chained ch := ⟨wf_storeArray w i, ch.homed, ch.unique, ch.foreign⟩

/-! ### The hash part -/

/-- Giving a value to a node that is vacant for the key. -/
theorem puts_storeVal (w : t.Wf) (fd : t.Findable h) (hs : t.Keyed s) (vc : Vacant h t key s)
    (hidx : t.arrayIdx key = none) : t.Puts (t.storeVal s v) key v := by
  have hlt := lt_of_keyed hs
  have w' := wf_storeVal (v := v) w hs (vc.key_eq ▸ hidx)
  have fd' := findable_storeVal (v := v) hlt fd vc
  have idx : ∀ k, (t.storeVal s v).arrayIdx k = t.arrayIdx k := fun _ => rfl
  have hent := entry_storeVal (v := v) hlt vc.key_eq fun j hj he => vc.eq_of_live w fd hj he
  intro k _
  split_ifs with he
  · subst he
    rw [value_of_hash ((idx k).trans hidx)]
    exact hashVal_eq_of_entry w' fd' fun u => by rw [hent, if_pos rfl]
  · cases hkidx : t.arrayIdx k with
    | some i =>
      rw [value_of_arrayIdx hkidx, value_of_arrayIdx ((idx k).trans hkidx)]
      rfl
    | none =>
      rw [value_of_hash hkidx, value_of_hash ((idx k).trans hkidx)]
      exact entry_congr_hashVal w fd w' fd' fun u => by rw [hent, if_neg he]

theorem setTo_storeVal (w : t.Wf) (fd : t.Findable h) (hs : t.Keyed s) (vc : Vacant h t key s)
    (hidx : t.arrayIdx key = none) : SetTo h t (t.storeVal s v) key v where
  wf := wf_storeVal w hs (vc.key_eq ▸ hidx)
  findable := findable_storeVal (lt_of_keyed hs) fd vc
  puts := puts_storeVal w fd hs vc hidx
  asize := rfl
  hmask := rfl
  room := by rw [freeSet_storeVal (lt_of_keyed hs)]; exact Nat.le_add_right _ _
  chained ch := chained_storeVal ch hs (vc.key_eq ▸ hidx)

theorem Grown.value_eq (gr : Grown t t' s) (w : t.Wf) (fd : t.Findable h) (w' : t'.Wf)
    (fd' : t'.Findable h) (k : LuaValue) : t'.value k = t.value k := by
  unfold value
  rw [gr.toFrame.arrayIdx, gr.array]
  cases t.arrayIdx k with
  | some i => rfl
  | none => exact entry_congr_hashVal w fd w' fd' fun u => gr.entry k u

/-- Inserting the key and then giving it a value. -/
theorem setTo_insertion (ins : Insertion h t key (t.hashSlot h key) t' s) (w : t.Wf) (fd : t.Findable h)
    (hk : key.ValidKey) (hp : t.hasHpart = true) (hidx : t.arrayIdx key = none)
    (hmiss : ∀ j, Reach t.nextOf (t.hashSlot h key) j → (t.nodeAt j).key ≠ key)
    (hroom : ¬ t.Live (t.hashSlot h key) ∨ t.freeSet.Nonempty) (hstay : t.NoStrand h key) :
    SetTo h t (t'.storeVal s v) key v := by
  have hn := w.hashSlot_lt h hp key
  have hnew : ∀ i, t.Live i → (t.nodeAt i).key ≠ key := fun i hi he =>
    hmiss i (he ▸ fd.homed i hi) he
  have w' := ins.wf w hn hk
  have gr := ins.grown w hn
  have fd' := ins.findable w hn fd hnew fun hlive hout =>
    hstay ⟨hidx, hp, hmiss, hlive, hout, hroom.resolve_left (not_not.mpr hlive)⟩
  have vc := ins.vacant w hn rfl hmiss
  have hs : t'.Keyed s := by rw [Keyed, vc.key_eq]; exact hk.1
  have st := setTo_storeVal (v := v) w' fd' hs vc (gr.toFrame.arrayIdx key ▸ hidx)
  refine ⟨st.wf, st.findable, fun k hkn => ?_, st.asize.trans gr.asize, st.hmask.trans gr.hmask, ?_,
    fun ch => ?_⟩
  · rw [st.puts k hkn, gr.value_eq w fd w' fd']
  · obtain ⟨x, hx⟩ := gr.free
    have := Finset.card_le_card hx
    have := Finset.pred_card_le_card_erase (s := t.freeSet) (a := x)
    rw [if_pos hidx, freeSet_storeVal (lt_of_keyed hs)]
    omega
  · have hnewK : ∀ i, t.Keyed i → (t.nodeAt i).key ≠ key := fun i hi he =>
      hmiss i (he ▸ ch.homed i hi) he
    exact st.chained (ins.chained w hn ch hk rfl hnewK)

/-- The table can store the key without a rehash. -/
def Fits (h : LuaValue → UInt32) (t : LuaTable) (key : LuaValue) : Prop :=
  t.arrayIdx key ≠ none ∨ t.hasHpart = true ∧
    ((∃ j, Reach t.nextOf (t.hashSlot h key) j ∧ (t.nodeAt j).key = key) ∨
      ¬ t.Live (t.hashSlot h key) ∨ t.freeSet.Nonempty)

theorem setTurn_fits {setf : Setter} (w : t.Wf) (fd : t.Findable h) (hk : key.ValidKey)
    (hfit : t.Fits h key) (hstay : t.NoStrand h key) (v : LuaValue) :
    ∃ t', t.setTurn h setf key v = .ok t' ∧ SetTo h t t' key v := by
  unfold setTurn
  cases hidx : t.arrayIdx key with
  | some i =>
    have hi : i < t.array.length := w.asize_eq ▸ (arrayIdx_eq_some.mp hidx).2
    exact ⟨t.storeArray i v, by simp [setArray, hi, storeArray], setTo_storeArray w fd hk hidx⟩
  | none =>
    obtain ⟨hp, hroom⟩ := hfit.resolve_left (not_not.mpr hidx)
    obtain ⟨r, hr, hm⟩ := findKey_spec w h hp key
    simp only [hp, if_true, hr, bind, Except.bind]
    cases r with
    | some n =>
      obtain ⟨hreach, hkey, hfirst⟩ := hm
      have hkey : (t.nodeAt n).key = key := of_decide_eq_true hkey
      have hn : t.Keyed n := by rw [Keyed, hkey]; exact hk.1
      have vc : Vacant h t key n := ⟨hkey, hreach, fun j hj he => hfirst j hj (decide_eq_true he)⟩
      exact ⟨_, setVal_eq (lt_of_keyed hn), setTo_storeVal w fd hn vc hidx⟩
    | none =>
      have hmiss : ∀ j, Reach t.nextOf (t.hashSlot h key) j → (t.nodeAt j).key ≠ key := fun j hj he =>
        hm j hj (decide_eq_true he)
      have hroom : ¬ t.Live (t.hashSlot h key) ∨ t.freeSet.Nonempty := by
        obtain ⟨j, hj, he⟩ | hroom := hroom
        · exact absurd he (hmiss j hj)
        · exact hroom
      obtain ⟨t', s, ins, (hins : t.tryNewKey h setf key = _)⟩ := tryNewKey_insertion w hp hk fd.homed hroom
      have vc := ins.vacant w (w.hashSlot_lt h hp key) rfl hmiss
      have hs : t'.Keyed s := by rw [Keyed, vc.key_eq]; exact hk.1
      simp only [hins]
      exact ⟨_, setVal_eq (lt_of_keyed hs), setTo_insertion ins w fd hk hp hidx hmiss hroom hstay⟩

/-- A key that does not fit is set again after a rehash. -/
theorem setTurn_rehash {setf : Setter} (w : t.Wf) (hfit : ¬ t.Fits h key) (v : LuaValue) :
    t.setTurn h setf key v = (do
      let t' ← (t.touch t.freetop).rehashWith setf key
      setf t' key v) := by
  have hidx : t.arrayIdx key = none := by
    by_contra hne
    exact hfit (.inl hne)
  unfold setTurn
  rw [hidx]
  by_cases hp : t.hasHpart = true
  · obtain ⟨r, hr, hm⟩ := findKey_spec w h hp key
    cases r with
    | some n => exact absurd (.inr ⟨hp, .inl ⟨n, hm.1, of_decide_eq_true hm.2.1⟩⟩) hfit
    | none =>
      have hlive : t.Live (t.hashSlot h key) := by
        by_contra hdead
        exact hfit (.inr ⟨hp, .inr (.inl hdead)⟩)
      have hfull : ¬ t.freeSet.Nonempty := fun hne => hfit (.inr ⟨hp, .inr (.inr hne)⟩)
      simp only [hp, if_true, hr]
      change (t.tryNewKey h setf key >>= _) = _
      rw [tryNewKey_full w hp hlive hfull]
      cases (t.touch t.freetop).rehashWith setf key <;> rfl
  · have hp : t.hasHpart = false := by simpa using hp
    simp only [hp, Bool.false_eq_true, if_false]
    change (t.tryNewKey h setf key >>= _) = _
    rw [tryNewKey_no_hpart hp]
    cases (t.touch t.freetop).rehashWith setf key <;> rfl

end LuaTable
end LuajitRs
