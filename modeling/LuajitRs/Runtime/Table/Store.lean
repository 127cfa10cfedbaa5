import LuajitRs.Runtime.Table.Insert

/-! Storing a value in a hash node, and the insertion of a key while unused nodes are left. -/
namespace LuajitRs
open Lib.Chain

namespace LuaTable
variable {h : LuaValue → UInt32} {t : LuaTable} {key v : LuaValue} {s : ℕ}

/-! ### Storing a value -/

/-- The node `s` gets the value `v`. -/
def storeVal (t : LuaTable) (s : ℕ) (v : LuaValue) : LuaTable :=
  { t with node := t.node.modify s fun nd => { nd with val := v } }

theorem setVal_eq (hs : s < t.node.length) : t.setVal s v = .ok (t.storeVal s v) := modifyNode_eq _ hs

theorem frame_storeVal : Frame t (t.storeVal s v) := ⟨rfl, rfl, rfl, by simp [storeVal], rfl⟩

section StoreVal
variable (hs : s < t.node.length)
include hs

theorem nodeAt_storeVal (i : ℕ) :
    (t.storeVal s v).nodeAt i = if i = s then { t.nodeAt s with val := v } else t.nodeAt i :=
  getD_modify t.node _ hs i

theorem key_storeVal (i : ℕ) : ((t.storeVal s v).nodeAt i).key = (t.nodeAt i).key := by
  rw [nodeAt_storeVal hs]
  split_ifs with hi <;> simp [hi]

theorem nextOf_storeVal : (t.storeVal s v).nextOf = t.nextOf := by
  funext i
  simp only [nextOf, nodeAt_storeVal hs]
  by_cases hi : i = s
  · subst hi; simp
  · simp [hi]

theorem keyed_storeVal {i : ℕ} : (t.storeVal s v).Keyed i ↔ t.Keyed i := by
  rw [Keyed, Keyed, key_storeVal hs]

theorem live_storeVal {i : ℕ} : (t.storeVal s v).Live i ↔ (i = s ∧ v ≠ .nil) ∨ (i ≠ s ∧ t.Live i) := by
  unfold Live
  rw [nodeAt_storeVal hs]
  by_cases hi : i = s <;> simp [hi]

theorem freeSet_storeVal : (t.storeVal s v).freeSet = t.freeSet := by
  ext i
  rw [mem_freeSet, mem_freeSet, frame_storeVal.length, keyed_storeVal hs]

end StoreVal

theorem wf_storeVal (w : t.Wf) (hs : t.Keyed s) (hidx : t.arrayIdx (t.nodeAt s).key = none) :
    (t.storeVal s v).Wf where
  asize_eq := w.asize_eq
  asize_le := w.asize_le
  size := by simpa [storeVal, ← List.length_eq_zero_iff] using w.size
  freetop_le := by simpa [storeVal] using w.freetop_le
  next_lt := by rw [nextOf_storeVal (lt_of_keyed hs), frame_storeVal.length]; exact w.next_lt
  forest := by rw [nextOf_storeVal (lt_of_keyed hs)]; exact w.forest
  fresh i hi := by
    rw [keyed_storeVal (lt_of_keyed hs)] at hi
    have his : i ≠ s := by rintro rfl; exact hi hs
    rw [nextOf_storeVal (lt_of_keyed hs), live_storeVal (lt_of_keyed hs)]
    have := w.fresh i hi
    tauto
  top_keyed i htop hlt := by
    rw [keyed_storeVal (lt_of_keyed hs)]
    exact w.top_keyed i htop (by simpa [storeVal] using hlt)
  valid i hi := by
    rw [keyed_storeVal (lt_of_keyed hs)] at hi
    rw [key_storeVal (lt_of_keyed hs)]
    exact w.valid i hi
  split i hi := by
    rw [key_storeVal (lt_of_keyed hs)]
    obtain ⟨rfl, _⟩ | ⟨_, hi⟩ := (live_storeVal (lt_of_keyed hs)).mp hi
    · exact hidx
    · exact w.split i hi

theorem findable_storeVal (hs : s < t.node.length) (fd : t.Findable h) (vc : Vacant h t key s) :
    (t.storeVal s v).Findable h where
  homed i hi := by
    rw [key_storeVal hs, frame_storeVal.hashSlot, nextOf_storeVal hs]
    obtain ⟨rfl, _⟩ | ⟨_, hi⟩ := (live_storeVal hs).mp hi
    · rw [vc.key_eq]
      exact vc.homed
    · exact fd.homed i hi
  first i hi j := by
    rw [key_storeVal hs, key_storeVal hs, frame_storeVal.hashSlot, nextOf_storeVal hs]
    obtain ⟨rfl, _⟩ | ⟨_, hi⟩ := (live_storeVal hs).mp hi
    · rw [vc.key_eq]
      exact vc.first j
    · exact fd.first i hi j

theorem chained_storeVal (ch : t.Chained h) (hs : t.Keyed s) (hidx : t.arrayIdx (t.nodeAt s).key = none) :
    (t.storeVal s v).Chained h where
  toWf := wf_storeVal ch.toWf hs hidx
  homed i hi := by
    rw [keyed_storeVal (lt_of_keyed hs)] at hi
    rw [key_storeVal (lt_of_keyed hs), frame_storeVal.hashSlot, nextOf_storeVal (lt_of_keyed hs)]
    exact ch.homed i hi
  unique i j hi hij := by
    rw [keyed_storeVal (lt_of_keyed hs)] at hi
    rw [key_storeVal (lt_of_keyed hs), key_storeVal (lt_of_keyed hs)] at hij
    exact ch.unique i j hi hij
  foreign i hi hne := by
    rw [keyed_storeVal (lt_of_keyed hs)] at hi
    rw [key_storeVal (lt_of_keyed hs), frame_storeVal.hashSlot] at hne
    rw [key_storeVal (lt_of_keyed hs), frame_storeVal.hashSlot, frame_storeVal.hashSlot,
      key_storeVal (lt_of_keyed hs)]
    exact ch.foreign i hi hne

/-- A live node with the key of a vacant node is that node. -/
theorem Vacant.eq_of_live (w : t.Wf) (fd : t.Findable h) (vc : Vacant h t key s) {j : ℕ} (hj : t.Live j)
    (hkey : (t.nodeAt j).key = key) : j = s := by
  have hsj := vc.first j (hkey ▸ fd.homed j hj) hkey
  have hjs := fd.first j hj s (hkey ▸ vc.homed) (vc.key_eq.trans hkey.symm)
  exact w.forest.antisymm hjs hsj

theorem entry_storeVal (hs : s < t.node.length) (hkey : (t.nodeAt s).key = key)
    (huniq : ∀ j, t.Live j → (t.nodeAt j).key = key → j = s) (k u : LuaValue) :
    (t.storeVal s v).Entry k u ↔ if k = key then u ≠ .nil ∧ u = v else t.Entry k u := by
  split_ifs with hk
  · subst hk
    constructor
    · rintro ⟨hu, i, hik, hiv⟩
      rw [key_storeVal hs] at hik
      rw [nodeAt_storeVal hs] at hiv
      split_ifs at hiv with his
      · exact ⟨hu, hiv.symm⟩
      · exact absurd (huniq i (by rw [Live, hiv]; exact hu) hik) his
    · rintro ⟨hu, rfl⟩
      exact ⟨hu, s, by rw [key_storeVal hs, hkey], by rw [nodeAt_storeVal hs, if_pos rfl]⟩
  · refine and_congr_right fun hu => exists_congr fun i => ?_
    rw [key_storeVal hs, nodeAt_storeVal hs]
    refine and_congr_right fun hik => ?_
    rw [if_neg]
    rintro rfl
    exact hk (hik.symm.trans hkey)

/-! ### Inserting a key -/

theorem wf_nomm (w : t.Wf) (m : ℕ) : Wf { t with nomm := m } :=
  ⟨w.asize_eq, w.asize_le, w.size, w.freetop_le, w.next_lt, w.forest, w.fresh, w.top_keyed, w.valid, w.split⟩

/-- What `try_new_key` does while an unused node is left: one of the three insertions at the main
position `n` of the key. -/
inductive Insertion (h : LuaValue → UInt32) (t : LuaTable) (key : LuaValue) (n : ℕ) : LuaTable → ℕ → Prop
  | main (dead : ¬ t.Live n) : Insertion h t key n (t.takeMain n key) n
  | link {f : ℕ} (c : t.Collision n f) (own : t.hashSlot h (t.nodeAt n).key = n) :
      Insertion h t key n (t.linkAfter n f key) f
  | move {p f : ℕ} (c : t.Collision n f) (out : t.hashSlot h (t.nodeAt n).key ≠ n)
      (pred : t.nextOf p = some n) : Insertion h t key n (t.moveAway p n f key) n

namespace Insertion
variable {t' : LuaTable} {n : ℕ} (ins : Insertion h t key n t' s) (w : t.Wf) (hn : n < t.node.length)
include ins w hn

theorem wf (hk : key.ValidKey) : t'.Wf := by
  cases ins with
  | main dead => exact wf_takeMain w hn dead hk
  | link c own => exact wf_linkAfter w c hk
  | move c out pred => exact wf_moveAway w c pred hk

theorem grown : Grown t t' s := by
  cases ins with
  | main dead => exact grown_takeMain hn dead
  | link c own => exact grown_linkAfter w c
  | move c out pred => exact grown_moveAway w c pred

theorem vacant (hmain : t.hashSlot h key = n) (hmiss : ∀ j, Reach t.nextOf n j → (t.nodeAt j).key ≠ key) :
    Vacant h t' key s := by
  cases ins with
  | main dead => exact vacant_takeMain hn hmain
  | link c own => exact vacant_linkAfter w c hmain hmiss
  | move c out pred => exact vacant_moveAway w c pred hmain

theorem findable (fd : t.Findable h) (hnew : ∀ i, t.Live i → (t.nodeAt i).key ≠ key)
    (hstay : t.Live n → t.hashSlot h (t.nodeAt n).key ≠ n →
      ∀ i, t.Live i → t.hashSlot h (t.nodeAt i).key ≠ n) : t'.Findable h := by
  cases ins with
  | main dead => exact findable_takeMain hn dead fd hnew
  | link c own => exact findable_linkAfter w c fd hnew
  | move c out pred => exact findable_moveAway w c pred fd (hstay c.live out)

theorem chained (ch : t.Chained h) (hk : key.ValidKey) (hmain : t.hashSlot h key = n)
    (hnew : ∀ i, t.Keyed i → (t.nodeAt i).key ≠ key) : t'.Chained h := by
  cases ins with
  | main dead => exact chained_takeMain w hn dead ch hk hmain hnew
  | link c own => exact chained_linkAfter w c ch hk hmain own hnew
  | move c out pred => exact chained_moveAway w c pred ch hk hmain out hnew

end Insertion

/-- Inserting `key` moves the live occupant of its main position away: the key is in no node of its
chain, and the occupant is not in its own main position. -/
structure Displaces (h : LuaValue → UInt32) (t : LuaTable) (key : LuaValue) : Prop where
  idx : t.arrayIdx key = none
  hpart : t.hasHpart = true
  miss : ∀ j, Reach t.nextOf (t.hashSlot h key) j → (t.nodeAt j).key ≠ key
  live : t.Live (t.hashSlot h key)
  out : t.hashSlot h (t.nodeAt (t.hashSlot h key)).key ≠ t.hashSlot h key
  free : t.freeSet.Nonempty

/-- A displacement leaves no live key behind: when the occupant moves away from the main position of
`key`, no live key has that main position. -/
def NoStrand (h : LuaValue → UInt32) (t : LuaTable) (key : LuaValue) : Prop :=
  t.Displaces h key → ∀ i, t.Live i → t.hashSlot h (t.nodeAt i).key ≠ t.hashSlot h key

theorem Chained.noStrand (ch : t.Chained h) (key : LuaValue) : t.NoStrand h key := by
  intro hd i hi he
  have hki := ch.toWf.keyed_of_live hi
  by_cases hin : i = t.hashSlot h key
  · exact hd.out (hin ▸ he)
  · have := ch.foreign i hki (by rw [he]; exact Ne.symm hin)
    rw [he] at this
    exact hd.out this

section TryNewKey
variable {setf : Setter} {n f p : ℕ}

/-- The state in which `try_new_key` links a node. -/
def touch (t : LuaTable) (f : ℕ) : LuaTable := { t with nomm := 0, freetop := f }

@[simp] theorem hashSlot_touch (k : LuaValue) : (t.touch f).hashSlot h k = t.hashSlot h k := rfl
@[simp] theorem nodeSlot_touch (i : ℕ) : (t.touch f).nodeSlot i = t.nodeSlot i := rfl

theorem findFree_touch (k : ℕ) : (t.touch f).findFree k = t.findFree k := by
  induction k with
  | zero => rfl
  | succ k ih => simp only [findFree, nodeSlot_touch, ih]

theorem findPred_touch (k a : ℕ) : (t.touch f).findPred n k a = t.findPred n k a := by
  induction k generalizing a with
  | zero => rfl
  | succ k ih => simp only [findPred, nodeSlot_touch, ih]

theorem collide_link (hn : n < t.node.length) (hf : f < t.node.length)
    (own : t.hashSlot h (t.nodeAt n).key = n) :
    (t.touch f).collide h key n (t.nodeAt n) f = .ok (t.linkAfter n f key.normalizeKey, some f) := by
  simp only [collide, hashSlot_touch, own, ne_eq, not_true_eq_false, if_false]
  simp only [setNext, setKey, modifyNode, touch, List.length_modify, hn, hf, if_true, bind, Except.bind,
    pure, Except.pure]
  rfl

theorem collide_move (hn : n < t.node.length) (hf : f < t.node.length)
    (out : t.hashSlot h (t.nodeAt n).key ≠ n) (hp : p < t.node.length)
    (hpred : t.findPred n (t.node.length + 1) (t.hashSlot h (t.nodeAt n).key) = .ok p) :
    (t.touch f).collide h key n (t.nodeAt n) f = .ok (t.moveAway p n f key.normalizeKey, some n) := by
  simp only [collide, hashSlot_touch, out, ne_eq, not_false_eq_true, if_true, findPred_touch]
  rw [show (t.touch f).node.length = t.node.length from rfl, hpred]
  simp only [setNext, modifyNode, touch, List.length_modify, hn, hf, hp, if_true, bind, Except.bind,
    pure, Except.pure]
  rfl

/-- The branches of `try_new_key` on a table with a hash part. -/
theorem tryNewKey_eq (hp : t.hasHpart = true) (hn : t.nodeSlot (t.hashSlot h key) = .ok (t.nodeAt n)) :
    t.tryNewKey h setf key =
      (if (t.nodeAt n).val.isNil then do
        let t' ← (t.touch t.freetop).setKey (t.hashSlot h key) key.normalizeKey
        pure (t', some (t.hashSlot h key))
      else do
        match ← t.findFree t.freetop with
        | some free => (t.touch free).collide h key (t.hashSlot h key) (t.nodeAt n) free
        | none => do
          let t' ← (t.touch t.freetop).rehashWith setf key
          pure (t', none)) := by
  have hp' : (t.touch t.freetop).hasHpart = true := hp
  rw [← findFree_touch (f := t.freetop)]
  change (if (!(t.touch t.freetop).hasHpart) = true then _ else _) = _
  simp only [hp', Bool.not_true, Bool.false_eq_true, if_false]
  change ((t.touch t.freetop).nodeSlot (t.hashSlot h key) >>= _) = _
  rw [nodeSlot_touch, hn]
  rfl

variable (w : t.Wf)
include w

/-- With room at the main position or an unused node, `try_new_key` inserts without a rehash; the
predecessor walk of a displacement succeeds because the occupant is on its own chain. -/
theorem tryNewKey_insertion (hp : t.hasHpart = true) (hk : key.ValidKey) (hm : t.Homed h t.Live)
    (hroom : ¬ t.Live (t.hashSlot h key) ∨ t.freeSet.Nonempty) :
    ∃ t' s, Insertion h t key (t.hashSlot h key) t' s ∧ t.tryNewKey h setf key = .ok (t', some s) := by
  have hn := w.hashSlot_lt h hp key
  have hstep : t.tryNewKey h setf key = _ := tryNewKey_eq hp (w.nodeSlot_eq hn)
  by_cases hlive : t.Live (t.hashSlot h key)
  · obtain ⟨f, hff, hlt, hfree, habove⟩ := findFree_of_freeSet w (hroom.resolve_left (not_not.mpr hlive))
    have c : t.Collision (t.hashSlot h key) f := ⟨hlive, hfree, hlt, habove⟩
    have hval : (t.nodeAt (t.hashSlot h key)).val.isNil = false := decide_eq_false hlive
    rw [hval, hff] at hstep
    have hlen := c.f_lt w
    by_cases hown : t.hashSlot h (t.nodeAt (t.hashSlot h key)).key = t.hashSlot h key
    · exact ⟨_, f, .link c hown, hstep.trans ((collide_link hn hlen hown).trans (by rw [hk.normalize]))⟩
    · have ha := w.hashSlot_lt h hp (t.nodeAt (t.hashSlot h key)).key
      obtain ⟨p, hpred, hpn⟩ := findPred_spec w hn ha (hm _ hlive) hown
      have hmove : (t.touch f).collide h key _ _ f = _ := collide_move hn hlen hown (lt_of_nextOf hpn) hpred
      rw [hk.normalize] at hmove
      exact ⟨_, _, .move c hown hpn, hstep.trans hmove⟩
  · refine ⟨_, _, .main hlive, hstep.trans ?_⟩
    have hval : (t.nodeAt (t.hashSlot h key)).val.isNil = true := decide_eq_true (not_not.mp hlive)
    have hset : (t.touch t.freetop).setKey (t.hashSlot h key) key =
        .ok (t.takeMain (t.hashSlot h key) key) := modifyNode_eq _ hn
    rw [hval, if_pos rfl, hk.normalize, hset]
    rfl

/-- Without room the insertion is left to a rehash. -/
theorem tryNewKey_full (hp : t.hasHpart = true) (hlive : t.Live (t.hashSlot h key))
    (hfull : ¬ t.freeSet.Nonempty) : t.tryNewKey h setf key = (do
      let t' ← (t.touch t.freetop).rehashWith setf key
      pure (t', none)) := by
  have hval : (t.nodeAt (t.hashSlot h key)).val.isNil = false := decide_eq_false hlive
  have hnone : t.findFree t.freetop = .ok none := by
    obtain ⟨f, _, hlt, hfree, _⟩ | ⟨hnone, _⟩ := findFree_spec w t.freetop w.freetop_le
    · exact absurd ⟨f, mem_freeSet.mpr ⟨hlt.trans_le w.freetop_le, hfree⟩⟩ hfull
    · exact hnone
  rw [tryNewKey_eq hp (w.nodeSlot_eq (w.hashSlot_lt h hp key)), hval, hnone]
  rfl

omit w in
theorem tryNewKey_no_hpart (hp : t.hasHpart = false) : t.tryNewKey h setf key = (do
    let t' ← (t.touch t.freetop).rehashWith setf key
    pure (t', none)) := by
  have hp' : (t.touch t.freetop).hasHpart = false := hp
  change (if (!(t.touch t.freetop).hasHpart) = true then _ else _) = _
  rw [hp']
  rfl

end TryNewKey

end LuaTable
end LuajitRs
