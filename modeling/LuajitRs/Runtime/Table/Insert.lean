import LuajitRs.Runtime.Table.Chains

/-! Insertion of a new key. `try_new_key` has three outcomes when it does not rehash: the key takes
its free main position, it is linked into the chain after the occupant of its main position, or it
takes the place of an occupant that is moved away. Each is described by its effect on nodes and
links, and shown to preserve the invariants. -/
namespace LuajitRs
open Lib.Chain

namespace LuaTable
variable {h : LuaValue → UInt32} {t : LuaTable} {key : LuaValue} {n f p : ℕ}

/-- What the hash part stores: a key with a non-nil value. -/
def Entry (t : LuaTable) (k v : LuaValue) : Prop :=
  v ≠ .nil ∧ ∃ i, (t.nodeAt i).key = k ∧ (t.nodeAt i).val = v

/-- Everything outside the node array and the free pointer is as before. -/
structure Frame (t t' : LuaTable) : Prop where
  array : t'.array = t.array
  asize : t'.asize = t.asize
  hmask : t'.hmask = t.hmask
  length : t'.node.length = t.node.length
  metatable : t'.metatable = t.metatable

theorem Frame.hashSlot {t t' : LuaTable} (fr : Frame t t') (h : LuaValue → UInt32) (k : LuaValue) :
    t'.hashSlot h k = t.hashSlot h k := by
  simp [LuaTable.hashSlot, fr.hmask]

theorem Frame.arrayIdx {t t' : LuaTable} (fr : Frame t t') (k : LuaValue) :
    t'.arrayIdx k = t.arrayIdx k := by
  simp [LuaTable.arrayIdx, fr.asize]

theorem getD_modify (l : List Node) {i : ℕ} (g : Node → Node) (hi : i < l.length) (j : ℕ) :
    (l.modify i g).getD j .EMPTY = if j = i then g (l.getD i .EMPTY) else l.getD j .EMPTY := by
  simp only [List.getD_eq_getElem?_getD, List.getElem?_modify]
  by_cases hj : j = i
  · subst hj; simp [hi]
  · simp [hj, Ne.symm hj]

theorem modifyNode_eq (g : Node → Node) (hi : n < t.node.length) :
    t.modifyNode n g = .ok { t with node := t.node.modify n g } := by
  simp [modifyNode, hi]

/-! ### The three outcomes -/

/-- The key takes the node `n`, whose value is nil. -/
def takeMain (t : LuaTable) (n : ℕ) (key : LuaValue) : LuaTable :=
  { t with nomm := 0, node := t.node.modify n fun nd => { nd with key := key } }

/-- The key is linked in the node `f` directly after `n`. -/
def linkAfter (t : LuaTable) (n f : ℕ) (key : LuaValue) : LuaTable :=
  { t with
    nomm := 0, freetop := f
    node := ((t.node.modify f fun nd => { nd with next := (t.nodeAt n).next }).modify n
      fun nd => { nd with next := f }).modify f fun nd => { nd with key := key } }

/-- The key takes the node `n`, whose occupant moves to `f` in the chain after `p`. -/
def moveAway (t : LuaTable) (p n f : ℕ) (key : LuaValue) : LuaTable :=
  { t with
    nomm := 0, freetop := f
    node := ((t.node.modify p fun nd => { nd with next := f }).modify f (fun _ => t.nodeAt n)).modify n
      fun _ => ⟨.nil, key, NIL_NODE⟩ }

theorem frame_takeMain : Frame t (t.takeMain n key) := ⟨rfl, rfl, rfl, by simp [takeMain], rfl⟩
theorem frame_linkAfter : Frame t (t.linkAfter n f key) := ⟨rfl, rfl, rfl, by simp [linkAfter], rfl⟩
theorem frame_moveAway : Frame t (t.moveAway p n f key) := ⟨rfl, rfl, rfl, by simp [moveAway], rfl⟩

theorem nodeAt_takeMain (hn : n < t.node.length) (i : ℕ) :
    (t.takeMain n key).nodeAt i = if i = n then { t.nodeAt n with key := key } else t.nodeAt i :=
  getD_modify t.node _ hn i

theorem nodeAt_linkAfter (hn : n < t.node.length) (hf : f < t.node.length) (hne : f ≠ n) (i : ℕ) :
    (t.linkAfter n f key).nodeAt i =
      if i = f then ⟨(t.nodeAt f).val, key, (t.nodeAt n).next⟩
      else if i = n then { t.nodeAt n with next := f } else t.nodeAt i := by
  simp only [nodeAt, linkAfter, getD_modify, List.length_modify, hn, hf, hne, hne.symm, if_true, if_false]
  split_ifs <;> rfl

theorem nodeAt_moveAway (hp : p < t.node.length) (hn : n < t.node.length) (hf : f < t.node.length)
    (i : ℕ) : (t.moveAway p n f key).nodeAt i =
      if i = n then ⟨.nil, key, NIL_NODE⟩ else if i = f then t.nodeAt n
      else if i = p then { t.nodeAt p with next := f } else t.nodeAt i := by
  simp only [nodeAt, moveAway, getD_modify, List.length_modify, hp, hn, hf]

theorem nextOf_takeMain (hn : n < t.node.length) : (t.takeMain n key).nextOf = t.nextOf := by
  funext i
  simp only [nextOf, nodeAt_takeMain hn]
  by_cases hi : i = n
  · subst hi; simp
  · simp [hi]

theorem nextOf_linkAfter (hn : n < t.node.length) (hf : f < t.node.length) (hne : f ≠ n)
    (hnil : f ≠ NIL_NODE) : (t.linkAfter n f key).nextOf = insertAfter t.nextOf n f := by
  funext i
  by_cases hin : i = n
  · subst hin
    rw [insertAfter_self]
    simp [nextOf, nodeAt_linkAfter hn hf hne, hne.symm, hnil]
  by_cases hif : i = f
  · subst hif
    rw [insertAfter_new hne]
    simp [nextOf, nodeAt_linkAfter hn hf hne]
  · rw [insertAfter_other hin hif]
    simp [nextOf, nodeAt_linkAfter hn hf hne, hin, hif]

theorem nextOf_moveAway (hp : p < t.node.length) (hn : n < t.node.length) (hf : f < t.node.length)
    (hne : f ≠ n) (hpn : p ≠ n) (hpf : p ≠ f) (hnil : f ≠ NIL_NODE) :
    (t.moveAway p n f key).nextOf = moveTo t.nextOf p n f := by
  funext i
  by_cases hin : i = n
  · subst hin
    rw [moveTo_self]
    simp [nextOf, nodeAt_moveAway hp hn hf]
  by_cases hif : i = f
  · subst hif
    rw [moveTo_new hne]
    simp [nextOf, nodeAt_moveAway hp hn hf, hne]
  by_cases hip : i = p
  · subst hip
    rw [moveTo_pred hpn hpf]
    simp [nextOf, nodeAt_moveAway hp hn hf, hpn, hpf, hnil]
  · rw [moveTo_other hin hif hip]
    simp [nextOf, nodeAt_moveAway hp hn hf, hin, hif, hip]

/-! ### Preservation -/

/-- A node is new for a key: the key may be given a value there. -/
structure Vacant (h : LuaValue → UInt32) (t : LuaTable) (key : LuaValue) (s : ℕ) : Prop where
  key_eq : (t.nodeAt s).key = key
  homed : Reach t.nextOf (t.hashSlot h key) s
  first : ∀ j, Reach t.nextOf (t.hashSlot h key) j → (t.nodeAt j).key = key → Reach t.nextOf s j

/-- What an insertion leaves alone: the stored entries, and all but one of the unused nodes. -/
structure Grown (t t' : LuaTable) (s : ℕ) : Prop extends Frame t t' where
  entry : ∀ k v, t'.Entry k v ↔ t.Entry k v
  free : ∃ x, t.freeSet.erase x ⊆ t'.freeSet
  dead : ¬ t'.Live s

theorem Wf.keyed_of_reach (w : t.Wf) {a i : ℕ} (hr : Reach t.nextOf a i) (hi : t.Keyed i) : t.Keyed a := by
  by_contra ha
  exact ha ((hr.eq_of_next_none (w.fresh a ha).1.1) ▸ hi)

section TakeMain
variable (w : t.Wf) (hn : n < t.node.length) (hdead : ¬ t.Live n)
include hn

theorem keyed_takeMain {i : ℕ} : (t.takeMain n key).Keyed i ↔ (i = n ∧ key ≠ .nil) ∨ (i ≠ n ∧ t.Keyed i) := by
  unfold Keyed
  rw [nodeAt_takeMain hn]
  by_cases hi : i = n <;> simp [hi]

theorem val_takeMain (i : ℕ) : ((t.takeMain n key).nodeAt i).val = (t.nodeAt i).val := by
  rw [nodeAt_takeMain hn]
  by_cases hi : i = n <;> simp [hi]

theorem live_takeMain {i : ℕ} : (t.takeMain n key).Live i ↔ t.Live i := by
  rw [Live, Live, val_takeMain hn]

include hdead

theorem key_takeMain {i : ℕ} (hi : t.Live i) : ((t.takeMain n key).nodeAt i).key = (t.nodeAt i).key := by
  rw [nodeAt_takeMain hn, if_neg (by rintro rfl; exact hdead hi)]

include w

theorem wf_takeMain (hk : key.ValidKey) : (t.takeMain n key).Wf where
  asize_eq := w.asize_eq
  asize_le := w.asize_le
  size := by simpa [takeMain, ← List.length_eq_zero_iff] using w.size
  freetop_le := by simpa [takeMain] using w.freetop_le
  next_lt := by rw [nextOf_takeMain hn, frame_takeMain.length]; exact w.next_lt
  forest := by rw [nextOf_takeMain hn]; exact w.forest
  fresh i hi := by
    rw [keyed_takeMain hn] at hi
    have hnk : ¬ t.Keyed i := by have := hk.1; tauto
    rw [nextOf_takeMain hn, live_takeMain hn]
    exact w.fresh i hnk
  top_keyed i htop hlt := by
    rw [keyed_takeMain hn]
    have := w.top_keyed i htop (by simpa [takeMain] using hlt)
    have := hk.1
    tauto
  valid i hi := by
    rw [nodeAt_takeMain hn]
    obtain ⟨rfl, _⟩ | ⟨hin, hki⟩ := (keyed_takeMain hn).mp hi
    · simpa using hk
    · simpa [hin] using w.valid i hki
  split i hi := by
    rw [live_takeMain hn] at hi
    rw [key_takeMain hn hdead hi]
    exact w.split i hi

omit w in
theorem grown_takeMain : Grown t (t.takeMain n key) n where
  toFrame := frame_takeMain
  entry k v := by
    refine and_congr_right fun hv => exists_congr fun i => ?_
    rw [val_takeMain hn]
    refine and_congr_left fun hval => ?_
    rw [key_takeMain hn hdead (by rw [Live, hval]; exact hv)]
  free := by
    refine ⟨n, fun i hi => ?_⟩
    obtain ⟨hin, hi⟩ := Finset.mem_erase.mp hi
    obtain ⟨hlt, hfree⟩ := mem_freeSet.mp hi
    rw [mem_freeSet, frame_takeMain.length, keyed_takeMain hn]
    tauto
  dead := by rwa [live_takeMain hn]

omit w in
theorem findable_takeMain (fd : t.Findable h) (hnew : ∀ i, t.Live i → (t.nodeAt i).key ≠ key) :
    (t.takeMain n key).Findable h where
  homed i hi := by
    rw [live_takeMain hn] at hi
    rw [key_takeMain hn hdead hi, frame_takeMain.hashSlot, nextOf_takeMain hn]
    exact fd.homed i hi
  first i hi j hr hj := by
    rw [live_takeMain hn] at hi
    rw [key_takeMain hn hdead hi, frame_takeMain.hashSlot, nextOf_takeMain hn] at *
    rw [nodeAt_takeMain hn] at hj
    split_ifs at hj with hjn
    · exact absurd hj.symm (hnew i hi)
    · exact fd.first i hi j hr hj

omit w hdead in
theorem vacant_takeMain (hmain : t.hashSlot h key = n) : Vacant h (t.takeMain n key) key n where
  key_eq := by rw [nodeAt_takeMain hn, if_pos rfl]
  homed := by rw [frame_takeMain.hashSlot, hmain]
  first j hr _ := by rwa [frame_takeMain.hashSlot, hmain] at hr

theorem chained_takeMain (ch : t.Chained h) (hk : key.ValidKey) (hmain : t.hashSlot h key = n)
    (hnew : ∀ i, t.Keyed i → (t.nodeAt i).key ≠ key) : (t.takeMain n key).Chained h where
  toWf := wf_takeMain w hn hdead hk
  homed i hi := by
    rw [nextOf_takeMain hn, frame_takeMain.hashSlot, nodeAt_takeMain hn]
    obtain ⟨rfl, _⟩ | ⟨hin, hki⟩ := (keyed_takeMain hn).mp hi
    · rw [if_pos rfl, hmain]
    · rw [if_neg hin]
      exact ch.homed i hki
  unique i j hi hij := by
    rw [nodeAt_takeMain hn, nodeAt_takeMain hn] at hij
    obtain ⟨rfl, _⟩ | ⟨hin, hki⟩ := (keyed_takeMain hn).mp hi
    · by_contra hne
      rw [if_pos rfl, if_neg (Ne.symm hne)] at hij
      exact hnew j (by rw [Keyed, ← hij]; exact hk.1) hij.symm
    · rw [if_neg hin] at hij
      split_ifs at hij with hjn
      · exact absurd hij (hnew i hki)
      · exact ch.unique i j hki hij
  foreign i hi hne := by
    rw [frame_takeMain.hashSlot] at hne
    rw [frame_takeMain.hashSlot, frame_takeMain.hashSlot]
    obtain ⟨rfl, _⟩ | ⟨hin, hki⟩ := (keyed_takeMain hn).mp hi
    · rw [nodeAt_takeMain hn, if_pos rfl] at hne
      exact absurd hmain hne
    · have hkey : ((t.takeMain n key).nodeAt i).key = (t.nodeAt i).key := by
        rw [nodeAt_takeMain hn, if_neg hin]
      rw [hkey] at hne ⊢
      rw [nodeAt_takeMain hn]
      split_ifs with hocc
      · rw [hocc]
        exact hmain
      · exact ch.foreign i hki hne

end TakeMain

/-- The setting of a collision: the main position `n` is occupied and `f` is the topmost unused
node. -/
structure Collision (t : LuaTable) (n f : ℕ) : Prop where
  live : t.Live n
  unused : ¬ t.Keyed f
  lt : f < t.freetop
  above : ∀ i, f < i → i < t.freetop → t.Keyed i

namespace Collision
variable (c : t.Collision n f) (w : t.Wf)
include c w

theorem keyed : t.Keyed n := w.keyed_of_live c.live
theorem n_lt : n < t.node.length := lt_of_keyed (c.keyed w)
theorem f_lt : f < t.node.length := c.lt.trans_le w.freetop_le
theorem ne_nil : f ≠ NIL_NODE := by have := w.length_lt; have := c.f_lt w; omega
theorem fresh : Fresh t.nextOf f := (w.fresh f c.unused).1
theorem dead : ¬ t.Live f := (w.fresh f c.unused).2
theorem top_keyed {i : ℕ} (hi : f ≤ i) (hlt : i < t.node.length) : i = f ∨ t.Keyed i := by
  obtain rfl | hfi := Nat.eq_or_lt_of_le hi
  · exact .inl rfl
  by_cases htop : i < t.freetop
  · exact .inr (c.above i hfi htop)
  · exact .inr (w.top_keyed i (by omega) hlt)

omit c w in
theorem ne_of_keyed (c : t.Collision n f) {i : ℕ} (hi : t.Keyed i) : i ≠ f := by
  rintro rfl
  exact c.unused hi

theorem ne : f ≠ n := (c.ne_of_keyed (c.keyed w)).symm

end Collision

section LinkAfter
variable (w : t.Wf) (c : t.Collision n f)
include w c

theorem nextOf_linkAfter' : (t.linkAfter n f key).nextOf = insertAfter t.nextOf n f :=
  nextOf_linkAfter (c.n_lt w) (c.f_lt w) (c.ne w) (c.ne_nil w)

theorem val_linkAfter (i : ℕ) : ((t.linkAfter n f key).nodeAt i).val = (t.nodeAt i).val := by
  rw [nodeAt_linkAfter (c.n_lt w) (c.f_lt w) (c.ne w)]
  split_ifs with hf hn <;> simp [*]

theorem live_linkAfter {i : ℕ} : (t.linkAfter n f key).Live i ↔ t.Live i := by
  rw [Live, Live, val_linkAfter w c]

theorem key_linkAfter_new : ((t.linkAfter n f key).nodeAt f).key = key := by
  rw [nodeAt_linkAfter (c.n_lt w) (c.f_lt w) (c.ne w), if_pos rfl]

theorem key_linkAfter {i : ℕ} (hi : i ≠ f) : ((t.linkAfter n f key).nodeAt i).key = (t.nodeAt i).key := by
  rw [nodeAt_linkAfter (c.n_lt w) (c.f_lt w) (c.ne w), if_neg hi]
  split_ifs with hn <;> simp [*]

theorem keyed_linkAfter {i : ℕ} :
    (t.linkAfter n f key).Keyed i ↔ (i = f ∧ key ≠ .nil) ∨ (i ≠ f ∧ t.Keyed i) := by
  by_cases hi : i = f
  · subst hi; simp [Keyed, key_linkAfter_new w c]
  · simp [Keyed, key_linkAfter w c hi, hi]

theorem reach_linkAfter {a i : ℕ} (ha : a ≠ f) (hi : i ≠ f) :
    Reach (t.linkAfter n f key).nextOf a i ↔ Reach t.nextOf a i := by
  rw [nextOf_linkAfter' w c]
  exact reach_insertAfter_iff (c.fresh w) (c.ne w) ha hi

theorem reach_linkAfter_new {a : ℕ} (ha : a ≠ f) :
    Reach (t.linkAfter n f key).nextOf a f ↔ Reach t.nextOf a n := by
  rw [nextOf_linkAfter' w c]
  exact reach_insertAfter_new_iff (c.fresh w) (c.ne w) ha

theorem wf_linkAfter (hk : key.ValidKey) : (t.linkAfter n f key).Wf where
  asize_eq := w.asize_eq
  asize_le := w.asize_le
  size := by simpa [linkAfter, ← List.length_eq_zero_iff] using w.size
  freetop_le := by simpa [linkAfter] using (c.f_lt w).le
  next_lt i j hij := by
    rw [frame_linkAfter.length]
    rw [nextOf_linkAfter' w c] at hij
    by_cases hin : i = n
    · subst hin
      rw [insertAfter_self, Option.some.injEq] at hij
      exact hij ▸ c.f_lt w
    by_cases hif : i = f
    · subst hif
      rw [insertAfter_new (c.ne w)] at hij
      exact w.next_lt _ _ hij
    · rw [insertAfter_other hin hif] at hij
      exact w.next_lt _ _ hij
  forest := by rw [nextOf_linkAfter' w c]; exact w.forest.insertAfter (c.fresh w) (c.ne w)
  fresh i hi := by
    rw [keyed_linkAfter w c] at hi
    have hif : i ≠ f := by have := hk.1; tauto
    have hki : ¬ t.Keyed i := by tauto
    have hin : i ≠ n := by rintro rfl; exact hki (c.keyed w)
    obtain ⟨⟨hnone, hpred⟩, hdead⟩ := w.fresh i hki
    rw [live_linkAfter w c, nextOf_linkAfter' w c]
    refine ⟨⟨by rw [insertAfter_other hin hif, hnone], fun a ha => ?_⟩, hdead⟩
    by_cases han : a = n
    · subst han
      rw [insertAfter_self, Option.some.injEq] at ha
      exact hif ha.symm
    by_cases haf : a = f
    · subst haf
      rw [insertAfter_new (c.ne w)] at ha
      exact hpred _ ha
    · rw [insertAfter_other han haf] at ha
      exact hpred _ ha
  top_keyed i htop hlt := by
    rw [keyed_linkAfter w c]
    obtain rfl | hki := c.top_keyed w htop (by simpa [linkAfter] using hlt)
    · exact .inl ⟨rfl, hk.1⟩
    · exact .inr ⟨c.ne_of_keyed hki, hki⟩
  valid i hi := by
    obtain ⟨rfl, _⟩ | ⟨hif, hki⟩ := (keyed_linkAfter w c).mp hi
    · rwa [key_linkAfter_new w c]
    · rw [key_linkAfter w c hif]
      exact w.valid i hki
  split i hi := by
    rw [live_linkAfter w c] at hi
    rw [key_linkAfter w c (c.ne_of_keyed (w.keyed_of_live hi))]
    exact w.split i hi

theorem grown_linkAfter : Grown t (t.linkAfter n f key) f where
  toFrame := frame_linkAfter
  entry k v := by
    refine and_congr_right fun hv => exists_congr fun i => ?_
    rw [val_linkAfter w c]
    refine and_congr_left fun hval => ?_
    have hlive : t.Live i := by rw [Live, hval]; exact hv
    rw [key_linkAfter w c (c.ne_of_keyed (w.keyed_of_live hlive))]
  free := by
    refine ⟨f, fun i hi => ?_⟩
    obtain ⟨hif, hi⟩ := Finset.mem_erase.mp hi
    obtain ⟨hlt, hfree⟩ := mem_freeSet.mp hi
    rw [mem_freeSet, frame_linkAfter.length, keyed_linkAfter w c]
    tauto
  dead := by rw [live_linkAfter w c]; exact c.dead w

theorem homed_linkAfter {T : ℕ → Prop} (hT : ∀ i, T i → t.Keyed i) (hm : t.Homed h T) {i : ℕ} (hi : T i) :
    Reach (t.linkAfter n f key).nextOf
      (t.hashSlot h ((t.linkAfter n f key).nodeAt i).key) i := by
  have hif := c.ne_of_keyed (hT i hi)
  have hmain := c.ne_of_keyed (w.keyed_of_reach (hm i hi) (hT i hi))
  rw [key_linkAfter w c hif, reach_linkAfter w c hmain hif]
  exact hm i hi

theorem findable_linkAfter (fd : t.Findable h) (hnew : ∀ i, t.Live i → (t.nodeAt i).key ≠ key) :
    (t.linkAfter n f key).Findable h where
  homed i hi := by
    rw [live_linkAfter w c] at hi
    exact homed_linkAfter w c (fun _ => w.keyed_of_live) fd.homed hi
  first i hi j hr hj := by
    rw [live_linkAfter w c] at hi
    have hki := w.keyed_of_live hi
    have hif := c.ne_of_keyed hki
    have hmain := c.ne_of_keyed (w.keyed_of_reach (fd.homed i hi) hki)
    rw [key_linkAfter w c hif] at hr hj
    have hjf : j ≠ f := by
      rintro rfl
      rw [key_linkAfter_new w c] at hj
      exact hnew i hi hj.symm
    rw [key_linkAfter w c hjf] at hj
    rw [frame_linkAfter.hashSlot, reach_linkAfter w c hmain hjf] at hr
    rw [reach_linkAfter w c hif hjf]
    exact fd.first i hi j hr hj

theorem vacant_linkAfter (hmain : t.hashSlot h key = n)
    (hmiss : ∀ j, Reach t.nextOf n j → (t.nodeAt j).key ≠ key) :
    Vacant h (t.linkAfter n f key) key f where
  key_eq := key_linkAfter_new w c
  homed := by
    rw [frame_linkAfter.hashSlot, hmain, reach_linkAfter_new w c (c.ne w).symm]
  first j hr hj := by
    by_cases hjf : j = f
    · rw [hjf]
    · rw [frame_linkAfter.hashSlot, hmain, reach_linkAfter w c (c.ne w).symm hjf] at hr
      rw [key_linkAfter w c hjf] at hj
      exact absurd hj (hmiss j hr)

theorem chained_linkAfter (ch : t.Chained h) (hk : key.ValidKey)
    (hmain : t.hashSlot h key = n) (hown : t.hashSlot h (t.nodeAt n).key = n)
    (hnew : ∀ i, t.Keyed i → (t.nodeAt i).key ≠ key) : (t.linkAfter n f key).Chained h where
  toWf := wf_linkAfter w c hk
  homed i hi := by
    obtain ⟨rfl, _⟩ | ⟨hif, hki⟩ := (keyed_linkAfter w c).mp hi
    · rw [key_linkAfter_new w c, frame_linkAfter.hashSlot, hmain, reach_linkAfter_new w c (c.ne w).symm]
    · exact homed_linkAfter w c (fun _ => id) ch.homed hki
  unique i j hi hij := by
    obtain ⟨rfl, _⟩ | ⟨hif, hki⟩ := (keyed_linkAfter w c).mp hi
    · by_contra hne
      rw [key_linkAfter_new w c, key_linkAfter w c (Ne.symm hne)] at hij
      exact hnew j (by rw [Keyed, ← hij]; exact hk.1) hij.symm
    · rw [key_linkAfter w c hif] at hij
      by_cases hjf : j = f
      · subst hjf
        rw [key_linkAfter_new w c] at hij
        exact absurd hij (hnew i hki)
      · rw [key_linkAfter w c hjf] at hij
        exact ch.unique i j hki hij
  foreign i hi hne := by
    rw [frame_linkAfter.hashSlot] at hne
    rw [frame_linkAfter.hashSlot, frame_linkAfter.hashSlot]
    obtain ⟨rfl, _⟩ | ⟨hif, hki⟩ := (keyed_linkAfter w c).mp hi
    · rw [key_linkAfter_new w c, hmain, key_linkAfter w c (c.ne w).symm, hown]
    · rw [key_linkAfter w c hif] at hne ⊢
      have hslot := c.ne_of_keyed (w.keyed_of_reach (ch.homed i hki) hki)
      rw [key_linkAfter w c hslot]
      exact ch.foreign i hki hne

end LinkAfter

section MoveAway
variable (w : t.Wf) (c : t.Collision n f) (hp : t.nextOf p = some n)
include w c hp

theorem nodeAt_moveAway' (i : ℕ) : (t.moveAway p n f key).nodeAt i =
    if i = n then ⟨.nil, key, NIL_NODE⟩ else if i = f then t.nodeAt n
    else if i = p then { t.nodeAt p with next := f } else t.nodeAt i :=
  nodeAt_moveAway (lt_of_nextOf hp) (c.n_lt w) (c.f_lt w) i

theorem nextOf_moveAway' : (t.moveAway p n f key).nextOf = moveTo t.nextOf p n f := by
  have hpf : p ≠ f := by rintro rfl; simp [(c.fresh w).1] at hp
  exact nextOf_moveAway (lt_of_nextOf hp) (c.n_lt w) (c.f_lt w) (c.ne w) (w.forest.ne_of_next hp) hpf
    (c.ne_nil w)

theorem nodeAt_moveAway_self (key : LuaValue) : (t.moveAway p n f key).nodeAt n = ⟨.nil, key, NIL_NODE⟩ := by
  rw [nodeAt_moveAway' w c hp, if_pos rfl]

/-- Every old node but the unused one is found, with its key and value, where it moved. -/
theorem nodeAt_moved (key : LuaValue) {i : ℕ} (hi : i ≠ f) :
    ((t.moveAway p n f key).nodeAt (moved n f i)).key = (t.nodeAt i).key ∧
      ((t.moveAway p n f key).nodeAt (moved n f i)).val = (t.nodeAt i).val := by
  rw [nodeAt_moveAway' w c hp, if_neg (moved_ne (c.ne w) i)]
  by_cases hin : i = n
  · subst hin; simp
  · rw [moved_of_ne hin, if_neg hi]
    split_ifs with hip <;> simp [hip]

theorem keyed_moved (key : LuaValue) {i : ℕ} (hi : i ≠ f) : (t.moveAway p n f key).Keyed (moved n f i) ↔ t.Keyed i := by
  rw [Keyed, Keyed, (nodeAt_moved w c hp _ hi).1]

theorem live_moved {i : ℕ} (hi : i ≠ f) : (t.moveAway p n f key).Live (moved n f i) ↔ t.Live i := by
  rw [Live, Live, (nodeAt_moved w c hp _ hi).2]

theorem dead_moveAway : ¬ (t.moveAway p n f key).Live n := by
  simp [Live, nodeAt_moveAway_self w c hp _]

theorem live_moveAway {j : ℕ} (hj : (t.moveAway p n f key).Live j) :
    ∃ i, i ≠ f ∧ j = moved n f i ∧ t.Live i := by
  obtain rfl | ⟨i, hi, rfl⟩ := eq_or_moved (c.ne w) j
  · exact absurd hj (dead_moveAway w c hp)
  · exact ⟨i, hi, rfl, (live_moved w c hp hi).mp hj⟩

theorem keyed_moveAway {j : ℕ} (hj : (t.moveAway p n f key).Keyed j) :
    j = n ∨ ∃ i, i ≠ f ∧ j = moved n f i ∧ t.Keyed i := by
  obtain rfl | ⟨i, hi, rfl⟩ := eq_or_moved (c.ne w) j
  · exact .inl rfl
  · exact .inr ⟨i, hi, rfl, (keyed_moved w c hp _ hi).mp hj⟩

theorem reach_moved (key : LuaValue) {a i : ℕ} (ha : a ≠ f) (hi : i ≠ f) :
    Reach (t.moveAway p n f key).nextOf (moved n f a) (moved n f i) ↔ Reach t.nextOf a i := by
  rw [nextOf_moveAway' w c hp]
  exact reach_moveTo_iff w.forest (c.fresh w) hp (c.ne w) ha hi

theorem wf_moveAway (hk : key.ValidKey) : (t.moveAway p n f key).Wf where
  asize_eq := w.asize_eq
  asize_le := w.asize_le
  size := by simpa [moveAway, ← List.length_eq_zero_iff] using w.size
  freetop_le := by simpa [moveAway] using (c.f_lt w).le
  next_lt i j hij := by
    rw [frame_moveAway.length]
    obtain rfl | ⟨i, hi, rfl⟩ := eq_or_moved (c.ne w) i
    · simp [nextOf, nodeAt_moveAway_self w c hp _] at hij
    · rw [nextOf_moveAway' w c hp, moveTo_moved w.forest (c.fresh w) hp (c.ne w) hi,
        Option.map_eq_some_iff] at hij
      obtain ⟨b, hb, rfl⟩ := hij
      unfold moved
      split_ifs
      · exact c.f_lt w
      · exact w.next_lt i b hb
  forest := by rw [nextOf_moveAway' w c hp]; exact w.forest.moveTo (c.fresh w) hp (c.ne w)
  fresh j hj := by
    obtain rfl | ⟨i, hi, rfl⟩ := eq_or_moved (c.ne w) j
    · exact absurd (by simpa [Keyed, nodeAt_moveAway_self w c hp _] using hk.1) hj
    rw [keyed_moved w c hp _ hi] at hj
    obtain ⟨⟨hnone, hpred⟩, hdead⟩ := w.fresh i hj
    rw [live_moved w c hp hi, nextOf_moveAway' w c hp]
    refine ⟨⟨?_, fun a ha => ?_⟩, hdead⟩
    · rw [moveTo_moved w.forest (c.fresh w) hp (c.ne w) hi, hnone, Option.map_none]
    · obtain rfl | ⟨b, hb, rfl⟩ := eq_or_moved (c.ne w) a
      · simp [moveTo_self] at ha
      · rw [moveTo_moved w.forest (c.fresh w) hp (c.ne w) hb, Option.map_eq_some_iff] at ha
        obtain ⟨d, hd, hdi⟩ := ha
        have hdf : d ≠ f := fun e => (c.fresh w).2 b (e ▸ hd)
        exact hpred b (moved_injOn hdf hi hdi ▸ hd)
  top_keyed j htop hlt := by
    obtain rfl | ⟨i, hi, rfl⟩ := eq_or_moved (c.ne w) j
    · simpa [Keyed, nodeAt_moveAway_self w c hp _] using hk.1
    rw [keyed_moved w c hp _ hi]
    by_cases hin : i = n
    · subst hin; exact c.keyed w
    · rw [moved_of_ne hin] at htop hlt
      exact (c.top_keyed w htop (by simpa [moveAway] using hlt)).resolve_left hi
  valid j hj := by
    obtain rfl | ⟨i, hi, rfl, hki⟩ := keyed_moveAway w c hp hj
    · simpa [nodeAt_moveAway_self w c hp _] using hk
    · rw [(nodeAt_moved w c hp _ hi).1]
      exact w.valid i hki
  split j hj := by
    obtain ⟨i, hi, rfl, hli⟩ := live_moveAway w c hp hj
    rw [(nodeAt_moved w c hp _ hi).1]
    exact w.split i hli

theorem grown_moveAway : Grown t (t.moveAway p n f key) n where
  toFrame := frame_moveAway
  entry k v := by
    refine and_congr_right fun hv => ⟨?_, ?_⟩
    · rintro ⟨j, hjk, hjv⟩
      obtain ⟨i, hi, rfl, _⟩ := live_moveAway w c hp (j := j) (by rw [Live, hjv]; exact hv)
      obtain ⟨hkey, hval⟩ := nodeAt_moved w c hp key hi
      exact ⟨i, hkey ▸ hjk, hval ▸ hjv⟩
    · rintro ⟨i, hik, hiv⟩
      have hif := c.ne_of_keyed (w.keyed_of_live (i := i) (by rw [Live, hiv]; exact hv))
      obtain ⟨hkey, hval⟩ := nodeAt_moved w c hp key hif
      exact ⟨moved n f i, hkey.trans hik, hval.trans hiv⟩
  free := by
    refine ⟨f, fun i hi => ?_⟩
    obtain ⟨hif, hi⟩ := Finset.mem_erase.mp hi
    obtain ⟨hlt, hfree⟩ := mem_freeSet.mp hi
    have hin : i ≠ n := by rintro rfl; exact hfree (c.keyed w)
    have := keyed_moved w c hp key hif
    rw [moved_of_ne hin] at this
    exact mem_freeSet.mpr ⟨by rwa [frame_moveAway.length], by rwa [this]⟩
  dead := dead_moveAway w c hp

theorem homed_moveAway {T : ℕ → Prop} (hT : ∀ i, T i → t.Keyed i) (hm : t.Homed h T)
    (hmain : ∀ i, T i → t.hashSlot h (t.nodeAt i).key ≠ n) {i : ℕ} (hi : T i) :
    Reach (t.moveAway p n f key).nextOf (t.hashSlot h (t.nodeAt i).key) (moved n f i) := by
  have hif := c.ne_of_keyed (hT i hi)
  have hslot := c.ne_of_keyed (w.keyed_of_reach (hm i hi) (hT i hi))
  have := (reach_moved w c hp key hslot hif).mpr (hm i hi)
  rwa [moved_of_ne (hmain i hi)] at this

theorem findable_moveAway (fd : t.Findable h)
    (hmain : ∀ i, t.Live i → t.hashSlot h (t.nodeAt i).key ≠ n) : (t.moveAway p n f key).Findable h where
  homed j hj := by
    obtain ⟨i, hi, rfl, hli⟩ := live_moveAway w c hp hj
    rw [(nodeAt_moved w c hp _ hi).1, frame_moveAway.hashSlot]
    exact homed_moveAway w c hp (fun _ => w.keyed_of_live) fd.homed hmain hli
  first j hj m hr hm := by
    obtain ⟨i, hi, rfl, hli⟩ := live_moveAway w c hp hj
    have hki := w.keyed_of_live hli
    rw [(nodeAt_moved w c hp _ hi).1] at hr hm
    rw [frame_moveAway.hashSlot, nextOf_moveAway' w c hp, ← moved_of_ne (f := f) (hmain i hli)] at hr
    have hslot := c.ne_of_keyed (w.keyed_of_reach (fd.homed i hli) hki)
    obtain ⟨b, hb, rfl, hrb⟩ := reach_moveTo_cases w.forest (c.fresh w) hp (c.ne w) hslot hr
    rw [(nodeAt_moved w c hp _ hb).1] at hm
    rw [reach_moved w c hp _ hi hb]
    exact fd.first i hli b hrb hm

theorem vacant_moveAway (hmain : t.hashSlot h key = n) : Vacant h (t.moveAway p n f key) key n where
  key_eq := by rw [nodeAt_moveAway_self w c hp _]
  homed := by rw [frame_moveAway.hashSlot, hmain]
  first j hr _ := by rwa [frame_moveAway.hashSlot, hmain] at hr

theorem chained_moveAway (ch : t.Chained h) (hk : key.ValidKey) (hmain : t.hashSlot h key = n)
    (hout : t.hashSlot h (t.nodeAt n).key ≠ n)
    (hnew : ∀ i, t.Keyed i → (t.nodeAt i).key ≠ key) : (t.moveAway p n f key).Chained h := by
  -- No key has the main position of an occupant that is itself away from home.
  have hslot : ∀ i, t.Keyed i → t.hashSlot h (t.nodeAt i).key ≠ n := by
    intro i hi he
    by_cases hin : i = n
    · exact hout (hin ▸ he)
    · have := ch.foreign i hi (by rw [he]; exact Ne.symm hin)
      rw [he] at this
      exact hout this
  refine ⟨wf_moveAway w c hp hk, fun j hj => ?_, fun i j hi hij => ?_, fun j hj hne => ?_⟩
  · obtain rfl | ⟨i, hi, rfl, hki⟩ := keyed_moveAway w c hp hj
    · rw [nodeAt_moveAway_self w c hp _, frame_moveAway.hashSlot, hmain]
    · rw [(nodeAt_moved w c hp _ hi).1, frame_moveAway.hashSlot]
      exact homed_moveAway w c hp (fun _ => id) ch.homed hslot hki
  · have hself := nodeAt_moveAway_self w c hp key
    have hkj : (t.moveAway p n f key).Keyed j := by rw [Keyed, ← hij]; exact hi
    obtain rfl | ⟨a, ha, rfl, hka⟩ := keyed_moveAway w c hp hi <;>
      obtain rfl | ⟨b, hb, rfl, hkb⟩ := keyed_moveAway w c hp hkj
    · rfl
    · rw [hself, (nodeAt_moved w c hp _ hb).1] at hij
      exact absurd hij.symm (hnew b hkb)
    · rw [hself, (nodeAt_moved w c hp _ ha).1] at hij
      exact absurd hij (hnew a hka)
    · rw [(nodeAt_moved w c hp _ ha).1, (nodeAt_moved w c hp _ hb).1] at hij
      rw [ch.unique a b hka hij]
  · rw [frame_moveAway.hashSlot] at hne ⊢
    rw [frame_moveAway.hashSlot]
    obtain rfl | ⟨i, hi, rfl, hki⟩ := keyed_moveAway w c hp hj
    · rw [nodeAt_moveAway_self w c hp _] at hne
      exact absurd hmain hne
    · rw [(nodeAt_moved w c hp _ hi).1] at hne ⊢
      have hocc := c.ne_of_keyed (w.keyed_of_reach (ch.homed i hki) hki)
      have hkey := (nodeAt_moved w c hp key hocc).1
      rw [moved_of_ne (hslot i hki)] at hkey
      rw [hkey]
      by_cases hin : i = n
      · subst hin
        exact ch.foreign i hki hout
      · rw [moved_of_ne hin] at hne
        exact ch.foreign i hki hne

end MoveAway

end LuaTable
end LuajitRs
