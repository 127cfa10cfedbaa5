import LuajitRs.Runtime.Table.Metatable
import LuajitRs.Runtime.Table.Refinement

/-! The sizes and links of a table do not depend on its keys nor on their hashes. They stay well-formed in every
program, also when a string key is freed and its address is reused, when the collector clears entries, and under
keys that the language does not allow, except for the key nil. -/
namespace LuajitRs
open Lib.Chain

namespace LuaTable
variable {h : LuaValue → UInt32} {t t' : LuaTable} {key v : LuaValue} {i n f p s : ℕ}

/-! ### Tables without their keys -/

/-- A node whose key, if it has one, is replaced by a fixed string. -/
def bare (nd : Node) : Node := { nd with key := if nd.key = .nil then .nil else .str 0 }

/-- The table with all keys replaced. -/
def skeleton (t : LuaTable) : LuaTable := { t with node := t.node.map bare }

/-- The sizes and links of the table are well-formed. -/
def Linked (t : LuaTable) : Prop := t.skeleton.Wf

theorem nodeAt_skeleton (t : LuaTable) (i : ℕ) : t.skeleton.nodeAt i = bare (t.nodeAt i) := by
  rw [nodeAt, nodeAt, skeleton, List.getD_eq_getElem?_getD, List.getD_eq_getElem?_getD, List.getElem?_map]
  cases t.node[i]? <;> rfl

theorem nextOf_skeleton (t : LuaTable) : t.skeleton.nextOf = t.nextOf := by
  funext i
  rw [nextOf, nextOf, nodeAt_skeleton]
  rfl

theorem live_skeleton : t.skeleton.Live i ↔ t.Live i := by
  rw [Live, Live, nodeAt_skeleton]
  rfl

theorem keyed_skeleton : t.skeleton.Keyed i ↔ t.Keyed i := by
  rw [Keyed, Keyed, nodeAt_skeleton]
  by_cases hk : (t.nodeAt i).key = .nil <;> simp [bare, hk]

theorem length_skeleton (t : LuaTable) : t.skeleton.node.length = t.node.length := List.length_map ..

namespace Linked

/-- What the links are, about the table itself. -/
theorem of_links (hlen : t.asize = t.array.length) (hle : t.asize ≤ LJ_MAX_ASIZE)
    (hsize : (t.hmask = 0 ∧ t.node = []) ∨
      ∃ b, 0 < b ∧ b ≤ LJ_MAX_HBITS ∧ t.node.length = 2^b ∧ t.hmask = 2^b - 1)
    (htop : t.freetop ≤ t.node.length) (hnext : ∀ i j, t.nextOf i = some j → j < t.node.length)
    (hforest : Forest t.nextOf) (hfresh : ∀ i, ¬ t.Keyed i → Fresh t.nextOf i ∧ ¬ t.Live i)
    (hkeyed : ∀ i, t.freetop ≤ i → i < t.node.length → t.Keyed i) : t.Linked where
  asize_eq := hlen
  asize_le := hle
  size := by
    rw [length_skeleton, ← List.length_eq_zero_iff, length_skeleton, List.length_eq_zero_iff]
    exact hsize
  freetop_le := by rw [length_skeleton]; exact htop
  next_lt := by rw [nextOf_skeleton, length_skeleton]; exact hnext
  forest := by rw [nextOf_skeleton]; exact hforest
  fresh i hi := by
    rw [keyed_skeleton] at hi
    rw [nextOf_skeleton, live_skeleton]
    exact hfresh i hi
  top_keyed i htop hlt := by
    rw [keyed_skeleton]
    exact hkeyed i htop (by rwa [length_skeleton] at hlt)
  valid i hi := by
    rw [Keyed, nodeAt_skeleton, bare] at hi
    rw [nodeAt_skeleton, bare]
    split_ifs at hi ⊢
    · exact absurd rfl hi
    · exact LuaValue.validKey_str 0
  split i _ := by
    rw [nodeAt_skeleton, bare]
    dsimp only
    split_ifs <;> rfl

variable (l : t.Linked)
include l

theorem asize_eq : t.asize = t.array.length := Wf.asize_eq (t := t.skeleton) l
theorem asize_le : t.asize ≤ LJ_MAX_ASIZE := Wf.asize_le (t := t.skeleton) l

theorem size : (t.hmask = 0 ∧ t.node = []) ∨
    ∃ b, 0 < b ∧ b ≤ LJ_MAX_HBITS ∧ t.node.length = 2^b ∧ t.hmask = 2^b - 1 := by
  have hsize := Wf.size l
  rwa [length_skeleton, ← List.length_eq_zero_iff, length_skeleton, List.length_eq_zero_iff] at hsize

theorem next_lt (i j : ℕ) (hij : t.nextOf i = some j) : j < t.node.length :=
  length_skeleton t ▸ Wf.next_lt l i j (by rwa [nextOf_skeleton])

theorem forest : Forest t.nextOf := nextOf_skeleton t ▸ Wf.forest l

theorem fresh (i : ℕ) (hi : ¬ t.Keyed i) : Fresh t.nextOf i ∧ ¬ t.Live i := by
  have hfresh := Wf.fresh l i fun hk => hi (keyed_skeleton.mp hk)
  rwa [nextOf_skeleton, live_skeleton] at hfresh

theorem top_keyed (i : ℕ) (htop : t.freetop ≤ i) (hlt : i < t.node.length) : t.Keyed i :=
  keyed_skeleton.mp (Wf.top_keyed l i htop (by rwa [length_skeleton]))

theorem freetop_le : t.freetop ≤ t.node.length := length_skeleton t ▸ Wf.freetop_le l

theorem freetop_of_hmask : t.hmask = 0 → t.freetop = 0 := LuaTable.freetop_of_hmask (t := t.skeleton) l

theorem hashSlot_lt (hp : t.hasHpart = true) (key : LuaValue) : t.hashSlot h key < t.node.length :=
  length_skeleton t ▸ Wf.hashSlot_lt l h hp key

theorem nodeSlot_eq (hi : i < t.node.length) : t.nodeSlot i = .ok (t.nodeAt i) := by
  have hp : t.hasHpart = true := (Wf.hasHpart_iff l).mpr (by rw [length_skeleton]; omega)
  rw [hasHpart, decide_eq_true_eq] at hp
  rw [nodeSlot, if_pos (Nat.pos_of_ne_zero hp), nodeAt, List.getElem?_eq_getElem hi,
    List.getD_eq_getElem?_getD, List.getElem?_eq_getElem hi]
  rfl

/-- A node that can be read is in the hash part, or the shared empty one. -/
theorem nodeAt_of_nodeSlot {nd : Node} (hs : t.nodeSlot i = .ok nd) : t.nodeAt i = nd := by
  by_cases hi : i < t.node.length
  · rw [l.nodeSlot_eq hi] at hs
    exact Except.ok.inj hs
  · rw [nodeAt_of_ge (by omega)]
    rw [nodeSlot, List.getElem?_eq_none (by omega)] at hs
    split at hs
    · cases hs
    · exact Except.ok.inj hs

theorem findKey (hp : t.hasHpart = true) (key : LuaValue) : ∃ r, t.findKey h key = .ok r ∧
    FirstMatch t.nextOf (t.holds key) (t.hashSlot h key) r :=
  findKey_linked (fun _ => l.nodeSlot_eq) l.next_lt l.forest (l.hashSlot_lt hp key)

end Linked

/-- The links of a well-formed table. -/
theorem Wf.linked (w : t.Wf) : t.Linked :=
  .of_links w.asize_eq w.asize_le w.size w.freetop_le w.next_lt w.forest w.fresh w.top_keyed

theorem map_modify_bare (l : List Node) (i : ℕ) (g g' : Node → Node) (hg : ∀ nd, bare (g nd) = g' (bare nd)) :
    (l.modify i g).map bare = (l.map bare).modify i g' := by
  apply List.ext_getElem?
  intro j
  rw [List.getElem?_map, List.getElem?_modify, List.getElem?_modify, List.getElem?_map]
  cases l[j]? with
  | none => rfl
  | some nd => by_cases hij : i = j <;> simp [hij, hg]

theorem skeleton_takeMain (hk : key ≠ .nil) (n : ℕ) :
    (t.takeMain n key).skeleton = t.skeleton.takeMain n (.str 0) := by
  rw [takeMain, skeleton, map_modify_bare _ n _ (fun nd => { nd with key := .str 0 }) (fun nd => by simp [bare, hk])]
  rfl

theorem skeleton_linkAfter (hk : key ≠ .nil) (n f : ℕ) :
    (t.linkAfter n f key).skeleton = t.skeleton.linkAfter n f (.str 0) := by
  rw [linkAfter, linkAfter, skeleton, nodeAt_skeleton,
    map_modify_bare _ f _ (fun nd => { nd with key := .str 0 }) (fun nd => by simp [bare, hk]),
    map_modify_bare _ n _ (fun nd => { nd with next := f }) (fun _ => rfl),
    map_modify_bare _ f _ (fun nd => { nd with next := (bare (t.nodeAt n)).next }) (fun _ => rfl)]
  rfl

theorem skeleton_moveAway (hk : key ≠ .nil) (p n f : ℕ) :
    (t.moveAway p n f key).skeleton = t.skeleton.moveAway p n f (.str 0) := by
  rw [moveAway, moveAway, skeleton, nodeAt_skeleton,
    map_modify_bare _ n _ (fun _ => ⟨.nil, .str 0, NIL_NODE⟩) (fun nd => by simp [bare, hk]),
    map_modify_bare _ f _ (fun _ => bare (t.nodeAt n)) (fun _ => rfl),
    map_modify_bare _ p _ (fun nd => { nd with next := f }) (fun _ => rfl)]
  rfl

theorem skeleton_storeVal (s : ℕ) (v : LuaValue) : (t.storeVal s v).skeleton = t.skeleton.storeVal s v := by
  rw [storeVal, skeleton, map_modify_bare _ s _ (fun nd => { nd with val := v }) (fun _ => rfl)]
  rfl

theorem skeleton_emptied (asize hbits : ℕ) : (t.emptied asize hbits).skeleton = t.skeleton.emptied asize hbits := by
  rw [emptied, emptied, skeleton]
  dsimp only
  congr 1
  split_ifs
  · rfl
  · exact List.map_replicate

/-! ### Insertion -/

theorem Collision.skeleton (c : t.Collision n f) : t.skeleton.Collision n f where
  live := live_skeleton.mpr c.live
  unused := fun hk => c.unused (keyed_skeleton.mp hk)
  lt := c.lt
  above i hi hlt := keyed_skeleton.mpr (c.above i hi hlt)

/-- The predecessor walk ends at a predecessor, if it ends. -/
theorem findPred_ok (l : t.Linked) (hn : n ≠ NIL_NODE) (fuel a : ℕ) (hp : t.findPred n fuel a = .ok p) :
    t.nextOf p = some n := by
  induction fuel generalizing a with
  | zero => cases hp
  | succ fuel ih =>
    rw [findPred] at hp
    obtain ⟨nd, hnd, hp⟩ := bind_ok hp
    split at hp
    · next he =>
      cases hp
      exact nextOf_eq_some.mpr ⟨by rw [l.nodeAt_of_nodeSlot hnd, he], hn⟩
    · exact ih _ hp

/-- The chain walk returns a node that has the key. -/
theorem nodeSlot_of_walk (fuel i : ℕ) (hw : t.walk key fuel i = .ok (some n)) :
    ∃ nd, t.nodeSlot n = .ok nd ∧ nd.key = key := by
  induction fuel generalizing i with
  | zero => cases hw
  | succ fuel ih =>
    rw [LuaTable.walk] at hw
    obtain ⟨nd, hnd, hw⟩ := bind_ok hw
    split at hw
    · next hk =>
      cases hw
      exact ⟨nd, hnd, hk⟩
    · split at hw
      · cases hw
      · exact ih _ hw

theorem walk_ok (l : t.Linked) (fuel a : ℕ) (hw : t.walk key fuel a = .ok (some n)) : (t.nodeAt n).key = key := by
  obtain ⟨nd, hnd, hkey⟩ := nodeSlot_of_walk fuel a hw
  rw [l.nodeAt_of_nodeSlot hnd, hkey]

theorem nodeSlot_skeleton (t : LuaTable) (i : ℕ) : t.skeleton.nodeSlot i = (t.nodeSlot i).map bare := by
  rw [nodeSlot, nodeSlot, skeleton]
  dsimp only
  rw [List.getElem?_map]
  split_ifs
  · cases t.node[i]? <;> rfl
  · rfl

theorem findFree_skeleton (t : LuaTable) (k : ℕ) : t.skeleton.findFree k = t.findFree k := by
  induction k with
  | zero => rfl
  | succ k ih =>
    rw [findFree, findFree, nodeSlot_skeleton, ih]
    cases t.nodeSlot k with
    | error e => rfl
    | ok nd =>
      have hnil : (bare nd).key.isNil = nd.key.isNil := by
        by_cases hk : nd.key = .nil <;> simp [bare, LuaValue.isNil, hk]
      simp only [Except.map, bind, Except.bind, hnil]

/-- The scan for a free node finds an unused one, next to a live main position. -/
theorem Linked.collision (l : t.Linked) (hlive : t.Live n) (hf : t.findFree t.freetop = .ok (some f)) :
    t.Collision n f := by
  obtain ⟨f', hf', hlt, hfree, habove⟩ | ⟨hnone, -⟩ := findFree_spec l t.freetop (Wf.freetop_le l)
  · rw [findFree_skeleton, hf] at hf'
    cases hf'
    exact ⟨hlive, fun hk => hfree (keyed_skeleton.mpr hk), hlt, fun i hi hit => keyed_skeleton.mp (habove i hi hit)⟩
  · rw [findFree_skeleton, hf] at hnone
    cases hnone

theorem linked_takeMain (l : t.Linked) (hn : n < t.node.length) (hdead : ¬ t.Live n) (hk : key ≠ .nil) :
    (t.takeMain n key).Linked := by
  rw [Linked, skeleton_takeMain hk]
  exact wf_takeMain l (by rwa [length_skeleton]) (fun hl => hdead (live_skeleton.mp hl)) (LuaValue.validKey_str 0)

theorem linked_linkAfter (l : t.Linked) (c : t.Collision n f) (hk : key ≠ .nil) : (t.linkAfter n f key).Linked := by
  rw [Linked, skeleton_linkAfter hk]
  exact wf_linkAfter l c.skeleton (LuaValue.validKey_str 0)

theorem linked_moveAway (l : t.Linked) (c : t.Collision n f) (hp : t.nextOf p = some n) (hk : key ≠ .nil) :
    (t.moveAway p n f key).Linked := by
  rw [Linked, skeleton_moveAway hk]
  exact wf_moveAway l c.skeleton (by rwa [nextOf_skeleton]) (LuaValue.validKey_str 0)

theorem linked_storeVal (l : t.Linked) (hs : t.Keyed s) (v : LuaValue) : (t.storeVal s v).Linked := by
  rw [Linked, skeleton_storeVal]
  refine wf_storeVal l (keyed_skeleton.mpr hs) ?_
  rw [nodeAt_skeleton, bare, if_neg hs]
  rfl

theorem linked_setVal (l : t.Linked) (hs : t.Keyed s) (hv : t.setVal s v = .ok t') : t'.Linked := by
  rw [setVal_eq (lt_of_keyed hs)] at hv
  cases hv
  exact linked_storeVal l hs v

theorem linked_setArray (l : t.Linked) (hv : t.setArray i v = .ok t') : t'.Linked := by
  rw [setArray] at hv
  split at hv
  · cases hv
    exact wf_storeArray l i
  · cases hv

theorem linked_nomm (l : t.Linked) (m : ℕ) : Linked { t with nomm := m } := wf_nomm l m

theorem normalizeKey_ne_nil (hk : key ≠ .nil) : key.normalizeKey ≠ .nil := by
  cases key with
  | nil => exact absurd rfl hk
  | _ => exact fun hn => nomatch hn

theorem keyed_of_key (hs : (t.nodeAt s).key = key) (hk : key ≠ .nil) : t.Keyed s := by
  rw [Keyed, hs]
  exact hk

/-- A collision makes room for the key, if the predecessor walk of a displacement ends. -/
theorem linked_collide (l : t.Linked) (c : t.Collision n f) (hk : key ≠ .nil) {r : Option ℕ}
    (hc : (t.touch f).collide h key n (t.nodeAt n) f = .ok (t', r)) :
    t'.Linked ∧ ∀ s, r = some s → t'.Keyed s := by
  have hkn := normalizeKey_ne_nil hk
  have hn := lt_of_keyed (keyed_skeleton.mp (Wf.keyed_of_live l (live_skeleton.mpr c.live)))
  have hf : f < t.node.length := length_skeleton t ▸ c.skeleton.f_lt l
  by_cases hown : t.hashSlot h (t.nodeAt n).key = n
  · rw [collide_link hn hf hown] at hc
    cases hc
    refine ⟨linked_linkAfter l c hkn, fun s hs => ?_⟩
    cases hs
    refine keyed_of_key ?_ hkn
    rw [nodeAt_linkAfter hn hf (c.skeleton.ne l), if_pos rfl]
  · obtain ⟨p, hp⟩ : ∃ p, t.findPred n (t.node.length + 1) (t.hashSlot h (t.nodeAt n).key) = .ok p := by
      rw [collide, hashSlot_touch, if_pos hown] at hc
      obtain ⟨p, hp, -⟩ := bind_ok hc
      exact ⟨p, findPred_touch _ _ ▸ hp⟩
    have hpn := findPred_ok l (ne_of_lt (hn.trans (length_skeleton t ▸ Wf.length_lt l))) _ _ hp
    rw [collide_move hn hf hown (lt_of_nextOf hpn) hp] at hc
    cases hc
    refine ⟨linked_moveAway l c hpn hkn, fun s hs => ?_⟩
    cases hs
    refine keyed_of_key ?_ hkn
    rw [nodeAt_moveAway (lt_of_nextOf hpn) hn hf, if_pos rfl]

theorem key_of_movedEntries (l : t.Linked) (a : ℕ) {e : LuaValue × LuaValue} (he : e ∈ t.movedEntries a) :
    e.1 ≠ .nil := by
  obtain hd | hh := List.mem_append.mp he
  · obtain ⟨-, i, -, -, hkey, -⟩ := (mem_dropped (t := t.skeleton) l).mp hd
    rw [hkey]
    exact fun hn => nomatch hn
  · rw [hashEntries] at hh
    split at hh
    · obtain ⟨nd, hnd, hx⟩ := List.mem_filterMap.mp hh
      split at hx
      · cases hx
      · next hv =>
        cases hx
        obtain ⟨i, hi, rfl⟩ := List.getElem_of_mem hnd
        have hat : t.nodeAt i = t.node[i] := by
          rw [nodeAt, List.getD_eq_getElem?_getD, List.getElem?_eq_getElem hi]
          rfl
        have hlive : t.Live i := fun hnil => hv (decide_eq_true (hat ▸ hnil))
        exact hat ▸ keyed_skeleton.mp (Wf.keyed_of_live l (live_skeleton.mpr hlive))
    · cases hh

/-- A setter that keeps the links, for the keys that are not nil. -/
def KeepsLinks (setf : Setter) : Prop :=
  ∀ (t : LuaTable) (key v : LuaValue) (t' : LuaTable), t.Linked → key ≠ .nil → setf t key v = .ok t' → t'.Linked

section Setter
variable {setf : Setter} (hset : KeepsLinks setf)
include hset

theorem linked_setAll (es : List (LuaValue × LuaValue)) (l : t.Linked) (hes : ∀ e ∈ es, e.1 ≠ .nil)
    (hs : setAll setf t es = .ok t') : t'.Linked := by
  induction es generalizing t with
  | nil => cases hs; exact l
  | cons e es ih =>
    rw [setAll, List.foldlM_cons] at hs
    obtain ⟨t₁, ht₁, hs⟩ := bind_ok hs
    exact ih (hset t e.1 e.2 t₁ l (hes e List.mem_cons_self) ht₁) (fun e' he' => hes e' (List.mem_cons_of_mem _ he')) hs

theorem linked_resizeWith {asize hbits : ℕ} (l : t.Linked) (hs : t.resizeWith setf asize hbits = .ok t') :
    t'.Linked := by
  by_cases hover : LJ_MAX_ASIZE < asize ∨ LJ_MAX_HBITS < hbits
  · rw [resizeWith_overflow setf hover] at hs
    cases hs
  · push Not at hover
    rw [resizeWith_sized l.asize_eq l.freetop_of_hmask setf hover.1 hover.2] at hs
    refine linked_setAll hset _ ?_ (fun e => key_of_movedEntries l asize) hs
    rw [Linked, skeleton_emptied]
    exact (chained_emptied (h := fun _ => 0) hover.1 hover.2).toWf

theorem linked_rehashWith (l : t.Linked) (hs : t.rehashWith setf key = .ok t') : t'.Linked := by
  rw [rehashWith] at hs
  obtain ⟨p, -, hs⟩ := bind_ok hs
  exact linked_resizeWith hset l hs

theorem linked_tryNewKey (l : t.Linked) (hk : key ≠ .nil) {r : Option ℕ}
    (hs : t.tryNewKey h setf key = .ok (t', r)) : t'.Linked ∧ ∀ s, r = some s → t'.Keyed s := by
  have hrehash : ∀ x : Except Fault (LuaTable × Option ℕ), (do
      let t' ← (t.touch t.freetop).rehashWith setf key
      pure (t', none)) = x → x = .ok (t', r) → t'.Linked ∧ ∀ s, r = some s → t'.Keyed s := by
    intro x hx hok
    obtain ⟨t₁, ht₁, hok⟩ := bind_ok (hx.trans hok)
    cases hok
    exact ⟨linked_rehashWith hset (linked_nomm l 0) ht₁, fun s hs => nomatch hs⟩
  cases hp : t.hasHpart with
  | false => exact hrehash _ (tryNewKey_no_hpart hp).symm hs
  | true =>
    have hn := l.hashSlot_lt (h := h) hp key
    have hkn := normalizeKey_ne_nil hk
    rw [tryNewKey_eq hp (l.nodeSlot_eq hn)] at hs
    split at hs
    · next hdead =>
      have hset : (t.touch t.freetop).setKey (t.hashSlot h key) key.normalizeKey =
          .ok (t.takeMain (t.hashSlot h key) key.normalizeKey) := modifyNode_eq _ hn
      rw [hset] at hs
      cases hs
      refine ⟨linked_takeMain l hn (not_not.mpr (of_decide_eq_true hdead)) hkn, fun s hs => ?_⟩
      cases hs
      refine keyed_of_key ?_ hkn
      rw [nodeAt_takeMain hn, if_pos rfl]
    · next hlive =>
      obtain ⟨free, hfree, hs⟩ := bind_ok hs
      cases free with
      | none => exact hrehash _ rfl hs
      | some free => exact linked_collide l (l.collision (fun hn => hlive (decide_eq_true hn)) hfree) hk hs

theorem linked_setTurn (l : t.Linked) (hk : key ≠ .nil) (hs : t.setTurn h setf key v = .ok t') : t'.Linked := by
  obtain ⟨i, hs⟩ | ⟨n, hfound, hs⟩ | ⟨t₁, slot, hnew, hs⟩ | ⟨t₁, hnew, hs⟩ := setTurn_inv hs
  · exact linked_setArray l hs
  · exact linked_setVal l (keyed_of_key (walk_ok l _ _ hfound) hk) hs
  · obtain ⟨l₁, hkeyed⟩ := linked_tryNewKey hset l hk hnew
    exact linked_setVal l₁ (hkeyed slot rfl) hs
  · exact hset t₁ key v t' (linked_tryNewKey hset l hk hnew).1 hk hs

end Setter

theorem keepsLinks_setD (h : LuaValue → UInt32) (d : ℕ) : KeepsLinks (setD h d) := by
  induction d with
  | zero =>
    intro t key v t' _ _ hs
    cases hs
  | succ d ih =>
    intro t key v t' l hk hs
    refine linked_setTurn ih (t := t.clearNomm key) ?_ hk hs
    rw [clearNomm]
    split_ifs
    · exact linked_nomm l 0
    · exact l

/-! ### The tables of a program -/

/-- The entries of a weak table that `may_clear` lets go, as a predicate on values and their side. -/
def clearWeakEntries (t : LuaTable) (weakkey weakval : Bool) (mayClear : LuaValue → Bool → Bool) : LuaTable :=
  { t with
    array := if weakval then t.array.map fun tv => if mayClear tv true then .nil else tv else t.array
    node := if weakkey || weakval then t.node.map fun n =>
        if n.val.isNil then n
        else if mayClear n.key false || mayClear n.val true then { n with val := .nil } else n
      else t.node }

/-- Duplicate a template table, with nil for the values that are tables. -/
def dup (t : LuaTable) : LuaTable where
  array := t.array.map fun v => if v.isTable then .nil else v
  node := (if 0 < t.hmask then t.node else []).map fun nd => if nd.val.isTable then { nd with val := .nil } else nd
  metatable := none
  asize := t.asize
  hmask := t.hmask
  freetop := t.freetop
  nomm := 0

/-- The tables of a program that sets keys of a kind `ok`. The hash of a step and the depth of its rehashes are
arbitrary: the strings of the program come and go between the steps. -/
inductive Reached (ok : LuaValue → Prop) : LuaTable → Prop
  | new {asize hbits : ℕ} {t : LuaTable} : LuaTable.new asize hbits = .ok t → Reached ok t
  | set {h : LuaValue → UInt32} {d : ℕ} {key v : LuaValue} {t t' : LuaTable} : Reached ok t → ok key →
      setD h d t key v = .ok t' → Reached ok t'
  | setArray {i : ℕ} {v : LuaValue} {t t' : LuaTable} : Reached ok t → t.setArray i v = .ok t' → Reached ok t'
  | resize {h : LuaValue → UInt32} {d asize hbits : ℕ} {t t' : LuaTable} : Reached ok t →
      resizeWith (setD h d) t asize hbits = .ok t' → Reached ok t'
  | header {t : LuaTable} (metatable : Option ℕ) (nomm : ℕ) : Reached ok t →
      Reached ok { t with metatable := metatable, nomm := nomm }
  | clearWeakEntries {t : LuaTable} (weakkey weakval : Bool) (mayClear : LuaValue → Bool → Bool) : Reached ok t →
      Reached ok (t.clearWeakEntries weakkey weakval mayClear)
  | dup {t : LuaTable} : Reached ok t → Reached ok t.dup

/-- Changing values, but not from nil, keeps the links. -/
theorem linked_map (l : t.Linked) {array : List LuaValue} (hlen : array.length = t.array.length) (g : Node → Node)
    (hkey : ∀ nd, (g nd).key = nd.key) (hnext : ∀ nd, (g nd).next = nd.next)
    (hval : ∀ nd, nd.val = .nil → (g nd).val = .nil) (m : Option ℕ) (n : ℕ) :
    Linked { t with array := array, node := t.node.map g, metatable := m, nomm := n } := by
  obtain ⟨s, hs⟩ : ∃ s : LuaTable, s = { t with array := array, node := t.node.map g, metatable := m, nomm := n } :=
    ⟨_, rfl⟩
  have hempty : g .EMPTY = .EMPTY := by
    have h₁ := hval .EMPTY rfl
    have h₂ := hkey .EMPTY
    have h₃ := hnext .EMPTY
    cases hg : g .EMPTY
    rw [hg] at h₁ h₂ h₃
    dsimp only at h₁ h₂ h₃
    rw [h₁, h₂, h₃]
    rfl
  have hnode : ∀ i, s.nodeAt i = g (t.nodeAt i) := by
    intro i
    rw [hs, nodeAt, nodeAt, List.getD_eq_getElem?_getD, List.getD_eq_getElem?_getD, List.getElem?_map]
    cases t.node[i]? with
    | none => exact hempty.symm
    | some nd => rfl
  have hlength : s.node.length = t.node.length := by rw [hs]; exact List.length_map ..
  have hnextOf : s.nextOf = t.nextOf := by
    funext i
    rw [nextOf, nextOf, hnode, hnext]
  have hkeyed : ∀ i, s.Keyed i ↔ t.Keyed i := fun i => by rw [Keyed, Keyed, hnode, hkey]
  have hlive : ∀ i, s.Live i → t.Live i := fun i hi hn => hi (by rw [hnode]; exact hval _ hn)
  rw [← hs]
  refine .of_links (by rw [hs]; exact l.asize_eq.trans hlen.symm) (by rw [hs]; exact l.asize_le) ?_ ?_ ?_ ?_ ?_ ?_
  · rw [hlength, ← List.length_eq_zero_iff, hlength, List.length_eq_zero_iff, hs]
    exact l.size
  · rw [hlength, hs]
    exact l.freetop_le
  · rw [hnextOf, hlength]
    exact l.next_lt
  · rw [hnextOf]
    exact l.forest
  · intro i hi
    rw [hkeyed] at hi
    rw [hnextOf]
    exact ⟨(l.fresh i hi).1, fun hl => (l.fresh i hi).2 (hlive i hl)⟩
  · intro i htop hlt
    rw [hkeyed]
    exact l.top_keyed i (by rw [hs] at htop; exact htop) (by rwa [hlength] at hlt)

theorem linked_clearWeakEntries (l : t.Linked) (weakkey weakval : Bool) (mayClear : LuaValue → Bool → Bool) :
    (t.clearWeakEntries weakkey weakval mayClear).Linked := by
  have hlen : (if weakval then t.array.map fun tv => if mayClear tv true then .nil else tv else t.array).length =
      t.array.length := by
    split_ifs
    · exact List.length_map ..
    · rfl
  cases hw : weakkey || weakval with
  | false =>
    rw [clearWeakEntries, hw]
    exact .of_links (l.asize_eq.trans hlen.symm) l.asize_le l.size l.freetop_le l.next_lt l.forest l.fresh l.top_keyed
  | true =>
    rw [clearWeakEntries, hw]
    refine linked_map l hlen _ (fun nd => ?_) (fun nd => ?_) (fun nd hnd => ?_) t.metatable t.nomm
    · split_ifs <;> rfl
    · split_ifs <;> rfl
    · have hnil : nd.val.isNil = true := decide_eq_true hnd
      rw [if_pos hnil, hnd]

theorem linked_dup (l : t.Linked) : t.dup.Linked := by
  have hnode : (if 0 < t.hmask then t.node else []) = t.node := by
    obtain ⟨hm, hn⟩ | ⟨b, hb, -, -, hm⟩ := l.size
    · rw [if_neg (by omega), hn]
    · have hpow : 2^1 ≤ 2^b := Nat.pow_le_pow_right (by norm_num) hb
      rw [if_pos (by omega)]
  rw [dup, hnode]
  refine linked_map l (List.length_map ..) _ (fun nd => ?_) (fun nd => ?_) (fun nd hnd => ?_) none 0
  · split_ifs <;> rfl
  · split_ifs <;> rfl
  · split_ifs
    · rfl
    · exact hnd

theorem Reached.linked (hr : Reached (· ≠ .nil) t) : t.Linked := by
  induction hr with
  | @new asize hbits t hnew =>
    have hspec := new_spec (h := fun _ => 0) asize hbits
    rw [hnew] at hspec
    exact hspec.1.toWf.linked
  | set _ hk hset ih => exact keepsLinks_setD _ _ _ _ _ _ ih hk hset
  | setArray _ hset ih => exact linked_setArray ih hset
  | resize _ hres ih => exact linked_resizeWith (keepsLinks_setD _ _) ih hres
  | header metatable nomm _ ih =>
    exact .of_links ih.asize_eq ih.asize_le ih.size ih.freetop_le ih.next_lt ih.forest ih.fresh ih.top_keyed
  | clearWeakEntries weakkey weakval mayClear _ ih => exact linked_clearWeakEntries ih weakkey weakval mayClear
  | dup _ ih => exact linked_dup ih

end LuaTable
end LuajitRs
