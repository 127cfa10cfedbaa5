import LuajitRs.Runtime.Table.Traversal

/-! The traversal law for runs that interleave `next` with stores to existing fields. A store that
overwrites a value in place moves no key, so the position of the traversal only grows; `set_int` of
the key just past the array part rebuilds the table instead, even when the key is already stored. -/
namespace LuajitRs
open Lib.Chain Relation

namespace LuaTable
variable {h : LuaValue → UInt32} {t t' : LuaTable} {k v key : LuaValue} {p q : ℕ}

/-! ### Positions of keys -/

/-- The key `k` sits at position `p`, with or without a value. -/
def At (t : LuaTable) (k : LuaValue) (p : ℕ) : Prop :=
  (t.entryAt p).1 = k ∧ (p < t.asize ∨ t.asize ≤ p ∧ t.Keyed (p - t.asize) ∧ t.arrayIdx k = none)

theorem At.lt_size (ha : t.At k p) : p < t.size := by
  unfold size
  obtain ⟨_, hp | ⟨hp, hk, _⟩⟩ := ha
  · omega
  · have := lt_of_keyed hk
    omega

theorem at_array (hp : p < t.asize) : t.At (.ofInt p) p := ⟨by rw [entryAt, if_pos hp], .inl hp⟩

theorem At.array_iff (w : t.Wf) (ha : t.At k p) : p < t.asize ↔ t.arrayIdx k = some p := by
  obtain ⟨hk, hp | ⟨hp, _, hidx⟩⟩ := ha
  · rw [entryAt, if_pos hp] at hk
    subst hk
    simp [hp, arrayIdx_ofInt w hp]
  · simp [hidx, Nat.not_lt.mpr hp]

theorem At.node (ha : t.At k p) (hp : t.asize ≤ p) : (t.nodeAt (p - t.asize)).key = k := by
  have := ha.1
  rwa [entryAt, if_neg (by omega)] at this

theorem At.unique (ch : t.Chained h) (ha : t.At k p) (hb : t.At k q) : p = q := by
  have hp := ha.array_iff ch.toWf
  have hq := hb.array_iff ch.toWf
  by_cases hlt : p < t.asize
  · have hidx := hp.mp hlt
    obtain ⟨_, hq' | ⟨_, _, hnone⟩⟩ := hb
    · have := hq.mp hq'
      rw [hidx] at this
      exact Option.some.inj this
    · rw [hidx] at hnone
      cases hnone
  · obtain ⟨_, hp' | ⟨hp', hkp, hnone⟩⟩ := id ha
    · exact absurd hp' hlt
    · have hq' : t.asize ≤ q := by
        by_contra hq'
        have := hq.mp (by omega)
        rw [hnone] at this
        cases this
      have := ch.unique _ _ hkp ((ha.node hp').trans (hb.node hq').symm)
      omega

theorem At.value_eq (ch : t.Chained h) (ha : t.At k p) : t.value k = (t.entryAt p).2 := by
  by_cases hp : p < t.asize
  · rw [value_of_arrayIdx ((ha.array_iff ch.toWf).mp hp), entryAt, if_pos hp]
  · obtain ⟨_, hp' | ⟨hp', hkp, hnone⟩⟩ := id ha
    · exact absurd hp' hp
    have hkey := ha.node hp'
    rw [value_of_hash hnone, entryAt, if_neg hp]
    refine hashVal_eq_of_entry ch.toWf ch.findable fun u => ⟨?_, ?_⟩
    · rintro ⟨hu, i, hik, hiu⟩
      have := ch.unique _ i hkp (hkey.trans hik.symm)
      rw [this]
      exact ⟨hu, hiu.symm⟩
    · rintro ⟨hu, rfl⟩
      exact ⟨hu, _, hkey, rfl⟩

/-- An entry with a value is the position of its key. -/
theorem at_of_entry (w : t.Wf) (hv : (t.entryAt p).2 ≠ .nil) : t.At (t.entryAt p).1 p := by
  by_cases hlt : p < t.asize
  · exact ⟨rfl, .inl hlt⟩
  · rw [entryAt, if_neg hlt] at hv ⊢
    exact ⟨by rw [entryAt, if_neg hlt], .inr ⟨by omega, w.keyed_of_live hv, w.split _ hv⟩⟩

/-- Every stored key has a position. -/
theorem exists_at (ch : t.Chained h) (hk : k.Normal) (hv : t.value k ≠ .nil) : ∃ p, t.At k p := by
  cases hidx : t.arrayIdx k with
  | some i =>
    rw [eq_ofInt_of_arrayIdx hk hidx]
    exact ⟨i, at_array (arrayIdx_eq_some.mp hidx).2⟩
  | none =>
    rw [value_of_hash hidx] at hv
    obtain ⟨_, i, hi, hiv⟩ := (entry_iff ch.toWf ch.findable).mpr ⟨hv, rfl⟩
    have hl : t.Live i := by rw [Live, hiv]; exact hv
    refine ⟨t.asize + i, by simp [entryAt, hi], .inr ⟨by omega, ?_, hidx⟩⟩
    rw [Nat.add_sub_cancel_left]
    exact ch.toWf.keyed_of_live hl

theorem At.ne_nil (w : t.Wf) (ha : t.At k p) : k ≠ .nil := by
  obtain ⟨hk, hp | ⟨_, hkp, _⟩⟩ := id ha
  · rw [entryAt, if_pos hp] at hk
    rw [← hk, LuaValue.ofInt_eq (by have := w.asize_le; have : LJ_MAX_ASIZE = 134217729 := rfl; omega)]
    simp
  · have := ha.1
    rintro rfl
    by_cases hlt : p < t.asize
    · rw [entryAt, if_pos hlt,
        LuaValue.ofInt_eq (by have := w.asize_le; have : LJ_MAX_ASIZE = 134217729 := rfl; omega)] at this
      cases this
    · rw [entryAt, if_neg hlt] at this
      exact hkp this

/-- A key with a position is mapped to the position behind its own. -/
theorem keyIndex_at (ch : t.Chained h) (ha : t.At k p) : t.keyIndex h k = .ok (some (p + 1)) := by
  have hnil : k.isNil = false := decide_eq_false (ha.ne_nil ch.toWf)
  rw [keyIndex, hnil]
  by_cases hp : p < t.asize
  · rw [(ha.array_iff ch.toWf).mp hp]
    rfl
  · obtain ⟨_, hp' | ⟨hp', hkp, hnone⟩⟩ := id ha
    · exact absurd hp' hp
    have hpart := ch.toWf.hasHpart_iff.mpr (by have := lt_of_keyed hkp; omega)
    have hkey := ha.node hp'
    obtain ⟨r, hr, hm⟩ := findKey_spec ch.toWf h hpart k
    rw [hnone]
    simp only [hpart, hr, bind, Except.bind, if_true, Bool.false_eq_true, if_false]
    cases r with
    | none =>
      have := ch.homed _ hkp
      rw [hkey] at this
      exact absurd (decide_eq_true hkey) (hm _ this)
    | some n =>
      have := ch.unique _ n hkp (hkey.trans (of_decide_eq_true hm.2.1).symm)
      exact congrArg (fun x => Except.ok (some x)) (by omega)

/-! ### Stores in place -/

/-- The keys and links of two tables agree; their values may differ. -/
structure SameKeys (t t' : LuaTable) : Prop where
  asize : t'.asize = t.asize
  length : t'.node.length = t.node.length
  key : ∀ i, (t'.nodeAt i).key = (t.nodeAt i).key

namespace SameKeys
variable (s : SameKeys t t')
include s

theorem size : t'.size = t.size := by rw [LuaTable.size, LuaTable.size, s.asize, s.length]

theorem entry_fst (p : ℕ) : (t'.entryAt p).1 = (t.entryAt p).1 := by
  unfold entryAt
  rw [s.asize]
  split_ifs
  · rfl
  · exact s.key _

theorem at_iff : t'.At k p ↔ t.At k p := by
  have hidx : t'.arrayIdx k = t.arrayIdx k := by rw [arrayIdx, arrayIdx, s.asize]
  rw [At, At, s.entry_fst, hidx, s.asize, Keyed, Keyed, s.key]

end SameKeys

theorem sameKeys_storeArray {i : ℕ} : SameKeys t (t.storeArray i v) := ⟨rfl, rfl, fun _ => rfl⟩

theorem sameKeys_storeVal {i : ℕ} (hi : i < t.node.length) : SameKeys t (t.storeVal i v) :=
  ⟨rfl, frame_storeVal.length, key_storeVal hi⟩

/-- `set` overwrites the value of a stored key where it is. -/
theorem setTurn_existing {setf : Setter} (w : t.Wf) (fd : t.Findable h) (hv : t.value key ≠ .nil) :
    ∃ t', t.setTurn h setf key v = .ok t' ∧ SameKeys t t' := by
  unfold setTurn
  cases hidx : t.arrayIdx key with
  | some i =>
    have hi : i < t.array.length := w.asize_eq ▸ (arrayIdx_eq_some.mp hidx).2
    exact ⟨t.storeArray i v, by simp [setArray, hi, storeArray], sameKeys_storeArray⟩
  | none =>
    rw [value_of_hash hidx] at hv
    obtain ⟨_, j, hj, hjv⟩ := (entry_iff w fd).mpr ⟨hv, rfl⟩
    have hl : t.Live j := by rw [Live, hjv]; exact hv
    have hp := w.hasHpart_iff.mpr (by have := lt_of_keyed (w.keyed_of_live hl); omega)
    obtain ⟨r, hr, hm⟩ := findKey_spec w h hp key
    simp only [hp, if_true, hr, bind, Except.bind]
    cases r with
    | none => exact absurd (decide_eq_true hj) (hm j (hj ▸ fd.homed j hl))
    | some n =>
      have hn := w.reach_lt (w.hashSlot_lt h hp key) hm.1
      exact ⟨_, setVal_eq hn, sameKeys_storeVal hn⟩

theorem set_existing (w : t.Wf) (fd : t.Findable h) (hv : t.value key ≠ .nil) :
    ∃ t', t.set h key v = .ok t' ∧ SameKeys t t' := by
  obtain ⟨m, hm⟩ := clearNomm_eq t key
  obtain ⟨t', heq, s⟩ := setTurn_existing (t := { t with nomm := m }) (v := v) (wf_nomm w m)
    ⟨fd.homed, fd.first⟩ hv
  exact ⟨t', by rw [set, setDepth, setD, hm]; exact heq, s.asize, s.length, s.key⟩

end LuaTable

namespace TableOp

/-- A store to a field that the table has. -/
def Existing (t : LuaTable) (op : TableOp) : Prop := ∃ k, op.storeKey = some k ∧ t.value k ≠ .nil

/-- Not the store that grows the array part: `set_int` of a non-nil value at the key just past it. -/
def InPlace (t : LuaTable) : TableOp → Prop
  | setInt k v => ¬ t.Tops k.toInt v
  | _ => True

end TableOp

namespace LuaTable
variable {h : LuaValue → UInt32} {t t' : LuaTable} {k v key : LuaValue} {p q : ℕ}

theorem step_inPlace (ch : t.Chained h) {op : TableOp} (hex : op.Existing t) (hin : op.InPlace t) :
    ∃ t', t.step h op = .ok t' ∧ SameKeys t t' := by
  obtain ⟨k, hk, hv⟩ := hex
  cases op with
  | set key v =>
    obtain rfl : key.1 = k := Option.some.inj hk
    exact set_existing ch.toWf ch.findable hv
  | setStr key v =>
    obtain rfl : key.1 = k := Option.some.inj hk
    rw [step, setStr_eq key.2.2]
    exact set_existing ch.toWf ch.findable hv
  | setInt n v =>
    obtain rfl : LuaValue.ofInt n.toInt = k := Option.some.inj hk
    rw [step, setInt]
    split_ifs with harr htop
    · refine ⟨t.storeArray n.toInt.toNat v, ?_, sameKeys_storeArray⟩
      rw [setArray, if_pos (by rw [← ch.asize_eq]; exact harr.2), storeArray]
    · obtain ⟨hpos, hlt, hne, htop⟩ := htop
      exact absurd ⟨hpos, hlt, by simpa [LuaValue.isNil] using hne, htop⟩ hin
    · exact set_existing ch.toWf ch.findable hv
  | resize _ _ => cases hk
  | reasize _ => cases hk
  | rehash _ => cases hk

/-! ### Traversals -/

/-- A traversal under way: the table, the key returned last, what was returned, and the keys that
have had a value throughout. -/
structure Traversal where
  table : LuaTable
  key : LuaValue
  out : List (LuaValue × LuaValue)
  kept : Set LuaValue

def Traversal.start (t : LuaTable) : Traversal := ⟨t, .nil, [], { k | k.Normal ∧ t.value k ≠ .nil }⟩

/-- A step of the program: a call of `next` on the key returned last, or a store to an existing
field that satisfies `C`. -/
inductive TraversalStep (h : LuaValue → UInt32) (C : LuaTable → TableOp → Prop) : Traversal → Traversal → Prop
  | next {s k v} (hn : s.table.next h s.key = .ok (some (k, v))) :
      TraversalStep h C s ⟨s.table, k, s.out ++ [(k, v)], s.kept⟩
  | store {s op t'} (hex : op.Existing s.table) (hc : C s.table op) (ht : s.table.step h op = .ok t') :
      TraversalStep h C s ⟨t', s.key, s.out, s.kept ∩ { k | t'.value k ≠ .nil }⟩

/-- The states that a traversal of `t` reaches. -/
def Traverses (h : LuaValue → UInt32) (C : LuaTable → TableOp → Prop) (t : LuaTable) (s : Traversal) : Prop :=
  ReflTransGen (TraversalStep h C) (.start t) s

/-- What holds in a state of a traversal of `t`: no key was returned twice, the traversal is not
longer than the table, and the next call returns a new key with its current value, or ends the
traversal after all kept keys were returned. The JIT's helper returns the same key, and reading that
key gives the same value. -/
structure Traversal.Law (h : LuaValue → UInt32) (t : LuaTable) (s : Traversal) : Prop where
  nodup : (s.out.map Prod.fst).Nodup
  bounded : s.out.length ≤ t.size
  next : ∃ r, s.table.next h s.key = .ok r ∧ s.table.jitTnextk h s.key = .ok (keyOrNil r) ∧
    match r with
    | some (k, v) => k ∉ s.out.map Prod.fst ∧ v ≠ .nil ∧ s.table.value k = v ∧ s.table.get h k = .ok v
    | none => ∀ k ∈ s.kept, k ∈ s.out.map Prod.fst

/-- The invariant of a traversal: the keys returned so far are those at the positions `ps`, all
before the traversal's position, and no kept key was passed over. -/
structure Traversal.Inv (h : LuaValue → UInt32) (t : LuaTable) (s : Traversal) (pos : ℕ) (ps : List ℕ) : Prop where
  chained : s.table.Chained h
  size : s.table.size = t.size
  pos_le : pos ≤ s.table.size
  index : s.table.keyIndex h s.key = .ok (some pos)
  cursor : pos = 0 ∧ s.key = .nil ∨ ∃ p, pos = p + 1 ∧ s.table.At s.key p
  out : s.out.map Prod.fst = ps.map fun p => (s.table.entryAt p).1
  at_out : ∀ p ∈ ps, s.table.At (s.table.entryAt p).1 p
  sorted : ps.Pairwise (· < ·)
  lt_pos : ∀ p ∈ ps, p < pos
  kept : ∀ k ∈ s.kept, k.Normal ∧ s.table.value k ≠ .nil ∧ ∀ p, s.table.At k p → p < pos → p ∈ ps

namespace Traversal
variable {s s' : Traversal} {pos : ℕ} {ps : List ℕ}

theorem inv_start (ch : t.Chained h) : Inv h t (.start t) 0 [] where
  chained := ch
  size := rfl
  pos_le := Nat.zero_le _
  index := rfl
  cursor := .inl ⟨rfl, rfl⟩
  out := rfl
  at_out := by simp
  sorted := .nil
  lt_pos := by simp
  kept k hk := ⟨hk.1, hk.2, by simp⟩

theorem Inv.next_eq (i : Inv h t s pos ps) :
    s.table.next h s.key = .ok (s.table.scan (s.table.size - pos) pos) := by
  rw [LuaTable.next, i.index]
  exact nextFrom_eq i.chained.toWf i.pos_le

/-- The call of `next` moves the position behind the entry that it returns. -/
theorem Inv.next (i : Inv h t s pos ps) (hn : s.table.next h s.key = .ok (some (k, v))) :
    ∃ p, pos ≤ p ∧ s.table.At k p ∧ s.table.entryAt p = (k, v) ∧ v ≠ .nil ∧
      Inv h t ⟨s.table, k, s.out ++ [(k, v)], s.kept⟩ (p + 1) (ps ++ [p]) := by
  rw [i.next_eq, Except.ok.injEq] at hn
  obtain ⟨p, hpos, hp, he, hv, hbefore⟩ := scan_eq_some hn
  have ha : s.table.At k p := by
    have := at_of_entry i.chained.toWf (p := p) (by rw [he]; exact hv)
    rwa [he] at this
  refine ⟨p, hpos, ha, he, hv, i.chained, i.size, ?_, keyIndex_at i.chained ha, .inr ⟨p, rfl, ha⟩, ?_, ?_, ?_,
    ?_, ?_⟩
  · have := ha.lt_size
    exact this
  · simp [i.out, he]
  · intro q hq
    obtain hq | hq := List.mem_append.mp hq
    · exact i.at_out q hq
    · obtain rfl := List.mem_singleton.mp hq
      rw [he]
      exact ha
  · refine List.pairwise_append.mpr ⟨i.sorted, by simp, fun q hq r hr => ?_⟩
    obtain rfl := List.mem_singleton.mp hr
    exact (i.lt_pos q hq).trans_le hpos
  · intro q hq
    obtain hq | hq := List.mem_append.mp hq
    · have := i.lt_pos q hq
      omega
    · obtain rfl := List.mem_singleton.mp hq
      omega
  · intro l hl
    obtain ⟨hnorm, hval, hpassed⟩ := i.kept l hl
    refine ⟨hnorm, hval, fun q hq hlt => ?_⟩
    by_cases hqpos : q < pos
    · exact List.mem_append_left _ (hpassed q hq hqpos)
    by_cases hqp : q = p
    · simp [hqp]
    · rw [hq.value_eq i.chained] at hval
      exact absurd (hbefore q (by omega) (by omega)) hval

/-- A store in place keeps all positions. -/
theorem Inv.store (i : Inv h t s pos ps) {op : TableOp} (hex : op.Existing s.table)
    (hin : op.InPlace s.table) (ht : s.table.step h op = .ok t') :
    Inv h t ⟨t', s.key, s.out, s.kept ∩ { k | t'.value k ≠ .nil }⟩ pos ps := by
  obtain ⟨t₁, ht₁, sk⟩ := step_inPlace i.chained hex hin
  obtain rfl : t' = t₁ := Except.ok.inj (ht.symm.trans ht₁)
  have ch : t'.Chained h := by
    have := step_spec (f := s.table.value) i.chained (fun _ => rfl) op
    rw [ht] at this
    exact this.1
  refine ⟨ch, sk.size.trans i.size, sk.size ▸ i.pos_le, ?_, ?_, ?_, ?_, i.sorted, i.lt_pos, ?_⟩
  · obtain ⟨rfl, hnil⟩ | ⟨p, rfl, ha⟩ := i.cursor
    · simp only [hnil]
      rfl
    · exact keyIndex_at ch (sk.at_iff.mpr ha)
  · obtain hstart | ⟨p, hp, ha⟩ := i.cursor
    · exact .inl hstart
    · exact .inr ⟨p, hp, sk.at_iff.mpr ha⟩
  · simp only [sk.entry_fst, i.out]
  · intro p hp
    rw [sk.entry_fst, sk.at_iff]
    exact i.at_out p hp
  · rintro k ⟨hk, hv⟩
    obtain ⟨hnorm, _, hpassed⟩ := i.kept k hk
    exact ⟨hnorm, hv, fun p hp => hpassed p (sk.at_iff.mp hp)⟩

theorem Inv.law (i : Inv h t s pos ps) : s.Law h t := by
  have hinj : ∀ p ∈ ps, ∀ q ∈ ps, (s.table.entryAt p).1 = (s.table.entryAt q).1 → p = q := fun p hp q hq he =>
    (i.at_out p hp).unique i.chained (he ▸ i.at_out q hq)
  have hnd : ps.Nodup := i.sorted.imp fun hlt => Nat.ne_of_lt hlt
  refine ⟨?_, ?_, ?_⟩
  · rw [i.out]
    exact List.Nodup.map_on hinj hnd
  · have hsub : ps ⊆ List.range t.size := fun p hp => by
      have := i.lt_pos p hp
      have := i.pos_le
      rw [i.size] at this
      exact List.mem_range.mpr (by omega)
    have hlen := (List.subperm_of_subset hnd hsub).length_le
    have hout := congrArg List.length i.out
    simp only [List.length_map, List.length_range] at hlen hout
    omega
  · refine ⟨_, i.next_eq, by rw [jitTnextk_eq i.chained.toWf, i.next_eq]; rfl, ?_⟩
    cases hscan : s.table.scan (s.table.size - pos) pos with
    | some kv =>
      obtain ⟨k, v⟩ := kv
      obtain ⟨p, hpos, ha, he, hv, _⟩ := i.next (i.next_eq.trans (congrArg _ hscan))
      have hval : s.table.value k = v := by rw [ha.value_eq i.chained, he]
      refine ⟨?_, hv, hval, by rw [get_spec i.chained.toWf i.chained.findable, hval]⟩
      rw [i.out]
      intro hmem
      obtain ⟨q, hq, hqk⟩ := List.mem_map.mp hmem
      have := (i.at_out q hq).unique i.chained (hqk ▸ ha)
      have := i.lt_pos q hq
      omega
    | none =>
      intro k hk
      obtain ⟨hnorm, hv, hpassed⟩ := i.kept k hk
      obtain ⟨p, hp⟩ := exists_at i.chained hnorm hv
      have hlt : p < pos := by
        by_contra hge
        have := hp.lt_size
        rw [hp.value_eq i.chained] at hv
        exact hv (scan_eq_none hscan p (by omega) (by omega))
      rw [i.out]
      exact List.mem_map.mpr ⟨p, hpassed p hp hlt, hp.1⟩

theorem inv_of_traverses (ch : t.Chained h) (ht : Traverses h TableOp.InPlace t s) :
    ∃ pos ps, Inv h t s pos ps := by
  induction ht with
  | refl => exact ⟨0, [], inv_start ch⟩
  | tail _ hstep ih =>
    obtain ⟨pos, ps, i⟩ := ih
    cases hstep with
    | next hn =>
      obtain ⟨p, _, _, _, _, i'⟩ := i.next hn
      exact ⟨_, _, i'⟩
    | store hex hin ht => exact ⟨_, _, i.store hex hin ht⟩

end Traversal
/-- The law holds in every state of a traversal whose stores are all in place. -/
theorem traversal_law (h : LuaValue → UInt32) {asize hbits : UInt32} {ops : List TableOp} {t : LuaTable}
    (hstart : start h asize hbits ops = .ok t) {s : Traversal} (ht : Traverses h TableOp.InPlace t s) :
    s.Law h t := by
  have hspec := start_spec h asize hbits ops
  rw [hstart] at hspec
  obtain ⟨_, _, i⟩ := Traversal.inv_of_traverses hspec.1 ht
  exact i.law

/-! A table with four array slots, all nil, and the keys `false` and 4 in its two nodes. -/
namespace FourInHash

def hash : LuaValue → UInt32 := LuaValue.hashKey fun _ => 0

theorem validKey_false : (LuaValue.bool false).ValidKey := ⟨by simp, rfl, by simp⟩

def ops : List TableOp :=
  [.set ⟨.bool false, validKey_false⟩ (.ofInt 1), .set ⟨.ofInt 4, LuaValue.validKey_ofInt (by decide)⟩ (.ofInt 2)]

def table (asize : ℕ) (four : List LuaValue) (nd : Node) : LuaTable :=
  ⟨[.nil, .nil, .nil, .nil] ++ four, [⟨.ofInt 1, .bool false, NIL_NODE⟩, nd], none, asize, 1, 2, 0⟩

/-- The table before the traversal; `v` is the value of key 4. -/
def before (v : LuaValue) : LuaTable := table 4 [] ⟨v, .ofInt 4, NIL_NODE⟩

/-- The table after `set_int` of key 4. -/
def after : LuaTable := table 8 [.ofInt 3, .nil, .nil, .nil] .EMPTY

theorem start_eq : start hash 4 1 ops = .ok (before (.ofInt 2)) := rfl

/-- Both keys were returned. -/
def visited (t : LuaTable) : Traversal :=
  ⟨t, .ofInt 4, [(.bool false, .ofInt 1), (.ofInt 4, .ofInt 2)],
    { k | k.Normal ∧ (before (.ofInt 2)).value k ≠ .nil } ∩ { k | t.value k ≠ .nil }⟩

theorem traverses {C : LuaTable → TableOp → Prop} {v : LuaValue} {t' : LuaTable}
    (hc : C (before (.ofInt 2)) (.setInt 4 v)) (ht : (before (.ofInt 2)).step hash (.setInt 4 v) = .ok t') :
    Traverses hash C (before (.ofInt 2)) (visited t') := by
  have hstart : Traverses hash C (before (.ofInt 2)) (.start (before (.ofInt 2))) := .refl
  have hfalse := hstart.tail (.next (k := .bool false) (v := .ofInt 1) rfl)
  have hfour := hfalse.tail (.next (k := .ofInt 4) (v := .ofInt 2) rfl)
  exact hfour.tail (.store ⟨.ofInt 4, rfl, by decide⟩ hc ht)

end FourInHash

open FourInHash in
/-- Clearing key 4 after it was returned is a store in place. -/
theorem traversal_law_clear : (visited (before .nil)).Law FourInHash.hash (before (.ofInt 2)) :=
  traversal_law FourInHash.hash start_eq (traverses (v := .nil) (fun hgrow => hgrow.2.2.1 rfl) rfl)

open FourInHash in
/-- A new value for key 4 grows the array part, and `next` then returns `false` again. -/
theorem traversal_law_grow : ¬ ∀ (h : LuaValue → UInt32) (asize hbits : UInt32) (ops : List TableOp) (t : LuaTable),
    start h asize hbits ops = .ok t → ∀ s, Traverses h (fun _ _ => True) t s → s.Law h t := by
  intro hall
  have law := hall FourInHash.hash 4 1 FourInHash.ops _ start_eq (visited after)
    (traverses (v := .ofInt 3) trivial rfl)
  obtain ⟨r, hr, _, hm⟩ := law.next
  have hnext : after.next FourInHash.hash (.ofInt 4) = .ok (some (.bool false, .ofInt 1)) := rfl
  obtain rfl : some (.bool false, .ofInt 1) = r := Except.ok.inj (hnext.symm.trans hr)
  exact hm.1 (by simp [visited])

end LuaTable
end LuajitRs
