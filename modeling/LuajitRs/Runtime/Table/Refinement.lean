import LuajitRs.Runtime.Table.Resize

/-! Runs of the mutating interface of a table under a fixed hash. Every run refines a map from keys
to values, and every table that it reaches has the chain layout that lookups and insertions rely on;
a run that fails to return exceeds a size limit. -/
namespace LuajitRs
open Lib.Chain

/-- A key that a program can store under. -/
abbrev Key := { k : LuaValue // k.ValidKey }

abbrev StrKey := { k : LuaValue // k.ValidKey ∧ k.isString = true }

/-- A key in stored form, which a program can look up. -/
abbrev NormalKey := { k : LuaValue // k.Normal }

/-- A call that changes a table. -/
inductive TableOp
  | set (key : Key) (v : LuaValue)
  | setStr (key : StrKey) (v : LuaValue)
  | setInt (k : Int32) (v : LuaValue)
  | resize (asize hbits : UInt32)
  | reasize (nasize : UInt32)
  | rehash (ek : Key)

namespace TableOp

/-- What a call does to the map from keys to values. -/
def apply (f : LuaValue → LuaValue) : TableOp → LuaValue → LuaValue
  | set key v => Function.update f key.1 v
  | setStr key v => Function.update f key.1 v
  | setInt k v => Function.update f (.ofInt k.toInt) v
  | resize _ _ | reasize _ | rehash _ => f

/-- The key that a store writes to. -/
def storeKey : TableOp → Option LuaValue
  | set key _ => some key.1
  | setStr key _ => some key.1
  | setInt k _ => some (.ofInt k.toInt)
  | _ => none

/-- The value that a store writes. -/
def storeValue : TableOp → LuaValue
  | set _ v => v
  | setStr _ v => v
  | setInt _ v => v
  | _ => .nil

theorem apply_eq (f : LuaValue → LuaValue) (op : TableOp) : op.apply f =
    match op.storeKey with
    | some k => Function.update f k op.storeValue
    | none => f := by
  cases op <;> rfl

/-- The map after a sequence of calls on an empty table. -/
def content (ops : List TableOp) : LuaValue → LuaValue := ops.foldl apply fun _ => .nil

/-- A call that asks for more than a table can have. -/
def Oversized : TableOp → Prop
  | resize asize hbits => LJ_MAX_ASIZE < asize.toNat ∨ LJ_MAX_HBITS < hbits.toNat
  | _ => False

/-- A call whose insertion, if it makes one, leaves no live key behind. -/
def Keeps (h : LuaValue → UInt32) (t : LuaTable) : TableOp → Prop
  | set key _ => t.NoStrand h key.1
  | setStr key _ => t.NoStrand h key.1
  | setInt k v => ¬ t.Tops k.toInt v → t.NoStrand h (.ofInt k.toInt)
  | _ => True

end TableOp

namespace LuaTable
variable (h : LuaValue → UInt32)

/-- One call on the model. -/
def step (t : LuaTable) : TableOp → Except Fault LuaTable
  | .set key v => t.set h key.1 v
  | .setStr key v => t.setStr h key.1 v
  | .setInt k v => t.setInt h k.toInt v
  | .resize asize hbits => t.resize h asize.toNat hbits.toNat
  | .reasize nasize => t.reasize h nasize.toNat
  | .rehash ek => t.rehash h ek.1

def run (t : LuaTable) (ops : List TableOp) : Except Fault LuaTable := ops.foldlM (step h) t

/-- The run of a sequence of calls on a new table. -/
def start (asize hbits : UInt32) (ops : List TableOp) : Except Fault LuaTable := do
  let t ← new asize.toNat hbits.toNat
  t.run h ops

variable {h} {t t' : LuaTable} {f : LuaValue → LuaValue}

/-- The table stores the map `f`. -/
def Represents (t : LuaTable) (f : LuaValue → LuaValue) : Prop := ∀ k : NormalKey, t.value k.1 = f k.1

theorem Represents.puts {key v : LuaValue} (hr : t.Represents f) (hp : t.Puts t' key v) :
    t'.Represents (Function.update f key v) := by
  intro k
  rw [hp k.1 k.2, Function.update_apply, hr k]

theorem Chained.keeps (ch : t.Chained h) (op : TableOp) : op.Keeps h t := by
  cases op with
  | set key v => exact ch.noStrand _
  | setStr key v => exact ch.noStrand _
  | setInt k v => exact fun _ => ch.noStrand _
  | _ => trivial

theorem liveCount_of_value_eq (w : t.Wf) (fd : t.Findable h) (w' : t'.Wf) (fd' : t'.Findable h)
    (hval : ∀ k, k.Normal → t'.value k = t.value k) : t'.liveCount ≤ t.liveCount := by
  have : t'.liveCount ≤ ((t.movedEntries 0).map Prod.fst).length := by
    refine liveCount_le w' fd' fun k hk hv => (mem_keys w fd).mpr ⟨hk, ?_⟩
    rwa [← hval k hk]
  simpa [liveCount] using this

theorem hbits_le (w : t.Wf) : t.hbits ≤ LJ_MAX_HBITS := by
  by_cases hp : t.hasHpart = true
  · obtain ⟨b, _, hb, hlen, _⟩ := w.length_of_hpart hp
    have hpow := (two_pow_hbits w hp).1
    rw [hlen] at hpow
    exact Nat.pow_right_injective le_rfl hpow ▸ hb
  · have hm : t.hmask = 0 := by simpa [hasHpart] using hp
    rw [hbits, if_pos hm]
    exact Nat.zero_le _

/-- One call on a table whose live keys can be found, whether or not the dead keys are where the
hash puts them now: the map changes as it should, and the live keys stay findable. -/
theorem step_findable (w : t.Wf) (fd : t.Findable h) (hr : t.Represents f) (op : TableOp)
    (hstay : op.Keeps h t) :
    Outcome (fun t' => t'.Wf ∧ t'.Findable h ∧ (t.Chained h → t'.Chained h) ∧
        t'.Represents (op.apply f) ∧ t'.liveCount ≤ t.liveCount + 1)
      (op.Oversized ∨ 2^LJ_MAX_HBITS ≤ t.liveCount) (t.step h op) := by
  have stored : ∀ (key v : LuaValue) (t' : LuaTable), t.Stored h t' key v →
      t'.Wf ∧ t'.Findable h ∧ (t.Chained h → t'.Chained h) ∧
        t'.Represents (Function.update f key v) ∧ t'.liveCount ≤ t.liveCount + 1 :=
    fun key v t' st => ⟨st.wf, st.findable, st.chained, hr.puts st.puts,
      liveCount_puts w fd st.wf st.findable st.puts⟩
  have kept : ∀ t' : LuaTable, (t'.Chained h ∧ ∀ k, k.Normal → t'.value k = t.value k) →
      t'.Wf ∧ t'.Findable h ∧ (t.Chained h → t'.Chained h) ∧ t'.Represents f ∧
        t'.liveCount ≤ t.liveCount + 1 := by
    rintro t' ⟨ch', hval⟩
    have := liveCount_of_value_eq w fd ch'.toWf ch'.findable hval
    exact ⟨ch'.toWf, ch'.findable, fun _ => ch', fun k => (hval k.1 k.2).trans (hr k), by omega⟩
  cases op with
  | set key v =>
    exact (set_spec w fd key.2 hstay v).imp (stored key.1 v) .inr
  | setStr key v =>
    rw [step, setStr_eq key.2.2]
    exact (set_spec w fd key.2.1 hstay v).imp (stored key.1 v) .inr
  | setInt k v =>
    exact (setInt_spec w fd k.le_toInt k.toInt_lt hstay).imp (stored _ v) .inr
  | resize asize hbits =>
    refine (resize_spec w fd asize.toNat hbits.toNat).imp kept ?_
    rintro (ha | hb | hc)
    · exact .inl (.inl ha)
    · exact .inl (.inr hb)
    · exact .inr hc
  | reasize nasize =>
    refine (resize_spec w fd _ t.hbits).imp kept ?_
    rintro (ha | hb | hc)
    · omega
    · exact absurd (hbits_le w) (Nat.not_le.mpr hb)
    · exact .inr hc
  | rehash ek =>
    exact (rehash_spec w fd ek.1).imp kept .inr

/-- One call keeps the chain invariant and refines the call on the map. -/
theorem step_spec (ch : t.Chained h) (hr : t.Represents f) (op : TableOp) :
    Outcome (fun t' => t'.Chained h ∧ t'.Represents (op.apply f) ∧ t'.liveCount ≤ t.liveCount + 1)
      (op.Oversized ∨ 2^LJ_MAX_HBITS ≤ t.liveCount) (t.step h op) :=
  (step_findable ch.toWf ch.findable hr op (ch.keeps op)).imp
    (fun _ ht' => ⟨ht'.2.2.1 ch, ht'.2.2.2⟩) id

/-- The run lemma: the invariant and the refinement hold at the end, or the run asked for an
oversized table, or it is long enough to store `2^26` keys. -/
theorem run_spec (ops : List TableOp) (t : LuaTable) (f : LuaValue → LuaValue) (ch : t.Chained h)
    (hr : t.Represents f) :
    Outcome (fun t' => t'.Chained h ∧ t'.Represents (ops.foldl TableOp.apply f))
      ((∃ op ∈ ops, op.Oversized) ∨ 2^LJ_MAX_HBITS ≤ t.liveCount + ops.length) (t.run h ops) := by
  induction ops generalizing t f with
  | nil => exact ⟨ch, hr⟩
  | cons op ops ih =>
    have hs := step_spec ch hr op
    have hfold : t.run h (op :: ops) = t.step h op >>= fun t' => t'.run h ops := rfl
    rw [hfold]
    cases he : t.step h op with
    | error e =>
      rw [he] at hs
      obtain ⟨rfl, hbig⟩ := hs
      refine ⟨rfl, ?_⟩
      obtain hover | hcount := hbig
      · exact .inl ⟨op, by simp, hover⟩
      · exact .inr (by simp; omega)
    | ok t₁ =>
      rw [he] at hs
      obtain ⟨ch₁, hr₁, hcount⟩ := hs
      refine (ih t₁ _ ch₁ hr₁).imp (fun _ => id) ?_
      rintro (⟨op', hop', hover⟩ | hlong)
      · exact .inl ⟨op', by simp [hop'], hover⟩
      · exact .inr (by simp; omega)

/-- The table without any slot. -/
def blank : LuaTable := ⟨[], [], none, 0, 0, 0, 255⟩

theorem new_eq {asize hbits : ℕ} (ha : asize ≤ LJ_MAX_ASIZE) (hb : hbits ≤ LJ_MAX_HBITS) :
    new asize hbits = .ok (blank.emptied asize hbits) := by
  unfold new emptied blank
  by_cases h0 : hbits = 0
  · simp [Nat.not_lt.mpr ha, h0, LJ_MAX_HBITS]
  · simp [Nat.not_lt.mpr ha, Nat.not_lt.mpr hb, h0, newHpart]

theorem new_spec (asize hbits : ℕ) :
    Outcome (fun t => t.Chained h ∧ t.Represents (fun _ => .nil) ∧ t.liveCount = 0)
      (LJ_MAX_ASIZE < asize ∨ LJ_MAX_HBITS < hbits) (new asize hbits) := by
  by_cases hover : LJ_MAX_ASIZE < asize ∨ LJ_MAX_HBITS < hbits
  · have herr : new asize hbits = .error .tableOverflow := by
      unfold new
      split_ifs <;> first | rfl | tauto
    rw [herr]
    exact ⟨rfl, hover⟩
  push Not at hover
  have wb : blank.Wf := 
    (show (blank.emptied 0 0).Chained h from chained_emptied (by decide) (by decide)).toWf
  have ch : (blank.emptied asize hbits).Chained h := chained_emptied hover.1 hover.2
  have hnil : ∀ k, (blank.emptied asize hbits).value k = .nil := by
    refine fun k => value_emptied_nil wb fun i hi => ?_
    exact absurd (arrayIdx_eq_some.mp hi).2 (Nat.not_lt_zero i)
  rw [new_eq hover.1 hover.2]
  refine ⟨ch, fun k => hnil k.1, Nat.le_zero.mp ?_⟩
  exact (liveCount_le ch.toWf ch.findable fun k _ hv => absurd (hnil k) hv).trans_eq List.length_nil

/-- The limits that a run exceeds when it panics. -/
def ExceedsLimits (asize hbits : UInt32) (ops : List TableOp) : Prop :=
  LJ_MAX_ASIZE < asize.toNat ∨ LJ_MAX_HBITS < hbits.toNat ∨ (∃ op ∈ ops, op.Oversized) ∨
    2^LJ_MAX_HBITS ≤ ops.length

theorem start_spec (h : LuaValue → UInt32) (asize hbits : UInt32) (ops : List TableOp) :
    Outcome (fun t => t.Chained h ∧ t.Represents (TableOp.content ops)) (ExceedsLimits asize hbits ops)
      (start h asize hbits ops) := by
  have hn := new_spec (h := h) asize.toNat hbits.toNat
  unfold start ExceedsLimits
  cases he : new asize.toNat hbits.toNat with
  | error e =>
    rw [he] at hn
    exact ⟨hn.1, by have := hn.2; tauto⟩
  | ok t =>
    rw [he] at hn
    obtain ⟨ch, hr, hcount⟩ := hn
    refine (run_spec ops t _ ch hr).imp (fun _ => id) ?_
    rw [hcount, Nat.zero_add]
    exact fun hlim => .inr (.inr hlim)

/-- After every run the getters return what the run stored last under a key, and nil for a key
that it never stored. -/
theorem start_refines (h : LuaValue → UInt32) (asize hbits : UInt32) (ops : List TableOp) :
    Outcome (fun t =>
        (∀ k : NormalKey, t.get h k.1 = .ok (TableOp.content ops k.1)) ∧
        (∀ n : Int32, t.getInt h n.toInt = .ok (TableOp.content ops (.ofInt n.toInt))) ∧
        ∀ k : StrKey, t.getStr h k.1 = .ok (TableOp.content ops k.1))
      (ExceedsLimits asize hbits ops) (start h asize hbits ops) := by
  refine (start_spec h asize hbits ops).imp ?_ id
  rintro t ⟨ch, hr⟩
  refine ⟨fun k => ?_, fun n => ?_, fun k => ?_⟩
  · rw [get_spec ch.toWf ch.findable, hr k]
  · have hk : (LuaValue.ofInt n.toInt).Normal :=
      (LuaValue.validKey_ofInt (by have := n.le_toInt; have := n.toInt_lt; omega)).normal
    rw [getInt_spec ch.toWf ch.findable n.le_toInt n.toInt_lt, hr ⟨_, hk⟩]
  · rw [getStr_spec ch.toWf ch.findable k.2.2, hr ⟨k.1, k.2.1.normal⟩]

/-- The layout of the array part and the chains on which lookups and insertions rely. -/
structure Layout (h : LuaValue → UInt32) (t : LuaTable) : Prop where
  /-- A stored key is in its array slot and in no live node, or in exactly one live node. -/
  place : ∀ k : NormalKey, t.value k.1 ≠ .nil →
    (∃ i, t.arrayIdx k.1 = some i ∧ ∀ j, t.Live j → (t.nodeAt j).key ≠ k.1) ∨
      (t.arrayIdx k.1 = none ∧ ∃! j, t.Live j ∧ (t.nodeAt j).key = k.1)
  /-- A key's node is met from the key's main position. -/
  homed : ∀ i, t.Live i → Reach t.nextOf (t.hashSlot h (t.nodeAt i).key) i
  acyclic : ∀ i j, t.nextOf i = some j → ¬ Reach t.nextOf j i
  ends : ∀ i, i < t.node.length → ∃ j, Reach t.nextOf i j ∧ (t.nodeAt j).next = NIL_NODE
  pred : ∀ i j n, t.nextOf i = some n → t.nextOf j = some n → i = j
  /-- A node outside its key's main position exists only while the occupant of that position is in
  its own main position. -/
  foreign : ∀ i, t.Keyed i → t.hashSlot h (t.nodeAt i).key ≠ i →
    t.hashSlot h (t.nodeAt (t.hashSlot h (t.nodeAt i).key)).key = t.hashSlot h (t.nodeAt i).key
  /-- The predecessor walk of a displacement ends at the node that links to the displaced one. -/
  walk : ∀ n, t.Live n → t.hashSlot h (t.nodeAt n).key ≠ n →
    ∃ p, t.findPred n (t.node.length + 1) (t.hashSlot h (t.nodeAt n).key) = .ok p ∧
      p < t.node.length ∧ (t.nodeAt p).next = n

theorem Chained.layout (ch : t.Chained h) : t.Layout h where
  place k hv := by
    cases hidx : t.arrayIdx k.1 with
    | some i =>
      refine .inl ⟨i, rfl, fun j hj he => ?_⟩
      have := ch.split j hj
      rw [he, hidx] at this
      cases this
    | none =>
      rw [value_of_hash hidx] at hv
      obtain ⟨_, j, hj, hjv⟩ := (entry_iff ch.toWf ch.findable).mpr ⟨hv, rfl⟩
      have hl : t.Live j := by rw [Live, hjv]; exact hv
      refine .inr ⟨rfl, j, ⟨hl, hj⟩, fun i hi => ?_⟩
      exact ch.unique i j (ch.toWf.keyed_of_live hi.1) (hi.2.trans hj.symm)
  homed i hi := ch.homed i (ch.toWf.keyed_of_live hi)
  acyclic := ch.forest.acyclic
  ends i hi := by
    obtain ⟨j, hij, hj⟩ := ch.forest.exists_end (Finset.range t.node.length)
      (fun a _ b hab => Finset.mem_range.mpr (ch.next_lt a b hab)) (Finset.mem_range.mpr hi)
    exact ⟨j, hij, nextOf_eq_none.mp hj⟩
  pred := ch.forest.inj
  foreign := ch.foreign
  walk n hn hne := by
    have hlt := lt_of_keyed (ch.toWf.keyed_of_live hn)
    have hp := ch.toWf.hasHpart_iff.mpr (by omega)
    obtain ⟨p, hp, hpn⟩ := findPred_spec ch.toWf hlt (ch.toWf.hashSlot_lt h hp _)
      (ch.homed n (ch.toWf.keyed_of_live hn)) hne
    exact ⟨p, hp, lt_of_nextOf hpn, (nextOf_eq_some.mp hpn).1⟩

/-- Every table that a run reaches has the layout. -/
theorem start_layout (h : LuaValue → UInt32) (asize hbits : UInt32) (ops : List TableOp) :
    Outcome (fun t => t.Layout h) (ExceedsLimits asize hbits ops) (start h asize hbits ops) :=
  (start_spec h asize hbits ops).imp (fun _ ht => ht.1.layout) id

end LuaTable
end LuajitRs
