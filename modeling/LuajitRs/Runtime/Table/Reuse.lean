import LuajitRs.Runtime.Interner.Runs
import LuajitRs.Runtime.Table.Refinement

/-! A table with string keys beside the interner that owns the strings. A collection frees strings
that the table still has as dead keys, and a new string takes over their addresses, so that the
main position of a dead key changes inside its chain. -/
namespace LuajitRs
open Lib.Chain

/-- What identifies a key to a program: the bytes of a string, or the value itself. -/
inductive KeyName
  | str (bytes : List UInt8)
  | other (v : LuaValue)
  deriving DecidableEq

/-- The string table of the runtime and one table. -/
structure Machine where
  strings : Interner
  table : LuaTable

namespace Machine

/-- The id that `hash_key` reads at an address; freed memory reads as `stale`. -/
def sidAt (stale : ℕ → UInt32) (it : Interner) (a : ℕ) : UInt32 :=
  match it.pool.get a with
  | some s => s.sid
  | none => stale a

/-- The hash of a key in the current heap. -/
def hash (stale : ℕ → UInt32) (it : Interner) : LuaValue → UInt32 := LuaValue.hashKey (sidAt stale it)

/-- The name of a key that exists: a string key exists while its string is live. -/
def nameOf (it : Interner) : LuaValue → Option KeyName
  | .str a => if a ∈ it.pool.objects then (it.pool.get a).map fun s => .str s.bytes else none
  | v => some (.other v)

/-- An operation on the strings or on the table. -/
inductive Op
  | strings (op : Interner.Op)
  | table (op : TableOp)

def step (stale : ℕ → UInt32) (m : Machine) : Op → Except Fault Machine
  | .strings op => (m.strings.step op).map fun it => { m with strings := it }
  | .table op => (m.table.step (hash stale m.strings) op).map fun t => { m with table := t }

/-- What a program has stored, after an operation. -/
def record (m : Machine) (g : KeyName → LuaValue) : Op → KeyName → LuaValue
  | .strings _ => g
  | .table op =>
    match op.storeKey.bind (nameOf m.strings) with
    | some n => Function.update g n op.storeValue
    | none => g

/-- A sweep frees no string that is this key. -/
def Spares (it : Interner) (cw : UInt8) : LuaValue → Prop
  | .str a => it.Survives cw a
  | _ => True

/-- The collector frees no string that is the key of a live node. -/
def Unreferenced (m : Machine) : Interner.Op → Prop
  | .sweep cw => ∀ nd ∈ m.table.node, nd.val ≠ .nil → Spares m.strings cw nd.key
  | _ => True

/-- The allocator and the collector keep their promises, and a program stores under keys that
exist. -/
def Allowed (m : Machine) : Op → Prop
  | .strings op => m.strings.Allocates op ∧ m.Unreferenced op
  | .table op => ∀ k, op.storeKey = some k → (nameOf m.strings k).isSome

/-- A table insertion leaves no live key behind. -/
def Keeps (stale : ℕ → UInt32) (m : Machine) : Op → Prop
  | .strings _ => True
  | .table op => op.Keeps (hash stale m.strings) m.table

/-- The states of the runs from a new interner, whose empty string is at `e`, and a new table,
by allowed steps that satisfy `ok`, with what the run has stored last under each name. -/
inductive Reached (stale : ℕ → UInt32) (ok : Machine → Op → Prop) (e : ℕ) :
    Machine → (KeyName → LuaValue) → Prop
  | new {it : Interner} {asize hbits : UInt32} {t : LuaTable} : Interner.new e = .ok it →
      LuaTable.new asize.toNat hbits.toNat = .ok t → Reached stale ok e ⟨it, t⟩ fun _ => .nil
  | step {m m' : Machine} {g : KeyName → LuaValue} (op : Op) : Reached stale ok e m g → m.Allowed op →
      ok m op → m.step stale op = .ok m' → Reached stale ok e m' (m.record g op)

/-- Lookups by keys that exist return what was stored last, and a key is stored in one place. -/
structure Correct (stale : ℕ → UInt32) (m : Machine) (g : KeyName → LuaValue) : Prop where
  get : ∀ (k : NormalKey) (n : KeyName), nameOf m.strings k.1 = some n →
    m.table.get (hash stale m.strings) k.1 = .ok (g n)
  getStr : ∀ (k : StrKey) (n : KeyName), nameOf m.strings k.1 = some n →
    m.table.getStr (hash stale m.strings) k.1 = .ok (g n)
  getInt : ∀ n : Int32, m.table.getInt (hash stale m.strings) n.toInt = .ok (g (.other (.ofInt n.toInt)))
  once : ∀ i j, m.table.Live i → m.table.Live j →
    (m.table.nodeAt i).key = (m.table.nodeAt j).key → i = j
  split : ∀ i, m.table.Live i → m.table.arrayIdx (m.table.nodeAt i).key = none

/-! ### Names -/

section Names
variable {it it' : Interner} {g : KeyName → LuaValue} {a : ℕ} {k l : LuaValue} {n : KeyName}

/-- The map from keys that the table has to store. -/
def view (it : Interner) (g : KeyName → LuaValue) (k : LuaValue) : LuaValue :=
  match nameOf it k with
  | some n => g n
  | none => .nil

theorem view_of_name (h : nameOf it k = some n) : view it g k = g n := by simp [view, h]

theorem nameOf_str (ha : a ∈ it.pool.objects) {s : LuaString} (hs : it.pool.get a = some s) :
    nameOf it (.str a) = some (.str s.bytes) := by simp [nameOf, ha, hs]

theorem nameOf_str_of_not_mem (ha : a ∉ it.pool.objects) : nameOf it (.str a) = none := by
  simp [nameOf, ha]

/-- Only the live strings have a name that says what their bytes are. -/
theorem contains_of_nameOf {s : List UInt8} (h : nameOf it k = some (.str s)) : it.Contains s := by
  cases k with
  | str a =>
    simp only [nameOf] at h
    split_ifs at h with ha
    obtain ⟨str, hstr, hbytes⟩ := Option.map_eq_some_iff.mp h
    exact ⟨a, ha, str, hstr, KeyName.str.inj hbytes⟩
  | _ => simp [nameOf] at h

/-- Two keys of one name are one key. -/
theorem nameOf_inj (W : it.Wf) (hk : nameOf it k = some n) (hl : nameOf it l = some n) : k = l := by
  have other : ∀ v : LuaValue, (∀ a, v ≠ .str a) → nameOf it v = some (.other v) := by
    intro v hv
    cases v <;> first | rfl | exact absurd rfl (hv _)
  by_cases hks : ∃ a, k = .str a <;> by_cases hls : ∃ b, l = .str b
  · obtain ⟨a, rfl⟩ := hks
    obtain ⟨b, rfl⟩ := hls
    simp only [nameOf] at hk hl
    split_ifs at hk hl with ha hb
    obtain ⟨s, hs, rfl⟩ := Option.map_eq_some_iff.mp hk
    obtain ⟨t, ht, hbytes⟩ := Option.map_eq_some_iff.mp hl
    rw [W.distinct a b s t ha hb hs ht (KeyName.str.inj hbytes).symm]
  · obtain ⟨a, rfl⟩ := hks
    rw [other l fun b hb => hls ⟨b, hb⟩] at hl
    simp only [nameOf] at hk
    split_ifs at hk
    obtain ⟨s, _, rfl⟩ := Option.map_eq_some_iff.mp hk
    simp at hl
  · obtain ⟨b, rfl⟩ := hls
    rw [other k fun a ha => hks ⟨a, ha⟩] at hk
    simp only [nameOf] at hl
    split_ifs at hl
    obtain ⟨s, _, rfl⟩ := Option.map_eq_some_iff.mp hl
    simp at hk
  · rw [other k fun a ha => hks ⟨a, ha⟩] at hk
    rw [other l fun b hb => hls ⟨b, hb⟩] at hl
    simpa using hk.trans hl.symm

theorem hash_eq {stale : ℕ → UInt32} (h : ∀ a, k = .str a → it'.pool.get a = it.pool.get a) :
    hash stale it' k = hash stale it k := by
  cases k with
  | str a => simp only [hash, LuaValue.hashKey, sidAt, h a rfl]
  | _ => rfl

/-- A store under a name is a store under the key that has it. -/
theorem view_update (W : it.Wf) (hn : nameOf it k = some n) (v : LuaValue) :
    view it (Function.update g n v) = Function.update (view it g) k v := by
  funext l
  by_cases hl : l = k
  · subst hl
    simp [view, hn]
  · rw [Function.update_of_ne hl]
    cases hm : nameOf it l with
    | none => simp [view, hm]
    | some m =>
      have hne : m ≠ n := by
        rintro rfl
        exact hl (nameOf_inj W hm hn)
      simp [view, hm, hne]

end Names

/-! ### The invariant -/

structure Inv (stale : ℕ → UInt32) (e : ℕ) (m : Machine) (g : KeyName → LuaValue) : Prop where
  strings : m.strings.Inv e
  wf : m.table.Wf
  findable : m.table.Findable (hash stale m.strings)
  represents : m.table.Represents (view m.strings g)
  /-- Nothing is stored under a string that does not exist. -/
  gone : ∀ s, ¬ m.strings.Contains s → g (.str s) = .nil

variable {stale : ℕ → UInt32} {e : ℕ} {m : Machine} {g : KeyName → LuaValue}

/-- A string that is the key of a stored value is the key of a live node. -/
theorem Inv.exists_node (I : Inv stale e m g) {a : ℕ} (hv : m.table.value (.str a) ≠ .nil) :
    ∃ nd ∈ m.table.node, nd.val ≠ .nil ∧ nd.key = .str a := by
  have hval : m.table.value (.str a) = m.table.hashVal (.str a) := LuaTable.value_of_hash rfl
  rw [hval] at hv
  obtain ⟨_, i, hkey, hiv⟩ := (LuaTable.entry_iff I.wf I.findable).mpr ⟨hv, rfl⟩
  have hi : m.table.Live i := by rw [LuaTable.Live, hiv]; exact hv
  have hlt := LuaTable.lt_of_keyed (I.wf.keyed_of_live hi)
  refine ⟨m.table.nodeAt i, ?_, hi, hkey⟩
  simp [LuaTable.nodeAt, hlt]

theorem Inv.nameOf_of_value (I : Inv stale e m g) {k : LuaValue} (hk : k.Normal)
    (hv : m.table.value k ≠ .nil) : nameOf m.strings k ≠ none := by
  intro hnone
  apply hv
  rw [I.represents ⟨k, hk⟩]
  simp [view, hnone]

/-- The strings may change as long as the keys of the stored values keep their hash and all keys
that have a name keep what is stored under it. -/
theorem Inv.withStrings (I : Inv stale e m g) {it : Interner} (S : it.Inv e)
    (hget : ∀ a, m.table.value (.str a) ≠ .nil → it.pool.get a = m.strings.pool.get a)
    (hview : view it g = view m.strings g) (hgone : ∀ s, ¬ it.Contains s → g (.str s) = .nil) :
    Inv stale e { m with strings := it } g := by
  refine ⟨S, I.wf, I.findable.congr ?_, hview ▸ I.represents, hgone⟩
  intro i hi
  apply hash_eq
  intro a ha
  apply hget
  rw [← ha, LuaTable.value_of_live I.wf I.findable hi]
  exact hi

theorem Inv.change (I : Inv stale e m g) {op : Interner.Op} {it : Interner} (W : it.Wf)
    (c : Interner.Change m.strings op it) (hun : m.Unreferenced op) :
    Inv stale e { m with strings := it } g := by
  have S := c.inv I.strings W
  cases c with
  | same hobj hget _ _ =>
    refine I.withStrings S (fun a _ => congrFun hget a) ?_ ?_
    · funext k
      have hname : nameOf it k = nameOf m.strings k := by cases k <;> simp [nameOf, hobj, hget]
      simp only [view, hname]
    · intro s hs
      exact I.gone s (by rwa [Interner.Contains, ← hobj, ← hget])
  | @added s fresh sid _ hf hnone h =>
    have hpool := I.strings.wf.pool
    have hnew := Pool.nextAddr_not_mem hpool hf
    refine I.withStrings S ?_ ?_ ?_
    · intro a ha
      have hname := I.nameOf_of_value (k := .str a) rfl ha
      have hmem : a ∈ m.strings.pool.objects := by
        by_contra hnot
        exact hname (nameOf_str_of_not_mem hnot)
      exact h.get_of_mem hpool hf hmem
    · funext k
      by_cases hk : k = .str (m.strings.pool.nextAddr fresh)
      · subst hk
        rw [view_of_name (nameOf_str (h.mem_objects.mpr (.inr rfl)) h.get_self), I.gone s hnone]
        simp [view, nameOf_str_of_not_mem hnew]
      · have hname : nameOf it k = nameOf m.strings k := by
          cases k with
          | str a =>
            have hne : a ≠ m.strings.pool.nextAddr fresh := fun ha => hk (by rw [ha])
            simp [nameOf, h.mem_objects, hne, h.get_of_ne hne]
          | _ => rfl
        simp only [view, hname]
    · intro t ht
      apply I.gone t
      rintro ⟨a, ha, str, hstr, hbytes⟩
      exact ht ⟨a, h.mem_objects.mpr (.inl ha), str, by rw [h.get_of_mem hpool hf ha, hstr], hbytes⟩
  | @swept cw _ h =>
    -- a string that is freed has nothing stored under it
    have hfreed : ∀ a, a ∈ m.strings.pool.objects → a ∉ it.pool.objects → view m.strings g (.str a) = .nil := by
      intro a ha hnot
      by_contra hv
      have hval : m.table.value (.str a) = view m.strings g (.str a) := I.represents ⟨.str a, rfl⟩
      obtain ⟨nd, hnd, hlive, hkey⟩ := I.exists_node (a := a) (hval ▸ hv)
      exact hnot ((h.mem a).mpr ⟨ha, show Spares _ _ (.str a) from hkey ▸ hun nd hnd hlive⟩)
    refine I.withStrings S ?_ ?_ ?_
    · intro a ha
      obtain ⟨nd, hnd, hlive, hkey⟩ := I.exists_node ha
      have hmem : a ∈ m.strings.pool.objects := by
        by_contra hnot
        exact I.nameOf_of_value (k := .str a) rfl ha (nameOf_str_of_not_mem hnot)
      exact h.get a ((h.mem a).mpr ⟨hmem, show Spares _ _ (.str a) from hkey ▸ hun nd hnd hlive⟩)
    · funext k
      cases k with
      | str a =>
        by_cases ha : a ∈ it.pool.objects
        · have hold := ((h.mem a).mp ha).1
          simp only [view, nameOf, ha, hold, h.get a ha, if_true]
        · have hnil : view it g (.str a) = .nil := by simp [view, nameOf_str_of_not_mem ha]
          by_cases hold : a ∈ m.strings.pool.objects
          · rw [hnil, hfreed a hold ha]
          · rw [hnil]
            simp [view, nameOf_str_of_not_mem hold]
      | _ => rfl
    · intro s hs
      by_cases hold : m.strings.Contains s
      · obtain ⟨a, ha, str, hstr, rfl⟩ := hold
        have hnot : a ∉ it.pool.objects := fun hmem => hs ⟨a, hmem, str, (h.get a hmem).trans hstr, rfl⟩
        rw [← hfreed a ha hnot, view_of_name (nameOf_str ha hstr)]
      · exact I.gone s hold

/-- The call of the table is recorded as it changes the map. -/
theorem Inv.represents_record (I : Inv stale e m g) {op : TableOp} (ha : m.Allowed (.table op))
    {t : LuaTable} (hr : t.Represents (op.apply (view m.strings g))) :
    t.Represents (view m.strings (m.record g (.table op))) := by
  rw [TableOp.apply_eq] at hr
  cases hkey : op.storeKey with
  | none => simpa [record, hkey] using hr
  | some k =>
    obtain ⟨n, hn⟩ := Option.isSome_iff_exists.mp (ha k hkey)
    have hrec : m.record g (.table op) = Function.update g n op.storeValue := by
      simp [record, hkey, hn]
    rw [hrec, view_update I.strings.wf hn]
    simpa only [hkey] using hr

/-- One step of a run keeps the invariant, or it is the panic of a table that outgrew its limits. -/
theorem Inv.step (I : Inv stale e m g) (op : Op) (ha : m.Allowed op) (hk : m.Keeps stale op) :
    (∃ m', m.step stale op = .ok m' ∧ Inv stale e m' (m.record g op)) ∨
      m.step stale op = .error .tableOverflow := by
  cases op with
  | strings op =>
    obtain ⟨it, hrun, W, c⟩ := I.strings.wf.step op ha.1
    exact .inl ⟨_, by simp [Machine.step, hrun, Except.map], I.change W c ha.2⟩
  | table op =>
    have hs := LuaTable.step_findable I.wf I.findable I.represents op hk
    cases hrun : m.table.step (hash stale m.strings) op with
    | error f =>
      rw [hrun] at hs
      exact .inr (by simp [Machine.step, hrun, Except.map, hs.1])
    | ok t =>
      rw [hrun] at hs
      obtain ⟨w, fd, _, hr, _⟩ := hs
      refine .inl ⟨_, by simp [Machine.step, hrun, Except.map]; rfl, ?_⟩
      refine ⟨I.strings, w, fd, I.represents_record ha hr, ?_⟩
      intro s hs
      cases hkey : op.storeKey with
      | none => simpa [record, hkey] using I.gone s hs
      | some k =>
        obtain ⟨n, hn⟩ := Option.isSome_iff_exists.mp (ha k hkey)
        have hne : .str s ≠ n := by
          rintro rfl
          exact hs (contains_of_nameOf hn)
        simpa [record, hkey, hn, hne] using I.gone s hs

theorem Inv.correct (I : Inv stale e m g) : m.Correct stale g where
  get k n hn := by rw [LuaTable.get_spec I.wf I.findable, I.represents k, view_of_name hn]
  getStr k n hn := by
    rw [LuaTable.getStr_spec I.wf I.findable k.2.2, I.represents ⟨k.1, k.2.1.normal⟩, view_of_name hn]
  getInt n := by
    have hk : (LuaValue.ofInt n.toInt).Normal :=
      (LuaValue.validKey_ofInt (by have := n.le_toInt; have := n.toInt_lt; omega)).normal
    rw [LuaTable.getInt_spec I.wf I.findable n.le_toInt n.toInt_lt, I.represents ⟨_, hk⟩]
    rfl
  once i j hi hj hkey := LuaTable.Findable.once I.wf I.findable hi hj hkey
  split := I.wf.split

theorem Reached.inv (he : Pool.InRange e) (h : Reached stale (Keeps stale) e m g) : Inv stale e m g := by
  induction h with
  | @new it asize hbits t hit ht =>
    obtain ⟨it₀, hrun, S, _⟩ := Interner.new_spec he
    obtain rfl := Except.ok.inj (hrun.symm.trans hit)
    have hn := LuaTable.new_spec (h := hash stale it₀) asize.toNat hbits.toNat
    rw [ht] at hn
    obtain ⟨ch, hr, _⟩ := hn
    have hview : view it₀ (fun _ => .nil) = fun _ => .nil := by
      funext k
      unfold view
      split <;> rfl
    exact ⟨S, ch.toWf, ch.findable, hview ▸ hr, fun _ _ => rfl⟩
  | step op _ ha hk hstep ih =>
    rcases ih.step op ha hk with ⟨m₁, hrun, I⟩ | herr
    · exact Except.ok.inj (hrun.symm.trans hstep) ▸ I
    · simp [herr] at hstep

/-- A store under a string. -/
def put (a : ℕ) (v : LuaValue) : Op := .table (.set ⟨.str a, LuaValue.validKey_str a⟩ v)

instance (it : Interner) (cw : UInt8) (a : ℕ) : Decidable (it.Survives cw a) :=
  match h : it.pool.heap a with
  | some box => decidable_of_iff (box.data.bytes = [] ∨ box.header.alive cw) (by simp [Interner.Survives, h])
  | none => .isFalse (by simp [Interner.Survives, h])

instance (it : Interner) (cw : UInt8) (k : LuaValue) : Decidable (Spares it cw k) :=
  match k with
  | .str a => inferInstanceAs (Decidable (it.Survives cw a))
  | .nil | .bool _ | .thread _ | .func _ | .cdata _ | .tab _ | .udata _ | .num _ => .isTrue trivial

instance (m : Machine) (op : Interner.Op) : Decidable (m.Unreferenced op) :=
  match op with
  | .sweep cw => inferInstanceAs
      (Decidable (∀ nd ∈ m.table.node, nd.val ≠ .nil → Spares m.strings cw nd.key))
  | .intern _ _ | .grow | .updateCurrentWhite _ | .recolour _ => .isTrue trivial

instance (it : Interner) (op : Interner.Op) : Decidable (it.Allocates op) :=
  match op with
  | .intern _ fresh => inferInstanceAs (Decidable
      (it.pool.freelist = [] → (0x1000 < fresh ∧ fresh < ADDR_MAX) ∧ fresh ∉ it.pool.objects))
  | .grow | .sweep _ | .updateCurrentWhite _ | .recolour _ => .isTrue trivial

instance (m : Machine) (op : Op) : Decidable (m.Allowed op) :=
  match op with
  | .strings op => inferInstanceAs (Decidable (m.strings.Allocates op ∧ m.Unreferenced op))
  | .table op => inferInstanceAs (Decidable (∀ k ∈ op.storeKey, (nameOf m.strings k).isSome))

/-- Run allowed steps. -/
def play (stale : ℕ → UInt32) : List Op → Machine → (KeyName → LuaValue) →
    Option (Machine × (KeyName → LuaValue))
  | [], m, g => some (m, g)
  | op :: ops, m, g =>
    if m.Allowed op then
      match m.step stale op with
      | .ok m' => play stale ops m' (m.record g op)
      | .error _ => none
    else none

theorem reached_of_play {ops : List Op} {r : Machine × (KeyName → LuaValue)}
    (R : Reached stale (fun _ _ => True) e m g) (h : play stale ops m g = some r) :
    Reached stale (fun _ _ => True) e r.1 r.2 := by
  induction ops generalizing m g with
  | nil =>
    obtain rfl : (m, g) = r := by simpa [play] using h
    exact R
  | cons op ops ih =>
    rw [play] at h
    split_ifs at h with ha
    split at h
    · rename_i m' hstep
      exact ih (.step op R ha trivial hstep) h
    · simp at h

/-- The address of the string with id `i` in the run below. -/
def addr (i : ℕ) : ℕ := 8192 + 64 * i

/-- Nine strings are created, with the ids one to nine; the keys with ids 0, 8 and 4 share main
position 0 of four nodes. The string with id 8 is cleared and collected, and its address goes to a
string with id 10, whose main position 2 is the node of key 4 in front of its own. Then key 6
displaces key 4. -/
def strandingRun : List Op :=
  (List.range' 1 9).map (fun i => .strings (.intern [UInt8.ofNat i] (addr i))) ++
  [put (addr 0) (.bool true), put (addr 8) (.bool true), put (addr 4) (.bool true), put (addr 8) .nil,
    .strings (.recolour fun a _ => ⟨false, if a = addr 8 then BIT_WHITE1 else BIT_WHITE0⟩),
    .strings (.sweep 0), .strings (.intern [10] (addr 8)),
    put (addr 8) (.bool false), put (addr 6) (.bool true)]

/-- The last state of the run and what it stored. -/
def strandingEnd : Option (Machine × (KeyName → LuaValue)) :=
  match Interner.new (addr 0), LuaTable.new 0 2 with
  | .ok it, .ok t => play (fun _ => 0) strandingRun ⟨it, t⟩ fun _ => .nil
  | _, _ => none

theorem reached_of_strandingEnd {r : Machine × (KeyName → LuaValue)} (h : strandingEnd = some r) :
    Reached (fun _ => 0) (fun _ _ => True) (addr 0) r.1 r.2 := by
  unfold strandingEnd at h
  split at h
  · rename_i it t hit ht
    exact reached_of_play (@Reached.new _ _ _ it 0 2 t hit ht) h
  · simp at h

end Machine
end LuajitRs
