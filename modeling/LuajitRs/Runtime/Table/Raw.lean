import LuajitRs.Runtime.Table.TraversalLaw

/-! The library functions `rawget`, `rawset`, `next` and `rawequal` on one table. They pass their keys
to the table as they are: `rawset` rejects no key, and a negative zero is looked up under its own bits
where the array part does not cover the slot 0. -/
namespace LuajitRs

namespace LuaValue

/-- Equality of the language: numbers compare as numbers, other values by identity. -/
def luaEq : LuaValue → LuaValue → Bool
  | num x, num y => x.feq y
  | v, w => v = w

/-- A value that the language allows as a key. -/
def Permitted (k : LuaValue) : Prop := k ≠ nil ∧ ∀ x, k = num x → x.isNaN = false

theorem ValidKey.permitted {k : LuaValue} (hk : k.ValidKey) : k.Permitted := ⟨hk.1, hk.2.2⟩

/-- A zero of either sign. -/
def IsZero (k : LuaValue) : Prop := k = num F64.zero ∨ k = num F64.negZero

theorem ofInt_zero : ofInt 0 = num F64.zero := rfl

/-- A permitted key is in stored form, except for the negative zero. -/
theorem Permitted.cases {k : LuaValue} (hk : k.Permitted) : k.ValidKey ∨ k = num F64.negZero := by
  cases k with
  | num x =>
    have hx := hk.2 x rfl
    by_cases hneg : x = F64.negZero
    · exact .inr (congrArg num hneg)
    · refine .inl ⟨hk.1, congrArg num ?_, hk.2⟩
      rw [F64.normalize, hx]
      by_cases hz : x = F64.zero
      · subst hz
        rfl
      · simp [F64.isZero, hz, hneg]
  | _ => exact .inl ⟨hk.1, rfl, hk.2⟩

/-- Equal keys have one stored form. -/
theorem normalizeKey_of_luaEq {k l : LuaValue} (hl : l.Permitted) (he : k.luaEq l = true) :
    k.Permitted ∧ k.normalizeKey = l.normalizeKey := by
  cases k with
  | num x =>
    cases l with
    | num y =>
      simp only [luaEq, F64.feq, Bool.and_eq_true, Bool.not_eq_true', Bool.or_eq_true, beq_iff_eq] at he
      obtain ⟨⟨hx, hy⟩, he⟩ := he
      refine ⟨⟨by simp, fun z hz => num.inj hz ▸ hx⟩, congrArg num ?_⟩
      obtain rfl | ⟨hzx, hzy⟩ := he
      · rfl
      · simp [F64.normalize, hx, hy, hzx, hzy]
    | _ => simp [luaEq] at he
  | _ =>
    have he := of_decide_eq_true he
    subst he
    exact ⟨hl, rfl⟩

theorem luaEq_of_normalizeKey {k l : LuaValue} (hk : k.Permitted) (hl : l.Permitted)
    (he : k.normalizeKey = l.normalizeKey) : k.luaEq l = true := by
  have hrefl : ∀ {k : LuaValue}, k.Permitted → k.luaEq k = true := by
    intro k hk
    cases k with
    | num x => simp [luaEq, F64.feq, hk.2 x rfl]
    | _ => simp [luaEq]
  obtain hkv | rfl := hk.cases
  · obtain hlv | rfl := hl.cases
    · rw [hkv.normalize, hlv.normalize] at he
      exact he ▸ hrefl hk
    · rw [hkv.normalize] at he
      subst he
      decide
  · obtain hlv | rfl := hl.cases
    · rw [hlv.normalize] at he
      subst he
      decide
    · decide

theorem IsZero.of_normalizeKey {k l : LuaValue} (hk : k.Permitted) (he : k.normalizeKey = l.normalizeKey)
    (hl : l.IsZero) : k.IsZero := by
  have hl' : l.normalizeKey = num F64.zero := by
    obtain rfl | rfl := hl <;> rfl
  obtain hv | rfl := hk.cases
  · rw [hv.normalize, hl'] at he
    exact .inl he
  · exact .inr rfl

end LuaValue

/-- A call of one of the functions; the table is the first argument. -/
inductive RawOp
  | rawset (k v : LuaValue)
  | rawget (k : LuaValue)
  | next (k : LuaValue)
  | rawequal (a b : LuaValue)

/-- What a call returns: a value, the pair of `next` or its end, a truth value, the table itself, or an
error message. -/
inductive RawResult
  | value (v : LuaValue)
  | entry (e : Option (LuaValue × LuaValue))
  | bool (b : Bool)
  | table
  | error (msg : String)
  deriving DecidableEq, Repr

namespace LuaTable
variable (h : LuaValue → UInt32)

def isValidKey (t : LuaTable) (k : LuaValue) : Except Fault Bool := do
  let i ← t.keyIndex h k
  pure (i ≠ none)

def libRawset (t : LuaTable) (k v : LuaValue) : Except Fault (LuaTable × RawResult) := do
  let t' ← t.set h k v
  pure (t', .table)

def libRawget (t : LuaTable) (k : LuaValue) : Except Fault (LuaTable × RawResult) := do
  let v ← t.get h k
  pure (t, .value v)

def libNext (t : LuaTable) (k : LuaValue) : Except Fault (LuaTable × RawResult) := do
  let ok ← t.isValidKey h k
  if !k.isNil && !ok then pure (t, .error "invalid key to 'next'")
  else do
    let e ← t.next h k
    pure (t, .entry e)

def libRawequal (t : LuaTable) (a b : LuaValue) : LuaTable × RawResult := (t, .bool (a.toBits = b.toBits))

def rawCall (t : LuaTable) : RawOp → Except Fault (LuaTable × RawResult)
  | .rawset k v => t.libRawset h k v
  | .rawget k => t.libRawget h k
  | .next k => t.libNext h k
  | .rawequal a b => .ok (t.libRawequal a b)

/-- The pairs that repeated calls of `next` return after `k`. -/
def traverse (t : LuaTable) : ℕ → LuaValue → Except Fault (List (LuaValue × LuaValue))
  | 0, _ => .error .diverge
  | n + 1, k => do
    match ← t.next h k with
    | none => pure []
    | some (k', v) => do
      let rest ← traverse t n k'
      pure ((k', v) :: rest)

/-- A store that the table carries out under the key it is given: the key is permitted, and a zero goes
to the array part, directly or after a rehash. Clearing the positive zero is harmless anywhere. -/
def Admits (t : LuaTable) : RawOp → Prop
  | .rawset k v => k.Permitted ∧ (k.IsZero → 0 < t.asize ∨ ¬ t.Fits h k ∨ (k = .ofInt 0 ∧ v = .nil))
  | _ => True

/-- A run of admitted calls that all return. -/
inductive RawRun : LuaTable → List RawOp → LuaTable → Prop
  | nil (t : LuaTable) : RawRun t [] t
  | cons {t t₁ t' : LuaTable} {op : RawOp} {ops : List RawOp} {r : RawResult} (had : t.Admits h op)
      (hc : t.rawCall h op = .ok (t₁, r)) (hrest : RawRun t₁ ops t') : RawRun t (op :: ops) t'

variable {h} {t t' : LuaTable} {k v : LuaValue}

/-! ### The zeros -/

/-- The array part covers the slot 0 whenever the key 0 has a value, so that both zeros find it. -/
def ZeroSettled (t : LuaTable) : Prop := t.value (.num F64.zero) ≠ .nil → 0 < t.asize

theorem arrayKey_zero (hk : k.IsZero) : arrayKey k = some 0 := by
  obtain rfl | rfl := hk <;> decide

theorem arrayIdx_zero (hk : k.IsZero) (ha : 0 < t.asize) : t.arrayIdx k = some 0 :=
  arrayIdx_eq_some.mpr ⟨arrayKey_zero hk, ha⟩

theorem validKey_zero : (LuaValue.num F64.zero).ValidKey :=
  LuaValue.ofInt_zero ▸ LuaValue.validKey_ofInt (by decide)

/-- No node has the key -0. -/
theorem value_negZero (w : t.Wf) (ha : t.asize = 0) : t.value (.num F64.negZero) = .nil := by
  have hidx : t.arrayIdx (.num F64.negZero) = none := by
    by_contra hne
    obtain ⟨i, hi⟩ := Option.ne_none_iff_exists'.mp hne
    have := (arrayIdx_eq_some.mp hi).2
    omega
  rw [value_of_hash hidx]
  apply hashVal_eq_nil
  intro u hu
  obtain ⟨hne, i, hik, hiu⟩ := hu
  have hl : t.Live i := by rw [Live, hiu]; exact hne
  have hv := w.valid i (w.keyed_of_live hl)
  rw [hik] at hv
  exact absurd hv.normalize (by decide)

/-- A key is looked up as its stored form is. -/
theorem value_normalizeKey (w : t.Wf) (hk : k.Permitted) (hz : k.IsZero → t.ZeroSettled) :
    t.value k = t.value k.normalizeKey := by
  obtain hv | rfl := hk.cases
  · rw [hv.normalize]
  · show _ = t.value (.num F64.zero)
    by_cases ha : 0 < t.asize
    · rw [value_of_arrayIdx (arrayIdx_zero (.inr rfl) ha), value_of_arrayIdx (arrayIdx_zero (.inl rfl) ha)]
    · rw [value_negZero w (Nat.eq_zero_of_not_pos ha)]
      exact (not_not.mp (mt (hz (.inr rfl)) ha)).symm

/-! ### One store -/

theorem mem_rehashKeys (hz : t.value (.num F64.zero) ≠ .nil) (ha : 0 < t.asize) (ek : LuaValue) :
    0 ∈ t.rehashKeys ek := by
  have hidx := value_of_arrayIdx (arrayIdx_zero (.inl rfl) ha)
  rw [hidx] at hz
  refine List.mem_append_left _ (List.mem_append_left _ ?_)
  simp only [arrayKeys, arrayKeysBelow, List.mem_filter, List.mem_range]
  exact ⟨ha, by simpa [LuaValue.isNil] using hz⟩

/-- The array part after a store: it stays when the key fits, and a rehash that counts the key 0
leaves it nonempty. -/
theorem set_asize (ch : t.Chained h) (hk : k.ValidKey) (hs : t.set h k v = .ok t') :
    (t.Fits h k → t'.asize = t.asize) ∧ (¬ t.Fits h k → 0 ∈ t.rehashKeys k → 0 < t'.asize) := by
  have w := ch.toWf
  constructor
  · intro hfit
    obtain ⟨t₁, heq, st⟩ := setD_fits 1 w ch.findable hk hfit (ch.noStrand k) v
    obtain rfl := Except.ok.inj (heq.symm.trans hs)
    exact st.asize
  · intro hfit h0
    have hre := rehash_sized (t := t.touch t.freetop) (h := h) 0 (wf_nomm w 0)
      ⟨ch.findable.homed, ch.findable.first⟩ k
    rw [set, setDepth, setD_rehash 1 w hfit] at hs
    cases hr : (t.touch t.freetop).rehashWith (setD h 1) k with
    | error e => simp [hr, bind, Except.bind] at hs
    | ok t₁ =>
      rw [hr] at hre hs
      obtain ⟨ch₁, -, hroom, hpos⟩ := hre
      obtain ⟨t₂, heq, st⟩ := setD_fits 0 ch₁.toWf ch₁.findable hk (fits_of_room ch₁.toWf hroom)
        (ch₁.noStrand k) v
      obtain rfl := Except.ok.inj (heq.symm.trans hs)
      rw [st.asize]
      exact hpos h0

/-- With the slot 0 in the array part both zeros are stored there. -/
theorem setD_zero (d : ℕ) (ha : 0 < t.asize) {z z' : LuaValue} (hz : z.IsZero) (hz' : z'.IsZero) :
    setD h (d+1) t z v = setD h (d+1) t z' v := by
  have hclear : ∀ z : LuaValue, z.IsZero → t.clearNomm z = t := by
    intro z hz
    obtain rfl | rfl := hz <;> rfl
  simp only [setD, hclear z hz, hclear z' hz', setTurn, arrayIdx_zero hz ha, arrayIdx_zero hz' ha]

/-- What an admitted store leaves behind: the value under the stored form of the key, where both zeros
find it. -/
structure Rawset (h : LuaValue → UInt32) (t t' : LuaTable) (k v : LuaValue) : Prop where
  chained : t'.Chained h
  puts : t.Puts t' k.normalizeKey v
  zero : k.IsZero → t'.ZeroSettled
  settled : t.ZeroSettled → t'.ZeroSettled

theorem rawset_valid (ch : t.Chained h) (hk : k.ValidKey) (had : t.Admits h (.rawset k v))
    (hs : t.set h k v = .ok t') : Rawset h t t' k v := by
  have hset := set_spec ch.toWf ch.findable hk (ch.noStrand k) v
  rw [hs] at hset
  have st : t.Stored h t' k v := hset
  obtain ⟨hfits, hrehash⟩ := set_asize ch hk hs
  have hkeep : t.value (.num F64.zero) ≠ .nil → 0 < t.asize → 0 < t'.asize := by
    intro hz ha
    by_cases hfit : t.Fits h k
    · exact (hfits hfit).symm ▸ ha
    · exact hrehash hfit (mem_rehashKeys hz ha k)
  have hzero : k.IsZero → t'.ZeroSettled := by
    intro hz hval
    obtain ha | hfit | ⟨rfl, rfl⟩ := had.2 hz
    · have hfit : t.Fits h k := .inl (by rw [arrayIdx_zero hz ha]; simp)
      exact (hfits hfit).symm ▸ ha
    · refine hrehash hfit (List.mem_append_right _ ?_)
      rw [arrayKey_zero hz]
      exact List.mem_singleton_self 0
    · exact absurd ((st.puts _ hk.normal).trans (if_pos rfl)) hval
  refine ⟨st.chained ch, hk.normalize.symm ▸ st.puts, hzero, fun hset hval => ?_⟩
  by_cases hz : k.IsZero
  · exact hzero hz hval
  · have hne : LuaValue.num F64.zero ≠ k := fun he => hz (.inl he.symm)
    rw [st.puts _ validKey_zero.normal, if_neg hne] at hval
    exact hkeep hval (hset hval)

theorem rawset_spec (ch : t.Chained h) (had : t.Admits h (.rawset k v)) (hs : t.set h k v = .ok t') :
    Rawset h t t' k v := by
  obtain hk | rfl := had.1.cases
  · exact rawset_valid ch hk had hs
  · obtain ha | hfit | ⟨he, -⟩ := had.2 (.inr rfl)
    · rw [set, setDepth, setD_zero 1 ha (.inr rfl) (.inl rfl)] at hs
      have st := rawset_valid ch validKey_zero ⟨validKey_zero.permitted, fun _ => .inl ha⟩ hs
      exact ⟨st.chained, st.puts, fun _ => st.zero (.inl rfl), st.settled⟩
    · have hre := rehash_sized (t := t.touch t.freetop) (h := h) 0 (wf_nomm ch.toWf 0)
        ⟨ch.findable.homed, ch.findable.first⟩ (.num F64.negZero)
      rw [set, setDepth, setD_rehash 1 ch.toWf hfit] at hs
      cases hr : (t.touch t.freetop).rehashWith (setD h 1) (.num F64.negZero) with
      | error e => simp [hr, bind, Except.bind] at hs
      | ok t₁ =>
        rw [hr] at hre hs
        obtain ⟨ch₁, hval, -, hpos⟩ := hre
        have ha : 0 < t₁.asize := by
          refine hpos (List.mem_append_right _ ?_)
          rw [arrayKey_zero (.inr rfl)]
          exact List.mem_singleton_self 0
        have hs₁ : setD h 1 t₁ (.num F64.zero) v = .ok t' := (setD_zero 0 ha (.inl rfl) (.inr rfl)).trans hs
        have hfit₁ : t₁.Fits h (.num F64.zero) := .inl (by rw [arrayIdx_zero (.inl rfl) ha]; simp)
        obtain ⟨t₂, heq, st⟩ := setD_fits 0 ch₁.toWf ch₁.findable validKey_zero hfit₁ (ch₁.noStrand _) v
        obtain rfl := Except.ok.inj (heq.symm.trans hs₁)
        have hsettled : t₂.ZeroSettled := fun _ => st.asize.symm ▸ ha
        refine ⟨st.chained ch₁, fun k hk => ?_, fun _ => hsettled, fun _ => hsettled⟩
        rw [st.puts k hk, hval k hk]
        rfl
    · cases he

/-! ### Runs -/

/-- Every key equal to `k` reads `v`. -/
structure Holds (t : LuaTable) (k v : LuaValue) : Prop where
  value : t.value k.normalizeKey = v
  zero : k.IsZero → t.ZeroSettled

theorem normal_normalizeKey (k : LuaValue) : k.normalizeKey.Normal := by
  cases k with
  | num x => exact congrArg LuaValue.num (F64.normalize_normalize x)
  | _ => rfl

theorem Rawset.holds (st : Rawset h t t' k v) : t'.Holds k v :=
  ⟨(st.puts _ (normal_normalizeKey k)).trans (if_pos rfl), st.zero⟩

/-- A store to another key does not change what `k` reads. -/
theorem Holds.rawset {k' v' : LuaValue} (hk : k.Permitted) (hh : t.Holds k v) (st : Rawset h t t' k' v')
    (hk' : k'.Permitted) (hne : k'.luaEq k = false) : t'.Holds k v := by
  refine ⟨?_, fun hz => st.settled (hh.zero hz)⟩
  rw [st.puts _ (normal_normalizeKey k), if_neg, hh.value]
  intro he
  rw [LuaValue.luaEq_of_normalizeKey hk' hk he.symm] at hne
  cases hne

theorem Holds.get {k' : LuaValue} (ch : t.Chained h) (hk : k.Permitted) (hh : t.Holds k v)
    (he : k'.luaEq k = true) : t.get h k' = .ok v := by
  obtain ⟨hk', hnorm⟩ := LuaValue.normalizeKey_of_luaEq hk he
  rw [get_spec ch.toWf ch.findable, value_normalizeKey ch.toWf hk' fun hz => hh.zero ?_, hnorm, hh.value]
  exact LuaValue.IsZero.of_normalizeKey hk hnorm.symm hz

/-- Only `rawset` changes the table. -/
theorem rawCall_cases {op : RawOp} {r : RawResult} (hc : t.rawCall h op = .ok (t', r)) :
    (∃ k v, op = .rawset k v ∧ t.set h k v = .ok t') ∨ ((∀ k v, op ≠ .rawset k v) ∧ t' = t) := by
  cases op with
  | rawset k v =>
    simp only [rawCall, libRawset] at hc
    cases hs : t.set h k v with
    | error e => simp [hs, bind, Except.bind] at hc
    | ok t₁ =>
      rw [hs] at hc
      cases hc
      exact .inl ⟨k, v, rfl, hs⟩
  | rawget k =>
    simp only [rawCall, libRawget] at hc
    cases hg : t.get h k with
    | error e => simp [hg, bind, Except.bind] at hc
    | ok v =>
      rw [hg] at hc
      cases hc
      exact .inr ⟨by simp, rfl⟩
  | next k =>
    simp only [rawCall, libNext] at hc
    cases hv : t.isValidKey h k with
    | error e => simp [hv, bind, Except.bind] at hc
    | ok b =>
      simp only [hv, bind, Except.bind] at hc
      split at hc
      · cases hc
        exact .inr ⟨by simp, rfl⟩
      · cases hn : t.next h k with
        | error e => simp [hn] at hc
        | ok e =>
          simp only [hn] at hc
          cases hc
          exact .inr ⟨by simp, rfl⟩
  | rawequal a b =>
    cases hc
    exact .inr ⟨by simp, rfl⟩

theorem RawRun.chained {ops : List RawOp} (hr : RawRun h t ops t') (ch : t.Chained h) : t'.Chained h := by
  induction hr with
  | nil t => exact ch
  | cons had hc _ ih =>
    obtain ⟨k, v, rfl, hs⟩ | ⟨-, rfl⟩ := rawCall_cases hc
    · exact ih (rawset_spec ch had hs).chained
    · exact ih ch

theorem RawRun.holds {ops : List RawOp} (hr : RawRun h t ops t') (ch : t.Chained h) (hk : k.Permitted)
    (hh : t.Holds k v) (hops : ∀ k' v', RawOp.rawset k' v' ∈ ops → k'.luaEq k = false) : t'.Holds k v := by
  induction hr with
  | nil t => exact hh
  | cons had hc _ ih =>
    have hrest := fun k' v' hm => hops k' v' (List.mem_cons_of_mem _ hm)
    obtain ⟨k', v', rfl, hs⟩ | ⟨-, rfl⟩ := rawCall_cases hc
    · have st := rawset_spec ch had hs
      exact ih st.chained (hh.rawset hk st had.1 (hops k' v' (by simp))) hrest
    · exact ih ch hh hrest

/-- The value stored last under a key is read under every key equal to it. -/
theorem RawRun.get {before after : List RawOp} (hr : RawRun h t (before ++ .rawset k v :: after) t')
    (ch : t.Chained h) (hlast : ∀ k' v', RawOp.rawset k' v' ∈ after → k'.luaEq k = false) {k' : LuaValue}
    (he : k'.luaEq k = true) : t'.get h k' = .ok v := by
  induction before generalizing t with
  | nil =>
    cases hr with
    | cons had hc hrest =>
      obtain ⟨k₁, v₁, hop, hs⟩ | ⟨hop, -⟩ := rawCall_cases hc
      · cases hop
        have st := rawset_spec ch had hs
        exact (hrest.holds st.chained had.1 st.holds hlast).get (hrest.chained st.chained) had.1 he
      · exact absurd rfl (hop k v)
  | cons op before ih =>
    cases hr with
    | cons had hc hrest => exact ih hrest ((RawRun.cons had hc (.nil _)).chained ch)

/-! ### Traversal -/

open Traversal in
theorem traverse_of_inv (n : ℕ) {s : Traversal} {pos : ℕ} {ps : List ℕ} (i : Inv h t s pos ps)
    (hn : s.table.size < pos + n) : ∃ out, s.table.traverse h n s.key = .ok out := by
  induction n generalizing s pos ps with
  | zero =>
    have := i.pos_le
    omega
  | succ n ih =>
    have hnext := i.next_eq
    unfold traverse
    cases hsc : s.table.scan (s.table.size - pos) pos with
    | none =>
      rw [hsc] at hnext
      exact ⟨[], by rw [hnext]; rfl⟩
    | some e =>
      rw [hsc] at hnext
      obtain ⟨p, hp, -, -, -, i'⟩ := i.next hnext
      obtain ⟨out, hout⟩ := ih i' (show s.table.size < p + 1 + n by omega)
      refine ⟨e :: out, ?_⟩
      simp only [hnext, bind, Except.bind]
      simp only [show s.table.traverse h n e.1 = .ok out from hout]
      rfl

/-- A traversal from nil ends after at most one call more than there are slots and nodes. -/
theorem traverse_ends (ch : t.Chained h) : ∃ out, t.traverse h (t.size + 1) .nil = .ok out :=
  traverse_of_inv (t.size + 1) (Traversal.inv_start ch) (by show t.size < 0 + _; omega)

theorem permitted_hashEntries (w : t.Wf) {e : LuaValue × LuaValue} (he : e ∈ t.hashEntries) :
    e.1.Permitted := by
  obtain ⟨hne, i, hik, hiu⟩ := (mem_hashEntries w).mp he
  have hl : t.Live i := by rw [Live, hiu]; exact hne
  exact hik ▸ (w.valid i (w.keyed_of_live hl)).permitted

/-- Runs of admitted calls on a table that a program can have: no entry has the key nil or NaN, the
value stored last under a key is read under every equal key, and every traversal ends. -/
theorem rawRun_law {h : LuaValue → UInt32} {asize hbits : UInt32} {tops : List TableOp} {t t' : LuaTable}
    {ops : List RawOp} (hstart : start h asize hbits tops = .ok t) (hr : RawRun h t ops t') :
    (∀ e ∈ t'.hashEntries, e.1.Permitted) ∧
      (∀ before k v after, ops = before ++ .rawset k v :: after →
        (∀ k' v', RawOp.rawset k' v' ∈ after → k'.luaEq k = false) →
        ∀ k', k'.luaEq k = true → t'.get h k' = .ok v) ∧
      ∃ out, t'.traverse h (t'.size + 1) .nil = .ok out := by
  have hspec := start_spec h asize hbits tops
  rw [hstart] at hspec
  have ch : t.Chained h := hspec.1
  have ch' := hr.chained ch
  refine ⟨fun e he => permitted_hashEntries ch'.toWf he, ?_, traverse_ends ch'⟩
  intro before k v after hops hlast k' he
  subst hops
  exact hr.get ch hlast he

/-! A table with four array slots: a store under -0 goes to the slot 0. -/
namespace ZeroSlot

def hash : LuaValue → UInt32 := LuaValue.hashKey fun _ => 0

def table (v : LuaValue) : LuaTable := ⟨[v, .nil, .nil, .nil], [], none, 4, 0, 0, 255⟩

theorem run : RawRun hash (table .nil) [.rawset (.num F64.negZero) (.ofInt 1)] (table (.ofInt 1)) :=
  .cons ⟨⟨by simp, fun x hx => LuaValue.num.inj hx ▸ rfl⟩, fun _ => .inl (by decide)⟩ rfl (.nil _)

end ZeroSlot

/-- After a store under -0 the key 0 reads the value. -/
theorem rawRun_law_negZero : (ZeroSlot.table (.ofInt 1)).get ZeroSlot.hash (.ofInt 0) = .ok (.ofInt 1) :=
  (@rawRun_law ZeroSlot.hash 4 0 [] _ _ _ rfl ZeroSlot.run).2.1 [] _ _ [] rfl (by simp) (.ofInt 0)
    (by decide)

/-- `rawset` stores under the key nil, in an empty node. -/
theorem rawset_nil_stored : ∃ t t', start ZeroSlot.hash 0 1 [] = .ok t ∧
    t.rawCall ZeroSlot.hash (.rawset .nil (.ofInt 1)) = .ok (t', .table) ∧
    (.nil, .ofInt 1) ∈ t'.hashEntries :=
  ⟨_, _, rfl, rfl, by decide⟩

end LuaTable
end LuajitRs
