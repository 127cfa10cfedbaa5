import Mathlib.Tactic.Linarith
import LuajitRs.Runtime.Interner

/-! The representation invariant of the interner, the probe loops under it, and growth. -/
namespace LuajitRs
open Lib.Probe

namespace Interner

/-- The hash of the string at an address, where its probe sequence starts. -/
def home (pool : Pool LuaString) (a : ℕ) : ℕ := ((pool.get a).map fun s => s.hash.toNat).getD 0

/-- The table part: what holds of the interner in every run, however long. -/
structure Wf (it : Interner) : Prop where
  pool : it.pool.Wf
  sized : ∃ k, 9 ≤ k ∧ it.slots.length = 2^k
  placed : Placed (home it.pool) it.slots
  live : ∀ a, .occupied a ∈ it.slots ↔ a ∈ it.pool.objects
  hashed : ∀ a s, a ∈ it.pool.objects → it.pool.get a = some s → s.hash = strHash s.bytes
  distinct : ∀ a b s t, a ∈ it.pool.objects → b ∈ it.pool.objects → it.pool.get a = some s →
    it.pool.get b = some t → s.bytes = t.bytes → a = b
  nuse : it.nuse = used it.slots
  ndead : it.ndead = dead it.slots
  load : (it.nuse + it.ndead) * MAX_LOAD_DEN < it.slots.length * MAX_LOAD_NUM + MAX_LOAD_DEN
  freeIds : it.freeIds = []
  sid_lt : ∀ a s, a ∈ it.pool.objects → it.pool.get a = some s → s.sid.toNat < it.byId.length

/-- The id part: `byId` maps the id of a live string, and nothing else, to the string. -/
structure Ids (it : Interner) : Prop where
  byId : ∀ a s, a ∈ it.pool.objects → it.pool.get a = some s → it.byId[s.sid.toNat]? = some (some a)
  ofId : ∀ i a, it.byId[i]? = some (some a) →
    a ∈ it.pool.objects ∧ ∃ s, it.pool.get a = some s ∧ s.sid.toNat = i

/-- A live string with these bytes. -/
def Contains (it : Interner) (s : List UInt8) : Prop :=
  ∃ a ∈ it.pool.objects, ∃ str, it.pool.get a = some str ∧ str.bytes = s

section Masks
variable {slots : List (Slot ℕ)} {stop : Slot ℕ → Bool} {k n i : ℕ}

theorem and_mask (hk : slots.length = 2^k) (n : ℕ) :
    n &&& (slots.length - 1) = n % slots.length := by
  rw [hk, Nat.and_two_pow_sub_one_eq_mod]

/-- With a power of two of slots the masked loop is a scan. -/
theorem advance_of_scan (hk : slots.length = 2^k) {fuel idx : ℕ}
    (h : scan stop slots fuel idx = some i) : advance stop slots fuel idx = .ok i := by
  induction fuel generalizing idx with
  | zero => simp [scan] at h
  | succ fuel ih =>
    rw [scan] at h
    rw [advance]
    cases hs : slots[idx]? with
    | none => simp [hs] at h
    | some c =>
      simp only [hs] at h ⊢
      split_ifs at h ⊢ with hc
      · exact congrArg Except.ok (Option.some.inj h)
      · rw [and_mask hk]
        exact ih h

theorem advance_firstStop (hk : slots.length = 2^k) (h : FirstStop stop slots n i) :
    advance stop slots slots.length (n &&& (slots.length - 1)) = .ok i := by
  rw [and_mask hk]
  exact advance_of_scan hk h.scan

end Masks

section Probe
variable {heap : ℕ → Option (GcBox LuaString)} {slots : List (Slot ℕ)} {s : List UInt8}
  {hash : UInt32} {k start i : ℕ}

/-- The probe ends at its first stop: with the string that is there, or else with a vacant slot
of the probe sequence. -/
theorem probe_firstStop (hk : slots.length = 2^k)
    (h : FirstStop (probeStop heap s hash) slots start i) :
    (∃ p, slots[i]? = some (.occupied p) ∧
      probe heap slots s hash slots.length (start &&& (slots.length - 1)) none = .ok (.hit p)) ∨
    (slots[i]? = some .empty ∧ ∃ j c,
      probe heap slots s hash slots.length (start &&& (slots.length - 1)) none = .ok (.absent j) ∧
      Reaches slots start j ∧ slots[j]? = some c ∧ ¬ c.isOccupied) := by
  have hreach := h.reaches rfl
  obtain ⟨D, hD, rfl, ⟨c, hc, hstop⟩, hpath⟩ := h
  have empties : ∀ e < D, slots[(start + e) % slots.length]? ≠ some .empty :=
    fun e he hempty => hpath e he _ hempty rfl
  -- a tombstone that the loop remembers is vacant and was met before any empty slot
  suffices key : ∀ fuel d fd, d ≤ D → D - d < fuel →
      (∀ t, fd = some t → Reaches slots start t ∧ slots[t]? = some .tombstone) →
      (∃ p, slots[(start + D) % slots.length]? = some (.occupied p) ∧
        probe heap slots s hash fuel ((start + d) % slots.length) fd = .ok (.hit p)) ∨
      (slots[(start + D) % slots.length]? = some .empty ∧ ∃ j c,
        probe heap slots s hash fuel ((start + d) % slots.length) fd = .ok (.absent j) ∧
        Reaches slots start j ∧ slots[j]? = some c ∧ ¬ c.isOccupied) by
    rw [and_mask hk]
    simpa using key slots.length 0 none (Nat.zero_le _) (by omega) (by simp)
  intro fuel
  induction fuel with
  | zero => intro d _ _ hf; omega
  | succ fuel ih =>
    intro d fd hd hf hfd
    rcases Nat.lt_or_eq_of_le hd with hlt | rfl
    · obtain ⟨x, hx⟩ : ∃ x, slots[(start + d) % slots.length]? = some x :=
        ⟨_, List.getElem?_eq_getElem (Nat.mod_lt _ (by omega))⟩
      have hnext : ((start + d) % slots.length + 1) &&& (slots.length - 1) =
          (start + (d + 1)) % slots.length := by
        rw [and_mask hk, Nat.mod_add_mod, Nat.add_assoc]
      have hns := hpath d hlt x hx
      cases x with
      | empty => exact absurd rfl hns
      | tombstone =>
        simp only [probe, hx, hnext]
        apply ih (d + 1) _ hlt (by omega)
        intro t ht
        cases fd with
        | some t' => exact hfd t (by simpa using ht)
        | none =>
          obtain rfl : (start + d) % slots.length = t := by simpa using ht
          exact ⟨⟨d, by omega, rfl, fun e he => empties e (by omega)⟩, hx⟩
      | occupied p =>
        have hp : sameString heap s hash p = false := by simpa [probeStop] using hns
        simp only [probe, hx, hnext, hp]
        exact ih (d + 1) fd hlt (by omega) hfd
    · cases c with
      | empty =>
        refine .inr ⟨hc, ?_⟩
        cases fd with
        | none =>
          exact ⟨_, _, by simp [probe, hc], hreach, hc, by simp [Slot.isOccupied]⟩
        | some t =>
          obtain ⟨ht, hts⟩ := hfd t rfl
          exact ⟨t, _, by simp [probe, hc], ht, hts, by simp [Slot.isOccupied]⟩
      | tombstone => simp [probeStop] at hstop
      | occupied p =>
        have hp : sameString heap s hash p = true := by simpa [probeStop] using hstop
        exact .inl ⟨p, hc, by simp [probe, hc, hp]⟩

theorem sameString_iff {pool : Pool LuaString} {p : ℕ} :
    sameString pool.heap s hash p ↔ ∃ str, pool.get p = some str ∧ str.hash = hash ∧ str.bytes = s := by
  cases h : pool.heap p <;> simp [sameString, Pool.get, h]

end Probe

namespace Wf
variable {it : Interner}

theorem le_length (W : it.Wf) : 512 ≤ it.slots.length := by
  obtain ⟨k, h9, hk⟩ := W.sized
  calc 512 = 2^9 := by norm_num
    _ ≤ 2^k := Nat.pow_le_pow_right (by omega) h9
    _ = it.slots.length := hk.symm

theorem vacancy (W : it.Wf) : used it.slots + dead it.slots < it.slots.length := by
  have hl := W.load
  have h512 := W.le_length
  rw [W.nuse, W.ndead] at hl
  simp only [MAX_LOAD_NUM, MAX_LOAD_DEN] at hl
  omega

/-- At least one empty slot always exists. -/
theorem empty_mem (W : it.Wf) : .empty ∈ it.slots := Lib.Probe.empty_mem W.vacancy

theorem exists_get (W : it.Wf) {a : ℕ} (ha : a ∈ it.pool.objects) : ∃ s, it.pool.get a = some s :=
  W.pool.exists_get ha

theorem home_eq {pool : Pool LuaString} {a : ℕ} {s : LuaString} (h : pool.get a = some s) :
    home pool a = s.hash.toNat := by simp [home, h]

/-- The live string with given bytes is the only one that a probe for them stops at. -/
theorem sameString_iff_eq (W : it.Wf) {a p : ℕ} {s : LuaString} (ha : a ∈ it.pool.objects)
    (hs : it.pool.get a = some s) (hp : p ∈ it.pool.objects) :
    sameString it.pool.heap s.bytes s.hash p ↔ p = a := by
  rw [sameString_iff]
  constructor
  · rintro ⟨t, ht, _, hbytes⟩
    exact W.distinct p a t s hp ha ht hs hbytes
  · rintro rfl
    exact ⟨s, hs, rfl, rfl⟩

theorem firstStop (W : it.Wf) {a : ℕ} {s : LuaString} (ha : a ∈ it.pool.objects)
    (hs : it.pool.get a = some s) : ∃ i, it.slots[i]? = some (.occupied a) ∧
      FirstStop (probeStop it.pool.heap s.bytes s.hash) it.slots s.hash.toNat i := by
  obtain ⟨i, hi⟩ := List.mem_iff_getElem?.mp ((W.live a).mpr ha)
  refine ⟨i, hi, ?_⟩
  rw [← home_eq hs]
  apply W.placed.firstStop hi
  intro c hc
  cases c with
  | empty => simp [probeStop]
  | tombstone => simp [probeStop]
  | occupied p => simpa [probeStop] using W.sameString_iff_eq ha hs ((W.live p).mp hc)

/-- A probe for a live string finds it. -/
theorem probe_hit (W : it.Wf) {a : ℕ} {s : LuaString} (ha : a ∈ it.pool.objects)
    (hs : it.pool.get a = some s) :
    probe it.pool.heap it.slots s.bytes s.hash it.slots.length
      (s.hash.toNat &&& (it.slots.length - 1)) none = .ok (.hit a) := by
  obtain ⟨i, hi, hfirst⟩ := W.firstStop ha hs
  obtain ⟨k, _, hk⟩ := W.sized
  rcases probe_firstStop hk hfirst with ⟨p, hp, hres⟩ | ⟨hempty, _⟩
  · obtain rfl : a = p := by simpa using hi.symm.trans hp
    exact hres
  · simp [hi] at hempty

/-- A probe for a string that is not live ends with a vacant slot of its probe sequence. -/
theorem probe_absent (W : it.Wf) {s : List UInt8} (h : ¬ it.Contains s) (hash : UInt32) :
    ∃ j c, probe it.pool.heap it.slots s hash it.slots.length
        (hash.toNat &&& (it.slots.length - 1)) none = .ok (.absent j) ∧
      Reaches it.slots hash.toNat j ∧ it.slots[j]? = some c ∧ ¬ c.isOccupied := by
  obtain ⟨k, _, hk⟩ := W.sized
  obtain ⟨i, hfirst⟩ := exists_firstStop (probeStop it.pool.heap s hash) hash.toNat
    ⟨_, W.empty_mem, rfl⟩
  rcases probe_firstStop hk hfirst with ⟨p, hp, _⟩ | ⟨_, habsent⟩
  · obtain ⟨c, hc, hstop⟩ := hfirst.slot
    obtain rfl : Slot.occupied p = c := by simpa using hp.symm.trans hc
    obtain ⟨str, hstr, _, hbytes⟩ := sameString_iff.mp hstop
    exact absurd ⟨p, (W.live p).mp (List.mem_of_getElem? hp), str, hstr, hbytes⟩ h
  · exact habsent

end Wf

/-! ### Growth -/

section Grow
variable {pool : Pool LuaString} {k : ℕ}

/-- What `reinsert` has built so far. -/
structure Rebuilt (pool : Pool LuaString) (k : ℕ) (slots : List (Slot ℕ)) : Prop where
  length : slots.length = 2^k
  placed : Placed (home pool) slots
  dead : dead slots = 0

theorem reinsert_spec {todo slots : List (Slot ℕ)} (R : Rebuilt pool k slots)
    (hheap : ∀ a, .occupied a ∈ todo → ∃ s, pool.get a = some s)
    (hnew : ∀ a, .occupied a ∈ todo → .occupied a ∉ slots)
    (hpair : todo.Pairwise fun c d => ∀ a, c = .occupied a → d ≠ .occupied a)
    (hroom : used slots + used todo < 2^k) :
    ∃ slots', reinsert pool.heap todo slots = .ok slots' ∧ Rebuilt pool k slots' ∧
      used slots' = used slots + used todo ∧
      ∀ a, .occupied a ∈ slots' ↔ .occupied a ∈ slots ∨ .occupied a ∈ todo := by
  induction todo generalizing slots with
  | nil => exact ⟨slots, rfl, R, by simp [used], by simp⟩
  | cons c todo ih =>
    obtain ⟨hc, hpair'⟩ := List.pairwise_cons.mp hpair
    have hheap' : ∀ a, .occupied a ∈ todo → ∃ s, pool.get a = some s :=
      fun a ha => hheap a (List.mem_cons_of_mem c ha)
    have hnew' : ∀ a, .occupied a ∈ todo → .occupied a ∉ slots :=
      fun a ha => hnew a (List.mem_cons_of_mem c ha)
    cases c with
    | empty =>
      obtain ⟨slots', hrun, R', hused, hmem⟩ := ih R hheap' hnew' hpair'
        (by simpa [Slot.isOccupied] using hroom)
      exact ⟨slots', by simpa [reinsert] using hrun, R', by simpa [Slot.isOccupied] using hused,
        by simpa using hmem⟩
    | tombstone =>
      obtain ⟨slots', hrun, R', hused, hmem⟩ := ih R hheap' hnew' hpair'
        (by simpa [Slot.isOccupied] using hroom)
      exact ⟨slots', by simpa [reinsert] using hrun, R', by simpa [Slot.isOccupied] using hused,
        by simpa using hmem⟩
    | occupied p =>
      obtain ⟨s, hs⟩ := hheap p (by simp)
      obtain ⟨box, hbox, rfl⟩ : ∃ box, pool.heap p = some box ∧ box.data = s := by
        simpa [Pool.get] using hs
      have hcount : used (Slot.occupied p :: todo) = used todo + 1 := by
        simp [Slot.isOccupied]
      have hempty : .empty ∈ slots := by
        apply Lib.Probe.empty_mem
        rw [R.dead, R.length]
        omega
      obtain ⟨i, hfirst⟩ := exists_firstStop Slot.isEmpty box.data.hash.toNat ⟨_, hempty, rfl⟩
      have hadv := advance_firstStop R.length hfirst
      obtain ⟨c, hci, hstop⟩ := hfirst.slot
      obtain rfl := Slot.isEmpty_iff.mp hstop
      have hvac : ¬ (Slot.empty : Slot ℕ).isOccupied := by simp [Slot.isOccupied]
      have hreach : Reaches slots (home pool p) i := by
        rw [Wf.home_eq hs]
        exact hfirst.reaches rfl
      have R₁ : Rebuilt pool k (slots.set i (.occupied p)) :=
        ⟨by simpa using R.length, R.placed.insert hreach (hnew p (by simp)), by
          rw [dead_insert hci, R.dead]; rfl⟩
      have hused₁ := used_insert (a := p) hci hvac
      obtain ⟨slots', hrun, R', hused, hmem⟩ := ih R₁ hheap'
        (by
          intro a ha h
          rcases (occupied_mem_insert hci hvac).mp h with rfl | h
          · exact hc _ ha a rfl rfl
          · exact hnew' a ha h)
        hpair' (by omega)
      refine ⟨slots', ?_, R', by omega, ?_⟩
      · simpa [reinsert, hbox, hadv, bind, Except.bind] using hrun
      · intro a
        rw [hmem, occupied_mem_insert hci hvac]
        simp only [List.mem_cons, Slot.occupied.injEq]
        tauto

/-- A grown interner: the same strings in twice as many slots, without tombstones. -/
structure Grown (it it' : Interner) : Prop where
  wf : it'.Wf
  eq : it' = { it with slots := it'.slots, ndead := 0 }
  length : it'.slots.length = it.slots.length * 2

theorem Wf.grow {it : Interner} (W : it.Wf) : ∃ it', it.grow = .ok it' ∧ Grown it it' := by
  obtain ⟨k, h9, hk⟩ := W.sized
  have hlen : it.slots.length * 2 = 2^(k+1) := by rw [hk, pow_succ]
  have R : Rebuilt it.pool (k+1) (List.replicate (it.slots.length * 2) .empty) := by
    exact ⟨by simpa using hlen, .replicate_empty _, dead_replicate_empty _⟩
  have hzero : used (List.replicate (it.slots.length * 2) (Slot.empty : Slot ℕ)) = 0 :=
    used_replicate_empty _
  have hpair : it.slots.Pairwise fun c d => ∀ a, c = .occupied a → d ≠ .occupied a := by
    rw [List.pairwise_iff_getElem]
    intro i j hi hj hij a hci hcj
    have := W.placed.inj i j a (by rw [List.getElem?_eq_getElem hi, hci])
      (by rw [List.getElem?_eq_getElem hj, hcj])
    omega
  have hvac := W.vacancy
  obtain ⟨slots, hrun, R', hused, hmem⟩ := reinsert_spec R
    (fun a ha => W.exists_get ((W.live a).mp ha)) (by simp) hpair (by omega)
  have hlive : ∀ a, .occupied a ∈ slots ↔ a ∈ it.pool.objects := by
    intro a
    rw [hmem, ← W.live a]
    simp
  refine ⟨{ it with slots := slots, ndead := 0 }, by simp [Interner.grow, hrun, bind, Except.bind, pure, Except.pure],
    ?_, rfl, by rw [R'.length, hlen]⟩
  constructor
  · exact W.pool
  · exact ⟨k + 1, by omega, R'.length⟩
  · exact R'.placed
  · exact hlive
  · exact W.hashed
  · exact W.distinct
  · simp only [hused, hzero, W.nuse, Nat.zero_add]
  · exact R'.dead.symm
  · have hload := W.load
    simp only [R'.length, MAX_LOAD_NUM, MAX_LOAD_DEN, ← hlen, Nat.add_zero] at hload ⊢
    omega
  · exact W.freeIds
  · exact W.sid_lt

end Grow
end Interner
end LuajitRs

/-! Interning keeps the representation invariant: a live string is found and marked, and any other
string is allocated, entered into a vacant slot of its probe sequence, and given a new id. -/
namespace LuajitRs
open Lib.Probe

namespace Interner
variable {it it' : Interner} {s : List UInt8} {hash : UInt32} {slot fresh : ℕ}

/-- A slot that a string with this hash may be entered into. -/
structure Vacant (it : Interner) (hash : UInt32) (slot : ℕ) : Prop where
  reaches : Reaches it.slots hash.toNat slot
  free : ∃ c, it.slots[slot]? = some c ∧ ¬ c.isOccupied

/-- What the interner is after a new string was entered at the next address of the pool. -/
structure Inserted (it it' : Interner) (s : List UInt8) (fresh : ℕ) (sid : UInt32) : Prop where
  sid_eq : sid = UInt32.ofNat it.byId.length
  byId : it'.byId = (it.byId ++ [none]).set sid.toNat (some (it.pool.nextAddr fresh))
  pool : it'.pool = (it.pool.alloc LuaString.size ⟨sid, strHash s, s⟩ fresh).1
  emptySid : it'.emptySid = it.emptySid

/-- What the interner is after a live string was found at `p`. -/
def Marked (it it' : Interner) (p : ℕ) : Prop :=
  it' = { it with pool := it.pool.modifyHeader p GcHeader.setMarked }

namespace Inserted
variable {sid : UInt32}

theorem objects (I : Inserted it it' s fresh sid) :
    it'.pool.objects = it.pool.objects ++ [it.pool.nextAddr fresh] := by
  rw [I.pool, Pool.objects_alloc]

theorem mem_objects (I : Inserted it it' s fresh sid) {a : ℕ} :
    a ∈ it'.pool.objects ↔ a ∈ it.pool.objects ∨ a = it.pool.nextAddr fresh := by
  simp [I.objects]

theorem get_self (I : Inserted it it' s fresh sid) :
    it'.pool.get (it.pool.nextAddr fresh) = some ⟨sid, strHash s, s⟩ := by
  rw [I.pool, Pool.get_alloc_self]

theorem get_of_ne (I : Inserted it it' s fresh sid) {a : ℕ} (ha : a ≠ it.pool.nextAddr fresh) :
    it'.pool.get a = it.pool.get a := by
  rw [I.pool, Pool.get_alloc_of_ne ha]

/-- Live objects are not written by an allocation. -/
theorem get_of_mem (I : Inserted it it' s fresh sid) (W : it.pool.Wf) (hf : it.pool.Available fresh)
    {a : ℕ} (ha : a ∈ it.pool.objects) : it'.pool.get a = it.pool.get a :=
  I.get_of_ne fun h => Pool.nextAddr_not_mem W hf (h ▸ ha)

theorem length_byId (I : Inserted it it' s fresh sid) : it'.byId.length = it.byId.length + 1 := by
  simp [I.byId]

end Inserted

theorem sid_lt_length (n : ℕ) : (UInt32.ofNat n).toNat < n + 1 := by
  rw [UInt32.toNat_ofNat']
  exact Nat.lt_succ_of_le (Nat.mod_le _ _)

/-- Entering a string that is not live into a vacant slot, below the load limit. -/
theorem Wf.place (W : it.Wf) (hf : it.pool.Available fresh) (hs : ¬ it.Contains s)
    (V : it.Vacant (strHash s) slot) (hload : ¬ it.shouldGrow) :
    ∃ it' sid, it.place s (strHash s) slot fresh = .ok (it', sid) ∧ it'.Wf ∧
      Inserted it it' s fresh sid := by
  obtain ⟨c, hc, hvac⟩ := V.free
  obtain ⟨k, h9, hk⟩ := W.sized
  let sid := UInt32.ofNat it.byId.length
  let str : LuaString := ⟨sid, strHash s, s⟩
  let p := it.pool.nextAddr fresh
  let it' : Interner := { it with
    slots := it.slots.set slot (.occupied p), nuse := it.nuse + 1,
    ndead := it.ndead - if c.isTombstone then 1 else 0,
    byId := (it.byId ++ [none]).set sid.toNat (some p), freeIds := [],
    pool := (it.pool.alloc LuaString.size str fresh).1, bytes := it.bytes + str.gcSize }
  have I : Inserted it it' s fresh sid := ⟨rfl, rfl, rfl, rfl⟩
  have hrun : it.place s (strHash s) slot fresh = .ok (it', sid) := by
    have hlt : sid.toNat < (it.byId ++ [none]).length := by
      rw [List.length_append]
      exact sid_lt_length it.byId.length
    simp only [Interner.place, newId, W.freeIds, hc]
    rw [if_pos hlt, Pool.alloc_snd]
  have hp : p ∉ it.pool.objects := Pool.nextAddr_not_mem W.pool hf
  have old : ∀ a, a ∈ it.pool.objects → it'.pool.get a = it.pool.get a :=
    fun a ha => I.get_of_mem W.pool hf ha
  have new : it'.pool.get p = some str := I.get_self
  -- a live object of the new state is an old one or the new string
  have cases_mem : ∀ a, a ∈ it'.pool.objects → a ∈ it.pool.objects ∨ a = p :=
    fun a ha => I.mem_objects.mp ha
  refine ⟨it', sid, hrun, ?_, I⟩
  constructor
  · exact W.pool.alloc hf _ _
  · exact ⟨k, h9, by simpa [it'] using hk⟩
  · have hnew : .occupied p ∉ it.slots := fun h => hp ((W.live p).mp h)
    have hhome : home it'.pool p = (strHash s).toNat := Wf.home_eq new
    have hold : Placed (home it'.pool) it.slots := by
      apply W.placed.congr
      intro a ha
      simp only [home, old a ((W.live a).mp ha)]
    exact hold.insert (hhome ▸ V.reaches) hnew
  · intro a
    rw [I.mem_objects, ← W.live a, or_comm]
    exact occupied_mem_insert hc hvac
  · intro a t ha ht
    rcases cases_mem a ha with ha | rfl
    · exact W.hashed a t ha (old a ha ▸ ht)
    · obtain rfl : str = t := by simpa [new] using ht
      rfl
  · intro a b t u ha hb ht hu hbytes
    rcases cases_mem a ha with ha | rfl <;> rcases cases_mem b hb with hb | rfl
    · exact W.distinct a b t u ha hb (old a ha ▸ ht) (old b hb ▸ hu) hbytes
    · obtain rfl : str = u := by simpa [new] using hu
      exact absurd ⟨a, ha, t, old a ha ▸ ht, hbytes⟩ hs
    · obtain rfl : str = t := by simpa [new] using ht
      exact absurd ⟨b, hb, u, old b hb ▸ hu, hbytes.symm⟩ hs
    · rfl
  · simp only [it', used_insert hc hvac, W.nuse]
  · simp only [it', dead_insert hc, W.ndead]
  · have hnuse : it'.nuse = it.nuse + 1 := rfl
    have hdead : it'.ndead ≤ it.ndead := Nat.sub_le _ _
    have hlen : it'.slots.length = it.slots.length := List.length_set
    rw [shouldGrow_iff] at hload
    rw [hnuse, hlen, MAX_LOAD_NUM, MAX_LOAD_DEN]
    omega
  · rfl
  · intro a t ha ht
    rw [I.length_byId]
    rcases cases_mem a ha with ha | rfl
    · have := W.sid_lt a t ha (old a ha ▸ ht)
      omega
    · obtain rfl : str = t := by simpa [new] using ht
      exact sid_lt_length _

/-- Growing, when it happens, leaves room below the load limit and a vacant slot. -/
theorem Wf.makeRoom (W : it.Wf) (V : it.Vacant hash slot) :
    ∃ it₁ slot₁, it.makeRoom hash slot = .ok (it₁, slot₁) ∧ it₁.Wf ∧ it₁.Vacant hash slot₁ ∧
      ¬ it₁.shouldGrow ∧ it₁ = { it with slots := it₁.slots, ndead := it₁.ndead } := by
  cases hgrow : it.shouldGrow with
  | false => exact ⟨it, slot, by simp [Interner.makeRoom, hgrow], W, V, by simp [hgrow], rfl⟩
  | true =>
    obtain ⟨it₁, hrun, G⟩ := W.grow
    obtain ⟨k, _, hk⟩ := G.wf.sized
    let stop : Slot ℕ → Bool := fun c => c.isEmpty || c.isTombstone
    obtain ⟨i, hfirst⟩ := exists_firstStop stop hash.toNat ⟨_, G.wf.empty_mem, rfl⟩
    have hadv := advance_firstStop hk hfirst
    obtain ⟨c, hc, hstop⟩ := hfirst.slot
    have hvac : ¬ c.isOccupied := by
      cases c <;> simp_all [stop, Slot.isEmpty, Slot.isTombstone, Slot.isOccupied]
    have heq := G.eq
    refine ⟨it₁, i, ?_, G.wf, ⟨hfirst.reaches rfl, c, hc, hvac⟩, ?_, ?_⟩
    · simp only [Interner.makeRoom, hgrow, hrun, if_true, bind, Except.bind, stop] at hadv ⊢
      rw [hadv]
      rfl
    · have hload := W.load
      have hnuse : it₁.nuse = it.nuse := by rw [heq]
      have hdead : it₁.ndead = 0 := by rw [heq]
      have hlen := G.length
      have h512 := W.le_length
      rw [shouldGrow_iff, hnuse, hdead, hlen]
      rw [MAX_LOAD_NUM, MAX_LOAD_DEN] at hload
      omega
    · rw [heq]

theorem Wf.insertNew (W : it.Wf) (hf : it.pool.Available fresh) (hs : ¬ it.Contains s)
    (V : it.Vacant (strHash s) slot) :
    ∃ it' sid, it.insertNew s (strHash s) slot fresh = .ok (it', sid) ∧ it'.Wf ∧
      Inserted it it' s fresh sid := by
  obtain ⟨it₁, slot₁, hroom, W₁, V₁, hload, heq⟩ := W.makeRoom V
  have hpool : it₁.pool = it.pool := by rw [heq]
  have hids : it₁.byId = it.byId := by rw [heq]
  obtain ⟨it', sid, hrun, W', I⟩ := W₁.place (hpool.symm ▸ hf) (by rwa [Contains, hpool]) V₁ hload
  refine ⟨it', sid, ?_, W', ?_⟩
  · simpa [Interner.insertNew, hroom, bind, Except.bind] using hrun
  · exact ⟨by rw [← hids]; exact I.sid_eq, by rw [← hids, ← hpool]; exact I.byId,
      by rw [← hpool]; exact I.pool, by rw [I.emptySid, heq]⟩

/-- Headers and the byte count are not part of the invariant. -/
theorem Wf.withPool (W : it.Wf) {pool : Pool LuaString} {n : ℕ} (hp : pool.Wf)
    (ho : pool.objects = it.pool.objects) (hg : pool.get = it.pool.get) :
    ({ it with pool := pool, bytes := n } : Interner).Wf where
  pool := hp
  sized := W.sized
  placed := by
    have hhome : home pool = home it.pool := by
      funext a
      simp only [home, hg]
    exact hhome ▸ W.placed
  live := by
    intro a
    exact ho ▸ W.live a
  hashed := by simpa only [ho, hg] using W.hashed
  distinct := by simpa only [ho, hg] using W.distinct
  nuse := W.nuse
  ndead := W.ndead
  load := W.load
  freeIds := W.freeIds
  sid_lt := by simpa only [ho, hg] using W.sid_lt

theorem Wf.modifyHeader (W : it.Wf) (p : ℕ) (f : GcHeader → GcHeader) :
    ({ it with pool := it.pool.modifyHeader p f } : Interner).Wf :=
  W.withPool (W.pool.modifyHeader p f) rfl (Pool.get_modifyHeader _ _ _)

/-- `intern` of a live string returns its id. -/
theorem Wf.intern_hit (W : it.Wf) {a : ℕ} {str : LuaString} (ha : a ∈ it.pool.objects)
    (hs : it.pool.get a = some str) (fresh : ℕ) :
    ∃ it', it.intern str.bytes fresh = .ok (it', str.sid) ∧ it'.Wf ∧ Marked it it' a := by
  refine ⟨_, ?_, W.modifyHeader a GcHeader.setMarked, rfl⟩
  rw [intern, internWithHash, ← W.hashed a str ha hs, W.probe_hit ha hs]
  simp only [hs]

/-- `intern` of any other string enters it. -/
theorem Wf.intern_new (W : it.Wf) (hs : ¬ it.Contains s) (hf : it.pool.Available fresh) :
    ∃ it' sid, it.intern s fresh = .ok (it', sid) ∧ it'.Wf ∧ Inserted it it' s fresh sid := by
  obtain ⟨j, c, hprobe, hreach, hj, hvac⟩ := W.probe_absent hs (strHash s)
  obtain ⟨it', sid, hrun, W', I⟩ := W.insertNew hf hs ⟨hreach, c, hj, hvac⟩
  refine ⟨it', sid, ?_, W', I⟩
  rw [intern, internWithHash, hprobe]
  exact hrun

/-! ### Ids -/

/-- The id table stays right if no live string has the id of the new one. -/
theorem Ids.insert (D : it.Ids) (W : it.Wf) (hf : it.pool.Available fresh) {sid : UInt32}
    (I : Inserted it it' s fresh sid)
    (hnew : ∀ a t, a ∈ it.pool.objects → it.pool.get a = some t → t.sid ≠ sid) : it'.Ids := by
  have hlt : sid.toNat < (it.byId ++ [none]).length := by
    rw [List.length_append, List.length_singleton, I.sid_eq]
    exact sid_lt_length _
  have hne {t : LuaString} (hsid : t.sid ≠ sid) : sid.toNat ≠ t.sid.toNat := fun h => hsid (UInt32.toNat_inj.mp h.symm)
  constructor
  · intro a t ha ht
    rw [I.byId]
    rcases I.mem_objects.mp ha with ha | rfl
    · rw [I.get_of_mem W.pool hf ha] at ht
      rw [List.getElem?_set_ne (hne (hnew a t ha ht)), List.getElem?_append_left (W.sid_lt a t ha ht)]
      exact D.byId a t ha ht
    · obtain rfl : ⟨sid, strHash s, s⟩ = t := by simpa [I.get_self] using ht
      rw [List.getElem?_set_self hlt]
  · intro i a hi
    rw [I.byId, List.getElem?_set] at hi
    split_ifs at hi with hsid
    · obtain rfl : it.pool.nextAddr fresh = a := by simpa using hi
      exact ⟨I.mem_objects.mpr (.inr rfl), _, I.get_self, hsid⟩
    · rcases Nat.lt_or_ge i it.byId.length with hlt | hge
      · rw [List.getElem?_append_left hlt] at hi
        obtain ⟨ha, t, ht, hti⟩ := D.ofId i a hi
        exact ⟨I.mem_objects.mpr (.inl ha), t, by rw [I.get_of_mem W.pool hf ha, ht], hti⟩
      · rw [List.getElem?_append_right hge, List.getElem?_singleton] at hi
        split_ifs at hi
        cases hi

/-- A new string gets a fresh id as long as the ids are not exhausted. -/
theorem Ids.inserted (D : it.Ids) (W : it.Wf) (hf : it.pool.Available fresh) {sid : UInt32}
    (I : Inserted it it' s fresh sid) (hlt : it.byId.length < 2^32) : it'.Ids := by
  refine D.insert W hf I fun a t ha ht hsid => ?_
  have := W.sid_lt a t ha ht
  rw [hsid, I.sid_eq, UInt32.toNat_ofNat', Nat.mod_eq_of_lt hlt] at this
  exact lt_irrefl _ this

theorem Ids.withPool (D : it.Ids) {pool : Pool LuaString} {n : ℕ}
    (ho : pool.objects = it.pool.objects) (hg : pool.get = it.pool.get) :
    ({ it with pool := pool, bytes := n } : Interner).Ids :=
  ⟨by simpa only [ho, hg] using D.byId, by simpa only [ho, hg] using D.ofId⟩

end Interner
end LuajitRs
