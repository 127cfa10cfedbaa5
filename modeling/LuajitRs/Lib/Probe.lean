import Mathlib.Data.Nat.ModEq
import Mathlib.Data.Nat.Find
import Mathlib.Data.List.Basic

/-! Open addressing with linear probing and tombstones. A table is a list of slots; `Placed` says
that no element is stored twice and that probing from the home of a stored element meets it before
any empty slot. Storing into a vacant slot of the probe sequence and erasing to a tombstone keep
this, and a scan that stops at an empty slot always ends. -/
namespace LuajitRs.Lib.Probe

/-- A slot of an open-addressed table. -/
inductive Slot (α : Type*)
  | empty
  | tombstone
  | occupied (a : α)
  deriving DecidableEq, Repr

namespace Slot
variable {α : Type*}

def isEmpty : Slot α → Bool
  | empty => true
  | _ => false
def isTombstone : Slot α → Bool
  | tombstone => true
  | _ => false
def isOccupied : Slot α → Bool
  | occupied _ => true
  | _ => false

theorem isEmpty_iff {c : Slot α} : c.isEmpty ↔ c = empty := by cases c <;> simp [isEmpty]
end Slot
open Slot

variable {α : Type*} {s : List (Slot α)} {stop : Slot α → Bool} {start i j : ℕ} {a b : α}

/-! ### Probe sequences -/

/-- Probing from `start` meets slot `i` before any empty slot. -/
def Reaches (s : List (Slot α)) (start i : ℕ) : Prop :=
  ∃ d < s.length, i = (start + d) % s.length ∧ ∀ e < d, s[(start + e) % s.length]? ≠ some .empty

/-- Slot `i` is the first one of the probe sequence from `start` that satisfies `stop`. -/
def FirstStop (stop : Slot α → Bool) (s : List (Slot α)) (start i : ℕ) : Prop :=
  ∃ d < s.length, i = (start + d) % s.length ∧ (∃ c, s[i]? = some c ∧ stop c) ∧
    ∀ e < d, ∀ c, s[(start + e) % s.length]? = some c → ¬ stop c

/-- Filling a slot, or putting a tombstone there, opens no gap in a probe sequence. -/
theorem Reaches.set {c : Slot α} (h : Reaches s start i) (hc : c ≠ .empty) :
    Reaches (s.set j c) start i := by
  obtain ⟨d, hd, hi, hpath⟩ := h
  refine ⟨d, by simpa using hd, by simpa using hi, ?_⟩
  intro e he
  rw [List.length_set, List.getElem?_set]
  split_ifs <;> simp_all

theorem FirstStop.reaches (h : FirstStop stop s start i) (hstop : stop .empty) :
    Reaches s start i := by
  obtain ⟨d, hd, hi, _, hpath⟩ := h
  exact ⟨d, hd, hi, fun e he hempty => hpath e he _ hempty hstop⟩

theorem FirstStop.slot (h : FirstStop stop s start i) : ∃ c, s[i]? = some c ∧ stop c := by
  obtain ⟨_, _, _, hslot, _⟩ := h
  exact hslot

/-- A probe sequence visits every slot. -/
theorem exists_offset (hi : i < s.length) (start : ℕ) :
    ∃ d < s.length, (start + d) % s.length = i := by
  refine ⟨(i + s.length - start % s.length) % s.length, Nat.mod_lt _ (by omega), ?_⟩
  have hlt : start % s.length < s.length := Nat.mod_lt _ (by omega)
  rw [Nat.add_mod_mod, ← Nat.mod_add_mod]
  rw [show start % s.length + (i + s.length - start % s.length) = i + s.length by omega]
  simp [Nat.mod_eq_of_lt hi]

/-- Two offsets below the length that lead to one slot are equal. -/
theorem offset_inj {d e : ℕ} (hd : d < s.length) (he : e < s.length)
    (h : (start + d) % s.length = (start + e) % s.length) : d = e := by
  have h' : d ≡ e [MOD s.length] := Nat.ModEq.add_left_cancel' start h
  exact Nat.ModEq.eq_of_lt_of_lt h' hd he

theorem exists_firstStop (stop : Slot α → Bool) (start : ℕ) (h : ∃ c ∈ s, stop c) : ∃ i, FirstStop stop s start i := by
  classical
  obtain ⟨c, hc, hstop⟩ := h
  obtain ⟨i, hi, hic⟩ := List.getElem_of_mem hc
  have hex : ∃ d, d < s.length ∧ ∃ c, s[(start + d) % s.length]? = some c ∧ stop c := by
    obtain ⟨d, hd, hdi⟩ := exists_offset hi start
    exact ⟨d, hd, c, by rw [hdi, List.getElem?_eq_getElem hi, hic], hstop⟩
  have hfirst := Nat.find_spec hex
  refine ⟨_, Nat.find hex, hfirst.1, rfl, hfirst.2, ?_⟩
  intro e he c hc hs
  exact Nat.find_min hex he ⟨by omega, c, hc, hs⟩

/-! ### Scanning -/

/-- Follow the probe sequence from slot `i` to the first slot that satisfies `stop`. -/
def scan (stop : Slot α → Bool) (s : List (Slot α)) : ℕ → ℕ → Option ℕ
  | 0, _ => none
  | k+1, i =>
    match s[i]? with
    | none => none
    | some c => if stop c then some i else scan stop s k ((i + 1) % s.length)

/-- A scan with as much fuel as there are slots finds the first stop. -/
theorem FirstStop.scan (h : FirstStop stop s start i) :
    scan stop s s.length (start % s.length) = some i := by
  obtain ⟨D, hD, rfl, ⟨c, hc, hstop⟩, hpath⟩ := h
  suffices key : ∀ k d, d ≤ D → D - d < k →
      Probe.scan stop s k ((start + d) % s.length) = some ((start + D) % s.length) by
    simpa using key s.length 0 (Nat.zero_le _) (by omega)
  intro k
  induction k with
  | zero => intro d _ hk; omega
  | succ k ih =>
    intro d hd hk
    obtain ⟨x, hx⟩ : ∃ x, s[(start + d) % s.length]? = some x :=
      ⟨_, List.getElem?_eq_getElem (Nat.mod_lt _ (by omega))⟩
    rcases Nat.lt_or_eq_of_le hd with hlt | rfl
    · have hnext : ((start + d) % s.length + 1) % s.length = (start + (d + 1)) % s.length := by
        rw [Nat.mod_add_mod, Nat.add_assoc]
      simp only [Probe.scan, hx, hpath d hlt x hx, hnext]
      exact ih (d + 1) hlt (by omega)
    · simp only [Probe.scan, hc, hstop, if_true]

/-! ### Placement -/

/-- No element is stored twice, and each one is met from its home before any empty slot. -/
structure Placed (home : α → ℕ) (s : List (Slot α)) : Prop where
  inj : ∀ (i j : ℕ) (a : α), s[i]? = some (.occupied a) → s[j]? = some (.occupied a) → i = j
  reaches : ∀ (i : ℕ) (a : α), s[i]? = some (.occupied a) → Reaches s (home a) i

section Placed
variable {home home' : α → ℕ}

theorem Placed.congr (P : Placed home s) (h : ∀ a, .occupied a ∈ s → home' a = home a) :
    Placed home' s where
  inj := P.inj
  reaches i a hi := by
    rw [h a (List.mem_of_getElem? hi)]
    exact P.reaches i a hi

theorem Placed.replicate_empty (n : ℕ) : Placed home (List.replicate n .empty) where
  inj i j a hi := by simp [List.getElem?_replicate] at hi
  reaches i a hi := by simp [List.getElem?_replicate] at hi

/-- A scan from the home of a stored element that stops only there or at an empty slot. -/
theorem Placed.firstStop (P : Placed home s) (hi : s[i]? = some (.occupied a))
    (hstop : ∀ c ∈ s, stop c ↔ c = .empty ∨ c = .occupied a) :
    FirstStop stop s (home a) i := by
  obtain ⟨d, hd, rfl, hpath⟩ := P.reaches i a hi
  refine ⟨d, hd, rfl, ⟨_, hi, (hstop _ (List.mem_of_getElem? hi)).mpr (.inr rfl)⟩, ?_⟩
  intro e he c hc hs
  rcases (hstop c (List.mem_of_getElem? hc)).mp hs with rfl | rfl
  · exact hpath e he hc
  · have := offset_inj (by omega) hd (P.inj _ _ a hc hi)
    omega

/-- What an insertion leaves in a slot. -/
theorem of_insert (h : (s.set i (.occupied a))[j]? = some (.occupied b)) :
    i = j ∧ a = b ∨ i ≠ j ∧ s[j]? = some (.occupied b) := by
  rw [List.getElem?_set] at h
  split_ifs at h with hij hlt
  · exact .inl ⟨hij, by simpa using h⟩
  · exact .inr ⟨hij, h⟩

/-- What an erasure leaves in a slot. -/
theorem of_erase (h : (s.set i .tombstone)[j]? = some (.occupied b)) :
    i ≠ j ∧ s[j]? = some (.occupied b) := by
  rw [List.getElem?_set] at h
  split_ifs at h with hij hlt
  · simp at h
  · exact ⟨hij, h⟩

theorem Placed.insert (P : Placed home s) (hi : Reaches s (home a) i) (ha : .occupied a ∉ s) :
    Placed home (s.set i (.occupied a)) where
  inj j k b hj hk := by
    have fresh : ∀ j : ℕ, s[j]? ≠ some (.occupied a) := fun j hj => ha (List.mem_of_getElem? hj)
    rcases of_insert hj with ⟨rfl, rfl⟩ | ⟨_, hj'⟩ <;> rcases of_insert hk with ⟨rfl, hab⟩ | ⟨_, hk'⟩
    · rfl
    · exact absurd hk' (fresh k)
    · exact absurd hj' (hab ▸ fresh j)
    · exact P.inj j k b hj' hk'
  reaches j b hj := by
    apply Reaches.set _ (by simp)
    rcases of_insert hj with ⟨rfl, rfl⟩ | ⟨_, hj'⟩
    · exact hi
    · exact P.reaches j b hj'

theorem Placed.erase (P : Placed home s) : Placed home (s.set i .tombstone) where
  inj j k b hj hk := P.inj j k b (of_erase hj).2 (of_erase hk).2
  reaches j b hj := (P.reaches j b (of_erase hj).2).set (by simp)

end Placed

/-! ### Contents and counters -/

theorem occupied_mem_insert {c : Slot α} (hi : s[i]? = some c) (hc : ¬ c.isOccupied) :
    .occupied b ∈ s.set i (.occupied a) ↔ b = a ∨ .occupied b ∈ s := by
  have hlt : i < s.length := (List.getElem?_eq_some_iff.mp hi).1
  constructor
  · intro h
    obtain ⟨j, hj⟩ := List.mem_iff_getElem?.mp h
    rcases of_insert hj with ⟨_, rfl⟩ | ⟨_, hj'⟩
    · exact .inl rfl
    · exact .inr (List.mem_of_getElem? hj')
  · rintro (rfl | h)
    · exact List.mem_of_getElem? (i := i) (by simp [hlt])
    · obtain ⟨j, hj⟩ := List.mem_iff_getElem?.mp h
      have hij : i ≠ j := by
        rintro rfl
        exact hc (by simp [Option.some.inj (hi.symm.trans hj), isOccupied])
      exact List.mem_of_getElem? (i := j) (by rw [List.getElem?_set_ne hij, hj])

theorem Placed.occupied_mem_erase {home : α → ℕ} (P : Placed home s)
    (hi : s[i]? = some (.occupied a)) :
    .occupied b ∈ s.set i .tombstone ↔ .occupied b ∈ s ∧ b ≠ a := by
  constructor
  · intro h
    obtain ⟨j, hj⟩ := List.mem_iff_getElem?.mp h
    obtain ⟨hij, hj'⟩ := of_erase hj
    refine ⟨List.mem_of_getElem? hj', ?_⟩
    rintro rfl
    exact hij (P.inj i j b hi hj')
  · rintro ⟨h, hne⟩
    obtain ⟨j, hj⟩ := List.mem_iff_getElem?.mp h
    have hij : i ≠ j := by
      rintro rfl
      exact hne (by simpa using hj.symm.trans hi)
    exact List.mem_of_getElem? (i := j) (by rw [List.getElem?_set_ne hij, hj])

/-- The number of occupied slots. -/
def used (s : List (Slot α)) : ℕ := s.countP isOccupied

/-- The number of tombstones. -/
def dead (s : List (Slot α)) : ℕ := s.countP isTombstone

@[simp] theorem used_cons (c : Slot α) (s : List (Slot α)) :
    used (c :: s) = used s + if c.isOccupied then 1 else 0 := List.countP_cons

@[simp] theorem dead_cons (c : Slot α) (s : List (Slot α)) :
    dead (c :: s) = dead s + if c.isTombstone then 1 else 0 := List.countP_cons

@[simp] theorem used_replicate_empty (n : ℕ) : used (List.replicate n (.empty : Slot α)) = 0 := by
  simp [used, List.countP_replicate, isOccupied]

@[simp] theorem dead_replicate_empty (n : ℕ) : dead (List.replicate n (.empty : Slot α)) = 0 := by
  simp [dead, List.countP_replicate, isTombstone]

theorem used_add_dead_add_empty (s : List (Slot α)) :
    used s + dead s + s.countP isEmpty = s.length := by
  induction s with
  | nil => rfl
  | cons c s ih =>
    simp only [used_cons, dead_cons, List.countP_cons, List.length_cons] at ih ⊢
    cases c <;> simp [isOccupied, isTombstone, isEmpty] <;> omega

/-- A table that is not full of elements and tombstones has an empty slot. -/
theorem empty_mem (h : used s + dead s < s.length) : .empty ∈ s := by
  have hpos : 0 < s.countP isEmpty := by
    have := used_add_dead_add_empty s
    omega
  obtain ⟨c, hc, hempty⟩ := List.countP_pos_iff.mp hpos
  exact isEmpty_iff.mp hempty ▸ hc

theorem used_insert {c : Slot α} (hi : s[i]? = some c) (hc : ¬ c.isOccupied) :
    used (s.set i (.occupied a)) = used s + 1 := by
  obtain ⟨hlt, rfl⟩ := List.getElem?_eq_some_iff.mp hi
  rw [used, List.countP_set hlt, if_neg hc]
  simp [used, isOccupied]

theorem dead_insert {c : Slot α} (hi : s[i]? = some c) :
    dead (s.set i (.occupied a)) = dead s - if c.isTombstone then 1 else 0 := by
  obtain ⟨hlt, rfl⟩ := List.getElem?_eq_some_iff.mp hi
  simp [dead, List.countP_set, hlt, isTombstone]

theorem used_pos (hi : s[i]? = some (.occupied a)) : 0 < used s :=
  List.countP_pos_iff.mpr ⟨_, List.mem_of_getElem? hi, rfl⟩

theorem used_erase (hi : s[i]? = some (.occupied a)) :
    used (s.set i .tombstone) = used s - 1 := by
  obtain ⟨hlt, hs⟩ := List.getElem?_eq_some_iff.mp hi
  simp [used, List.countP_set, hlt, hs, isOccupied]

theorem dead_erase (hi : s[i]? = some (.occupied a)) :
    dead (s.set i .tombstone) = dead s + 1 := by
  obtain ⟨hlt, hs⟩ := List.getElem?_eq_some_iff.mp hi
  simp [dead, List.countP_set, hlt, hs, isTombstone]

end LuajitRs.Lib.Probe
