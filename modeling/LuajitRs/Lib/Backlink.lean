import Mathlib.Data.List.Range
import Mathlib.Data.List.Sort

/-! Chains threaded backwards through a log. Every entry of a kind stores a link to the last entry of the kind
before it, and a head stores a link to the last one of all. Appending, taking back the last entry and unlinking
an entry keep the chain, and following the links lists the entries of the kind from the last one down. -/
namespace LuajitRs.Lib.Backlink

/-! ### The last place before another -/

/-- The last place before `n` where `p` holds. -/
def latest (p : ℕ → Bool) : ℕ → Option ℕ
  | 0 => none
  | n+1 => if p n then some n else latest p n

/-- The places before `n` where `p` holds, from the last one down. -/
def places (p : ℕ → Bool) (n : ℕ) : List ℕ := ((List.range n).filter p).reverse

section Latest
variable {p q : ℕ → Bool} {n m i r : ℕ}

theorem latest_succ_of (h : p n = true) : latest p (n + 1) = some n := by rw [latest, if_pos h]

theorem latest_succ_of_not (h : p n = false) : latest p (n + 1) = latest p n := by simp [latest, h]

theorem latest_congr (h : ∀ i, i < n → q i = p i) : latest q n = latest p n := by
  induction n with
  | zero => rfl
  | succ n ih => rw [latest, latest, h n (Nat.lt_succ_self n), ih fun i hi => h i (Nat.lt_succ_of_lt hi)]

theorem latest_some (h : latest p n = some m) : m < n ∧ p m = true := by
  induction n with
  | zero => cases h
  | succ n ih =>
    rw [latest] at h
    split at h
    · next hp =>
      obtain rfl := Option.some.inj h
      exact ⟨Nat.lt_succ_self _, hp⟩
    · obtain ⟨hlt, hp⟩ := ih h
      exact ⟨Nat.lt_succ_of_lt hlt, hp⟩

/-- No place between is passed over. -/
theorem latest_between (h : latest p n = some m) (hm : m < i) (hi : i < n) : p i = false := by
  induction n with
  | zero => cases h
  | succ n ih =>
    rw [latest] at h
    split at h
    · obtain rfl := Option.some.inj h
      omega
    · next hp =>
      rcases Nat.lt_succ_iff_lt_or_eq.mp hi with hlt | rfl
      · exact ih h hlt
      · exact Bool.not_eq_true _ ▸ hp

theorem latest_none (h : latest p n = none) (hi : i < n) : p i = false := by
  induction n with
  | zero => cases hi
  | succ n ih =>
    rw [latest] at h
    split at h
    · cases h
    · next hp =>
      rcases Nat.lt_succ_iff_lt_or_eq.mp hi with hlt | rfl
      · exact ih h hlt
      · exact Bool.not_eq_true _ ▸ hp

/-- The last place is found from what lies behind it. -/
theorem latest_eq_some (hm : m < n) (hp : p m = true) (hb : ∀ i, m < i → i < n → p i = false) :
    latest p n = some m := by
  induction n with
  | zero => cases hm
  | succ n ih =>
    rcases Nat.lt_succ_iff_lt_or_eq.mp hm with hlt | rfl
    · rw [latest_succ_of_not (hb n hlt (Nat.lt_succ_self n))]
      exact ih hlt fun i h h' => hb i h (Nat.lt_succ_of_lt h')
    · exact latest_succ_of hp

/-- Without the place `r`, what pointed there points to the place before it. -/
theorem latest_erase (h : ∀ i, i < n → q i = (p i && i != r)) :
    latest q n = if latest p n = some r then latest p r else latest p n := by
  induction n with
  | zero => rfl
  | succ n ih =>
    have hn := h n (Nat.lt_succ_self n)
    have ih := ih fun i hi => h i (Nat.lt_succ_of_lt hi)
    cases hp : p n with
    | false => rw [latest_succ_of_not hp, latest_succ_of_not (by rw [hn, hp]; rfl), ih]
    | true =>
      rw [latest_succ_of hp]
      by_cases hr : n = r
      · subst hr
        rw [if_pos rfl, latest_succ_of_not (by simp [hn])]
        refine latest_congr fun i hi => ?_
        simp [h i (Nat.lt_succ_of_lt hi), Nat.ne_of_lt hi]
      · rw [latest_succ_of (by simp [hn, hp, hr]), if_neg fun h => hr (Option.some.inj h)]

theorem places_succ (p : ℕ → Bool) (n : ℕ) :
    places p (n + 1) = if p n then n :: places p n else places p n := by
  rw [places, places, List.range_succ, List.filter_append, List.reverse_append]
  cases hp : p n <;> simp [hp]

theorem places_eq (p : ℕ → Bool) (n : ℕ) :
    places p n = match latest p n with
      | none => []
      | some m => m :: places p m := by
  induction n with
  | zero => rfl
  | succ n ih =>
    rw [places_succ, latest]
    split
    · rfl
    · exact ih

theorem mem_places : i ∈ places p n ↔ i < n ∧ p i = true := by simp [places]

theorem pairwise_places (p : ℕ → Bool) (n : ℕ) : (places p n).Pairwise (· > ·) := by
  rw [places, List.pairwise_reverse]
  exact List.pairwise_lt_range.filter p

theorem length_places_le (p : ℕ → Bool) (n : ℕ) : (places p n).length ≤ n := by
  rw [places, List.length_reverse]
  exact (List.length_filter_le _ _).trans_eq List.length_range

theorem places_congr (h : ∀ i, i < n → q i = p i) : places q n = places p n := by
  rw [places, places, List.filter_congr fun i hi => h i (List.mem_range.mp hi)]

/-- Among the places, from the last one down, the first that passes a test is the last one that does. -/
theorem find?_places (p q : ℕ → Bool) (n : ℕ) : (places p n).find? q = latest (fun i => p i && q i) n := by
  induction n with
  | zero => rfl
  | succ n ih =>
    rw [places_succ, latest]
    cases hp : p n <;> cases hq : q n <;> simp [hq, ih]

end Latest

/-! ### Following links -/

variable {ρ : Type*}

/-- The links from `r` lead through the list to the end. -/
inductive Walk (next : ρ → Option ρ) (nil : ρ) : ρ → List ρ → Prop
  | nil : Walk next nil nil []
  | cons {r r' : ρ} {l : List ρ} (hr : r ≠ nil) (hn : next r = some r') (h : Walk next nil r' l) :
      Walk next nil r (r :: l)

theorem Walk.unique {next : ρ → Option ρ} {nil r : ρ} {l l' : List ρ} (h : Walk next nil r l)
    (h' : Walk next nil r l') : l' = l := by
  induction h generalizing l' with
  | nil =>
    cases h' with
    | nil => rfl
    | cons hr => exact absurd rfl hr
  | cons hr hn _ ih =>
    cases h' with
    | nil => exact absurd rfl hr
    | cons _ hn' h' =>
      rw [hn, Option.some.injEq] at hn'
      subst hn'
      rw [ih h']

/-! ### Threaded logs -/

/-- The head and the links of the entries before `n` point to the last entries before them. -/
structure Threaded (ref : Option ℕ → ρ) (p : ℕ → Bool) (prev : ℕ → ρ) (n : ℕ) (head : ρ) : Prop where
  head_eq : head = ref (latest p n)
  prev_eq : ∀ i, i < n → p i = true → prev i = ref (latest p i)

namespace Threaded
variable {ref : Option ℕ → ρ} {p q : ℕ → Bool} {prev prev' : ℕ → ρ} {n r : ℕ} {head head' : ρ}

theorem empty : Threaded ref p prev 0 (ref none) := ⟨rfl, fun i hi => absurd hi (Nat.not_lt_zero i)⟩

theorem congr (h : Threaded ref p prev n head) (hq : ∀ i, i < n → q i = p i)
    (hprev : ∀ i, i < n → p i = true → prev' i = prev i) : Threaded ref q prev' n head := by
  refine ⟨by rw [h.head_eq, latest_congr hq], fun i hi hqi => ?_⟩
  have hpi : p i = true := hq i hi ▸ hqi
  rw [hprev i hi hpi, h.prev_eq i hi hpi, latest_congr fun j hj => hq j (hj.trans hi)]

/-- An entry of the kind is appended and linked to the head. -/
theorem push (h : Threaded ref p prev n head) (hn : p n = true) (hl : prev n = head) :
    Threaded ref p prev (n + 1) (ref (some n)) := by
  refine ⟨by rw [latest_succ_of hn], fun i hi hpi => ?_⟩
  rcases Nat.lt_succ_iff_lt_or_eq.mp hi with hlt | rfl
  · exact h.prev_eq i hlt hpi
  · rw [hl, h.head_eq]

/-- An entry of another kind is appended. -/
theorem pushOther (h : Threaded ref p prev n head) (hn : p n = false) : Threaded ref p prev (n + 1) head := by
  refine ⟨by rw [h.head_eq, latest_succ_of_not hn], fun i hi hpi => ?_⟩
  rcases Nat.lt_succ_iff_lt_or_eq.mp hi with hlt | rfl
  · exact h.prev_eq i hlt hpi
  · rw [hn] at hpi
    cases hpi

/-- The last entry is taken back; the head becomes its link. -/
theorem pop (h : Threaded ref p prev (n + 1) head) (hn : p n = true) : Threaded ref p prev n (prev n) :=
  ⟨h.prev_eq n (Nat.lt_succ_self n) hn, fun i hi => h.prev_eq i (Nat.lt_succ_of_lt hi)⟩

theorem popOther (h : Threaded ref p prev (n + 1) head) (hn : p n = false) : Threaded ref p prev n head :=
  ⟨by rw [h.head_eq, latest_succ_of_not hn], fun i hi => h.prev_eq i (Nat.lt_succ_of_lt hi)⟩

/-- An entry is unlinked: what pointed to it gets its link. -/
theorem unlink (h : Threaded ref p prev n head) (hr : r < n) (hp : p r = true)
    (hq : ∀ i, i < n → q i = (p i && i != r))
    (hprev : ∀ i, i < n → p i = true → i ≠ r → prev' i = if latest p i = some r then prev r else prev i)
    (hhead : head' = if latest p n = some r then prev r else head) : Threaded ref q prev' n head' := by
  refine ⟨?_, fun i hi hqi => ?_⟩
  · rw [hhead, latest_erase hq, h.head_eq, h.prev_eq r hr hp]
    split <;> rfl
  · rw [hq i hi, Bool.and_eq_true, bne_iff_ne] at hqi
    obtain ⟨hpi, hne⟩ := hqi
    rw [hprev i hi hpi hne, latest_erase fun j hj => hq j (hj.trans hi), h.prev_eq i hi hpi, h.prev_eq r hr hp]
    split <;> rfl

/-- An entry behind the last one of the kind becomes one of the kind and is linked to the head. -/
theorem activate (h : Threaded ref p prev n head) (hr : r < n) (hlast : ∀ i, r ≤ i → i < n → p i = false)
    (hq : ∀ i, i < n → q i = (p i || i == r)) (hprev : ∀ i, i < n → p i = true → prev' i = prev i)
    (hlink : prev' r = head) : Threaded ref q prev' n (ref (some r)) := by
  have hbelow {i : ℕ} (hi : i ≤ r) : latest q i = latest p i :=
    latest_congr fun j hj => by simp [hq j (by omega), show j ≠ r by omega]
  have habove {i : ℕ} (hi : i ≤ n) (hri : r ≤ i) : latest p i = latest p r := by
    induction i with
    | zero => rw [Nat.le_zero.mp hri]
    | succ i ih =>
      obtain rfl | hlt := hri.eq_or_lt
      · rfl
      · rw [latest_succ_of_not (hlast i (by omega) (by omega)), ih (by omega) (by omega)]
  refine ⟨?_, fun i hi hqi => ?_⟩
  · rw [latest_eq_some hr (by simp [hq r hr]) fun i h0 h1 => by simp [hq i h1, hlast i (by omega) h1, h0.ne']]
  · obtain rfl | hne := eq_or_ne i r
    · rw [hlink, h.head_eq, habove le_rfl hi.le, hbelow le_rfl]
    · have hpi : p i = true := by simpa [hq i hi, hne] using hqi
      have hlt : i < r := by
        by_contra hge
        simp [hlast i (by omega) hi] at hpi
      rw [hprev i hi hpi, h.prev_eq i hi hpi, hbelow hlt.le]

/-- The last entry of the kind is no longer one; the head becomes its link. -/
theorem deactivate (h : Threaded ref p prev n head) (hlast : latest p n = some r)
    (hq : ∀ i, i < n → q i = (p i && i != r)) (hprev : ∀ i, i < n → q i = true → prev' i = prev i) :
    Threaded ref q prev' n (prev r) := by
  obtain ⟨hr, hp⟩ := latest_some hlast
  refine ⟨by rw [latest_erase hq, if_pos hlast, h.prev_eq r hr hp], fun i hi hqi => ?_⟩
  have hpi : p i = true ∧ i ≠ r := by simpa [hq i hi] using hqi
  have hne : latest p i ≠ some r := by
    intro heq
    have hlt := (latest_some heq).1
    simp [latest_between hlast hlt hi] at hpi
  rw [hprev i hi hqi, h.prev_eq i hi hpi.1, latest_erase fun j hj => hq j (hj.trans hi), if_neg hne]

theorem below (h : Threaded ref p prev n head) {m : ℕ} (hm : m ≤ n) :
    Threaded ref p prev m (ref (latest p m)) := ⟨rfl, fun i hi => h.prev_eq i (hi.trans_le hm)⟩

/-- Following the links lists the entries of the kind from the last one down. -/
theorem walk (h : Threaded ref p prev n head) {next : ρ → Option ρ} {nil : ρ} (hnil : ref none = nil)
    (hne : ∀ i, i < n → ref (some i) ≠ nil)
    (hnext : ∀ i, i < n → p i = true → next (ref (some i)) = some (prev i)) :
    Walk next nil head ((places p n).map fun i => ref (some i)) := by
  induction n using Nat.strong_induction_on generalizing head with
  | _ n ih =>
    rw [h.head_eq, places_eq]
    cases hm : latest p n with
    | none =>
      rw [hnil]
      exact .nil
    | some m =>
      obtain ⟨hlt, hp⟩ := latest_some hm
      refine .cons (hne m hlt) (hnext m hlt hp) ?_
      rw [h.prev_eq m hlt hp]
      exact ih m hlt (h.below hlt.le) (fun i hi => hne i (hi.trans hlt)) fun i hi => hnext i (hi.trans hlt)

end Threaded
end LuajitRs.Lib.Backlink
