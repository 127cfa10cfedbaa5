import LuajitRs.Lib.Oracle
import LuajitRs.Stdlib.Sort.Spec
import Mathlib.Data.List.Range

/-! The sort of a table: whatever the comparator does, the sort returns or passes the comparator's
error on, an error leaves the table as the comparator left it, and a table that was sorted has a
permutation of its values, in order when the comparator is a strict weak order. The comparisons that it makes are
between values of the table, and a comparator that answers them alike leads to the same sort. -/
namespace LuajitRs.Sort
open Lib.Oracle Lib.Rearrange

variable {V ω ε : Type} {comp : Comparator V ω ε} {t : Access ω V}

/-! ### Comparators -/

instance isPreorder_any (α : Type) : IsPreorder α fun _ _ => True where
  refl _ := trivial
  trans _ _ _ _ _ := trivial

/-- Whatever the comparator answers, everything is related. -/
theorem respects_any {I : ω → Prop} (hI : ∀ s q, I s → I (comp s q).2) :
    Respects comp I fun _ _ => True where
  world := hI
  answer _ _ _ r _ _ := by cases r <;> trivial

/-- The answers of the comparator are those of the relation `lt`, as far as it answers. -/
def Decides (comp : Comparator V ω ε) (lt : V → V → Prop) : Prop :=
  ∀ s a b r s', comp s (a, b) = (.ok r, s') → (r = true ↔ lt a b)

theorem isPreorder_of_weak (lt : V → V → Prop) [IsStrictWeakOrder V lt] :
    IsPreorder (Item V) fun x y => ¬ lt y.2 x.2 where
  refl x := irrefl_of lt x.2
  trans x y z hxy hyz hzx := by
    have hxy' : ¬ lt x.2 y.2 := fun h => hyz (trans_of lt hzx h)
    have hyz' : ¬ lt y.2 z.2 := fun h => hxy (trans_of lt h hzx)
    exact (IsStrictWeakOrder.incomp_trans _ _ _ ⟨hxy', hxy⟩ ⟨hyz', hyz⟩).2 hzx

theorem respects_weak {I : ω → Prop} {lt : V → V → Prop} [IsStrictWeakOrder V lt]
    (hI : ∀ s q, I s → I (comp s q).2) (hd : Decides comp lt) :
    Respects comp I fun x y => ¬ lt y.2 x.2 where
  world := hI
  answer s x y r s' h := by
    have hiff := hd s x.2 y.2 r s' h
    cases r with
    | true => exact fun hyx => asymm_of lt (hiff.mp rfl) hyx
    | false => exact fun hxy => Bool.false_ne_true (hiff.mpr hxy)

/-! ### The table -/

/-- The values at the keys from one to `n`. -/
def slice (t : Access ω V) (n : ℕ) (s : ω) : List V := (List.range n).map fun i : ℕ => t.getInt s (i + 1)

theorem slice_readItems (s : ω) :
    (readItems t s).toList.map Prod.snd = slice t (t.len s).toNat s := by
  simp [readItems, slice]

theorem getInt_writeItems (xs : List (Item V)) (i : ℕ) (s : ω) {k : ℤ}
    (hk : k < i + 1 ∨ (i + xs.length : ℤ) < k) : t.getInt (writeItems t xs i s) k = t.getInt s k := by
  induction xs generalizing i s with
  | nil => rfl
  | cons x xs ih =>
    simp only [List.length_cons] at hk
    rw [writeItems, ih (i + 1) _ (by push_cast; omega), t.getInt_setInt,
      Function.update_of_ne (by omega)]

theorem slice_writeItems (xs : List (Item V)) (i : ℕ) (s : ω) :
    (List.range xs.length).map (fun j : ℕ => t.getInt (writeItems t xs i s) (i + j + 1)) =
      xs.map Prod.snd := by
  induction xs generalizing i s with
  | nil => rfl
  | cons x xs ih =>
    have htail := ih (i + 1) (t.setInt s (i + 1) x.2)
    rw [List.length_cons, List.range_succ_eq_map, List.map_cons, List.map_cons, List.map_map]
    refine congrArg₂ _ ?_ ?_
    · rw [writeItems, getInt_writeItems xs (i + 1) _ (by push_cast; omega), t.getInt_setInt]
      simp
    · rw [← htail]
      apply List.map_congr_left
      intro j _
      simp only [Function.comp, writeItems]
      congr 1
      push_cast
      ring

/-- What a sort in the world `s` leaves. -/
def Sound (comp : Comparator V ω ε) (t : Access ω V) (s : ω) : Except (Stop Fault ε) Unit × ω → Prop
  | (.error (.fault _), _) => False
  | (.error (.raised _), s') => Consulted comp s s' ∧
    ((∀ s q, t.getInt (comp s q).2 = t.getInt s) → t.getInt s' = t.getInt s)
  | (.ok _, s') => (slice t (t.len s).toNat s').Perm (slice t (t.len s).toNat s) ∧
    (∃ s₁, Consulted comp s s₁ ∧ ∀ k, k < 1 ∨ t.len s < k → t.getInt s' k = t.getInt s₁ k) ∧
    ∀ lt : V → V → Prop, IsStrictWeakOrder V lt → Decides comp lt →
      (slice t (t.len s).toNat s').Pairwise fun a b => ¬ lt b a

theorem getInt_consulted {s s' : ω} (h : Consulted comp s s')
    (hcomp : ∀ s q, t.getInt (comp s q).2 = t.getInt s) : t.getInt s' = t.getInt s := by
  induction h with
  | refl => rfl
  | tail _ hstep ih =>
    obtain ⟨q, rfl⟩ := hstep
    exact (hcomp _ q).trans ih

theorem size_readItems (s : ω) : (readItems t s).size = (t.len s).toNat := by
  simp [readItems]

/-- The values after writing a rearrangement back. -/
theorem slice_write {s s₁ : ω} {b : Array (Item V)} (hb : b.Perm (readItems t s)) :
    slice t (t.len s).toNat (writeItems t b.toList 0 s₁) = b.toList.map Prod.snd := by
  have hlen : b.toList.length = (t.len s).toNat := hb.size_eq.trans (size_readItems s)
  have hw := slice_writeItems (t := t) b.toList 0 s₁
  simpa [slice, hlen] using hw

theorem pairwise_of_sortedOn {le : Item V → Item V → Prop} {b : Array (Item V)}
    (h : SortedOn le 0 (b.size - 1) b) : b.toList.Pairwise le := by
  rw [List.pairwise_iff_getElem]
  intro k l hk hl hkl
  have hl' : l < b.size := hl
  apply h k l (Nat.zero_le k) hkl (by omega)
  · simp [Array.getElem?_eq_getElem (show k < b.size by omega)]
  · simp [Array.getElem?_eq_getElem hl']

/-- Every sort of every table with every comparator is sound. -/
theorem tabSort_sound (comp : Comparator V ω ε) (t : Access ω V) (s : ω) :
    Sound comp t s (tabSort comp t s) := by
  have hI : ∀ s₁ q, Consulted comp s s₁ → Consulted comp s (comp s₁ q).2 :=
    fun _ q h => h.tail ⟨q, rfl⟩
  have hany := introsort_meets (a := readItems t s) (respects_any hI) s .refl
  unfold tabSort
  cases hrun : introsort comp ⟨readItems t s, s⟩ with
  | error e w =>
    rw [hrun] at hany
    cases e with
    | fault f => exact hany
    | raised e => exact ⟨hany, getInt_consulted hany⟩
  | ok u w =>
    rw [hrun] at hany
    obtain ⟨hcons, hperm, -⟩ := hany
    have hlen : w.data.toList.length = (t.len s).toNat := hperm.size_eq.trans (size_readItems s)
    refine ⟨?_, ⟨w.world, hcons, fun k hk => ?_⟩, fun lt hweak hd => ?_⟩
    · rw [slice_write hperm, ← slice_readItems]
      exact (Array.perm_iff_toList_perm.mp hperm).map Prod.snd
    · exact getInt_writeItems _ _ _ (by rw [hlen]; omega)
    · have hpre := isPreorder_of_weak lt
      have hsorted := introsort_meets (a := readItems t s) (respects_weak hI hd) s .refl
      rw [hrun] at hsorted
      rw [slice_write hperm, List.pairwise_map]
      apply pairwise_of_sortedOn
      rw [hperm.size_eq]
      exact hsorted.2.2

end LuajitRs.Sort

namespace LuajitRs.Sort
open Lib.Oracle Lib.Rearrange

variable {V ω ε α β : Type} {comp comp' : Comparator V ω ε} {P : V → Prop}

/-- The values of the items have the property `P`. -/
def Within (P : V → Prop) (a : Array (Item V)) : Prop := ∀ x ∈ a, P x.2

/-- The sort with the log compares values with the property `P`, and goes like the sort with `comp'`. -/
abbrev Tracks (comp comp' : Comparator V ω ε) (P : V → Prop) (p : SortM V (ω × Log ω (V × V)) ε α)
    (p' : SortM V ω ε α) (A : α → Prop) : Prop :=
  Follows comp comp' (Within P) (fun q => P q.1 ∧ P q.2) p p' A

theorem item_tracks (i : ℕ) : Tracks comp comp' P (item i) (item i) fun x => P x.2 := by
  apply Follows.silent
  intro d s log hd
  unfold item
  cases hx : d[i]? with
  | none => exact .inr ⟨.outOfBounds, rfl, rfl⟩
  | some x => exact .inl ⟨x, d, hd x (Array.mem_of_getElem? hx), hd, rfl, rfl⟩

theorem swap_tracks (i j : ℕ) : Tracks comp comp' P (swap i j) (swap i j) fun _ => True := by
  apply Follows.silent
  intro d s log hd
  unfold swap
  by_cases h : i < d.size ∧ j < d.size
  · refine .inl ⟨(), d.swap i j h.1 h.2, trivial, fun x hx => hd x ?_, dif_pos h, dif_pos h⟩
    exact (Array.swap_perm h.1 h.2).mem_iff.mp hx
  · exact .inr ⟨.outOfBounds, dif_neg h, dif_neg h⟩

theorem cmpApply_tracks {x y : Item V} (hx : P x.2) (hy : P y.2) :
    Tracks comp comp' P (cmpApply (logged comp) x y) (cmpApply comp' x y) fun _ => True := Follows.ask ⟨hx, hy⟩

/-- Two items are read and compared. -/
theorem compare_tracks {i j : ℕ} {f : Bool → SortM V (ω × Log ω (V × V)) ε β} {f' : Bool → SortM V ω ε β}
    {B : β → Prop} (hf : ∀ r, Tracks comp comp' P (f r) (f' r) B) :
    Tracks comp comp' P (do let x ← item i; let y ← item j; let r ← cmpApply (logged comp) x y; f r)
      (do let x ← item i; let y ← item j; let r ← cmpApply comp' x y; f' r) B := by
  apply (item_tracks i).bind
  intro x hx
  apply (item_tracks j).bind
  intro y hy
  apply (cmpApply_tracks hx hy).bind
  intro r _
  exact hf r

theorem orderPair_tracks (i j : ℕ) :
    Tracks comp comp' P (orderPair (logged comp) i j) (orderPair comp' i j) fun _ => True := by
  apply compare_tracks
  intro r
  cases r with
  | true => exact swap_tracks i j
  | false => exact .pure trivial

theorem scanUp_tracks {pivot : Item V} (hp : P pivot.2) (n i : ℕ) :
    Tracks comp comp' P (scanUp (logged comp) pivot n i) (scanUp comp' pivot n i) fun _ => True := by
  induction n generalizing i with
  | zero => exact .pure trivial
  | succ n ih =>
    apply (item_tracks i).bind
    intro x hx
    apply (cmpApply_tracks hx hp).bind
    intro r _
    cases r with
    | true => exact ih (i + 1)
    | false => exact .pure trivial

theorem scanDown_tracks {pivot : Item V} (hp : P pivot.2) (n j : ℕ) :
    Tracks comp comp' P (scanDown (logged comp) pivot n j) (scanDown comp' pivot n j) fun _ => True := by
  induction n generalizing j with
  | zero => exact .pure trivial
  | succ n ih =>
    apply (item_tracks j).bind
    intro x hx
    apply (cmpApply_tracks hp hx).bind
    intro r _
    cases r with
    | true => exact ih (j - 1)
    | false => exact .pure trivial

theorem partitionLoop_tracks {pivot : Item V} (hp : P pivot.2) (fuel i j : ℕ) :
    Tracks comp comp' P (partitionLoop (logged comp) pivot fuel i j) (partitionLoop comp' pivot fuel i j)
      fun _ => True := by
  induction fuel generalizing i j with
  | zero => exact .fault _
  | succ fuel ih =>
    apply (scanUp_tracks hp _ _).bind
    intro i _
    apply (scanDown_tracks hp _ _).bind
    intro j _
    split
    · exact .pure trivial
    · apply (swap_tracks i j).bind
      intro _ _
      exact ih i j

theorem partition_tracks (lo hi : ℕ) :
    Tracks comp comp' P (partition (logged comp) lo hi) (partition comp' lo hi) fun _ => True := by
  apply (orderPair_tracks _ _).bind
  intro _ _
  apply (orderPair_tracks _ _).bind
  intro _ _
  apply (orderPair_tracks _ _).bind
  intro _ _
  apply (item_tracks _).bind
  intro pivot hp
  apply (swap_tracks _ _).bind
  intro _ _
  apply (partitionLoop_tracks hp _ _ _).bind
  intro i _
  apply (swap_tracks _ _).bind
  intro _ _
  exact .pure trivial

theorem sinkLeft_tracks (n j : ℕ) :
    Tracks comp comp' P (sinkLeft (logged comp) n j) (sinkLeft comp' n j) fun _ => True := by
  induction n generalizing j with
  | zero => exact .pure trivial
  | succ n ih =>
    apply compare_tracks
    intro r
    cases r with
    | true =>
      apply (swap_tracks _ _).bind
      intro _ _
      exact ih (j - 1)
    | false => exact .pure trivial

theorem insertionRounds_tracks (lo n i : ℕ) :
    Tracks comp comp' P (insertionRounds (logged comp) lo n i) (insertionRounds comp' lo n i) fun _ => True := by
  induction n generalizing i with
  | zero => exact .pure trivial
  | succ n ih =>
    apply (sinkLeft_tracks _ _).bind
    intro _ _
    exact ih (i + 1)

theorem pickLarger_tracks (lo n largest child : ℕ) :
    Tracks comp comp' P (pickLarger (logged comp) lo n largest child) (pickLarger comp' lo n largest child)
      fun _ => True := by
  unfold pickLarger
  split
  · apply compare_tracks
    intro r
    exact .pure trivial
  · exact .pure trivial

theorem siftDown_tracks (lo n fuel r : ℕ) :
    Tracks comp comp' P (siftDown (logged comp) lo n fuel r) (siftDown comp' lo n fuel r) fun _ => True := by
  induction fuel generalizing r with
  | zero => exact .fault _
  | succ fuel ih =>
    unfold siftDown
    split
    · exact .pure trivial
    · apply (pickLarger_tracks _ _ _ _).bind
      intro _ _
      apply (pickLarger_tracks _ _ _ _).bind
      intro largest _
      split
      · exact .pure trivial
      · apply (swap_tracks _ _).bind
        intro _ _
        exact ih largest

theorem heapify_tracks (lo n m : ℕ) :
    Tracks comp comp' P (heapify (logged comp) lo n m) (heapify comp' lo n m) fun _ => True := by
  induction m with
  | zero => exact .pure trivial
  | succ i ih =>
    apply (siftDown_tracks _ _ _ _).bind
    intro _ _
    exact ih

theorem drain_tracks (lo m : ℕ) :
    Tracks comp comp' P (drain (logged comp) lo m) (drain comp' lo m) fun _ => True := by
  induction m with
  | zero => exact .pure trivial
  | succ i ih =>
    apply (swap_tracks _ _).bind
    intro _ _
    apply (siftDown_tracks _ _ _ _).bind
    intro _ _
    exact ih

theorem introsortImpl_tracks (depth lo hi : ℕ) :
    Tracks comp comp' P (introsortImpl (logged comp) depth lo hi) (introsortImpl comp' depth lo hi)
      fun _ => True := by
  induction depth generalizing lo hi with
  | zero =>
    unfold introsortImpl
    split
    · exact insertionRounds_tracks _ _ _
    · apply (heapify_tracks _ _ _).bind
      intro _ _
      exact drain_tracks _ _
  | succ depth ih =>
    unfold introsortImpl
    split
    · exact insertionRounds_tracks _ _ _
    · apply (partition_tracks _ _).bind
      intro p _
      have left : Tracks comp comp' P (if lo < p then introsortImpl (logged comp) depth lo (p - 1) else pure ())
          (if lo < p then introsortImpl comp' depth lo (p - 1) else pure ()) fun _ => True := by
        split
        · exact ih lo (p - 1)
        · exact .pure trivial
      apply left.bind
      intro _ _
      split
      · exact ih (p + 1) hi
      · exact .pure trivial

theorem introsort_tracks (comp comp' : Comparator V ω ε) :
    Tracks comp comp' P (introsort (logged comp)) (introsort comp') fun _ => True := by
  intro d s log hd
  unfold introsort
  dsimp only
  split
  · exact Follows.pure trivial d s log hd
  · exact introsortImpl_tracks _ _ _ d s log hd

/-! ### The sort of a table -/

/-- The comparisons that the sort of a table makes, each with the world in which it is made. -/
def compared (comp : Comparator V ω ε) (t : Access ω V) (s : ω) : Log ω (V × V) :=
  asked (introsort (logged comp) ⟨readItems t s, (s, [])⟩)

section
variable {t : Access ω V} {s : ω}

theorem within_readItems : Within (· ∈ slice t (t.len s).toNat s) (readItems t s) := by
  intro x hx
  rw [← slice_readItems]
  exact List.mem_map_of_mem (Array.mem_toList_iff.mpr hx)

/-- The sort of a table with the log. -/
theorem traced_introsort (comp comp' : Comparator V ω ε) (t : Access ω V) (s : ω) :
    Traced comp comp' (Within (· ∈ slice t (t.len s).toNat s))
      (fun q => q.1 ∈ slice t (t.len s).toNat s ∧ q.2 ∈ slice t (t.len s).toNat s) (fun _ => True) (compared comp t s)
      (introsort (logged comp) ⟨readItems t s, (s, [])⟩) (introsort comp' ⟨readItems t s, s⟩) := by
  obtain ⟨new, hnew, ht⟩ := introsort_tracks comp comp' _ s [] (within_readItems (t := t))
  have hlog : compared comp t s = new := hnew
  rw [hlog]
  exact ht

theorem introsort_eq_forget (comp : Comparator V ω ε) (t : Access ω V) (s : ω) :
    introsort comp ⟨readItems t s, s⟩ = forget (introsort (logged comp) ⟨readItems t s, (s, [])⟩) :=
  (traced_introsort comp comp t s).agrees fun _ _ => rfl

/-- Only values of the table are compared. -/
theorem mem_compared {e : ω × V × V} (he : e ∈ compared comp t s) :
    e.2.1 ∈ slice t (t.len s).toNat s ∧ e.2.2 ∈ slice t (t.len s).toNat s :=
  (traced_introsort comp comp t s).questions e he

theorem introsort_congr (hagree : ∀ e ∈ compared comp t s, comp e.1 e.2 = comp' e.1 e.2) :
    introsort comp' ⟨readItems t s, s⟩ = introsort comp ⟨readItems t s, s⟩ := by
  rw [introsort_eq_forget comp]
  exact (traced_introsort comp comp' t s).agrees hagree

/-- Comparators that agree on the comparisons of a sort lead to the same sort. -/
theorem tabSort_congr (hagree : ∀ e ∈ compared comp t s, comp e.1 e.2 = comp' e.1 e.2) :
    tabSort comp t s = tabSort comp' t s := by
  rw [tabSort, tabSort, introsort_congr hagree]

/-- An error of a comparison is the error of the sort. -/
theorem tabSort_raised {e : ω × V × V} (he : e ∈ compared comp t s) {x : ε} {s' : ω}
    (hx : comp e.1 e.2 = (.error x, s')) : tabSort comp t s = (.error (.raised x), s') := by
  obtain ⟨d, l, hr⟩ := (traced_introsort comp comp t s).answered e he x s' hx
  rw [tabSort, introsort_eq_forget, hr]
  rfl

/-! ### Orders on the values of a table -/

/-- A strict weak order on the values of a list: asymmetric and negatively transitive. -/
structure StrictWeakOn (lt : V → V → Bool) (xs : List V) : Prop where
  asymm : ∀ a ∈ xs, ∀ b ∈ xs, lt a b = true → lt b a = false
  cotrans : ∀ a ∈ xs, ∀ b ∈ xs, ∀ c ∈ xs, lt a b = false → lt b c = false → lt a c = false

variable {lt : V → V → Bool} {xs : List V}

/-- The order of the items whose values are in the list; all other items are below them. -/
def leOn (lt : V → V → Bool) (xs : List V) (x y : Item V) : Prop := x.2 ∈ xs → y.2 ∈ xs ∧ lt y.2 x.2 = false

theorem isPreorder_leOn (hw : StrictWeakOn lt xs) : IsPreorder (Item V) (leOn lt xs) where
  refl x hx := by
    refine ⟨hx, ?_⟩
    by_contra hlt
    rw [Bool.not_eq_false] at hlt
    exact Bool.false_ne_true ((hw.asymm _ hx _ hx hlt).symm.trans hlt)
  trans x y z hxy hyz hx := by
    obtain ⟨hy, hyx⟩ := hxy hx
    obtain ⟨hz, hzy⟩ := hyz hy
    exact ⟨hz, hw.cotrans _ hz _ hy _ hx hzy hyx⟩

open Classical in
/-- The comparator that answers by the order; values outside of the list are below the others. -/
noncomputable def byOrder (comp : Comparator V ω ε) (lt : V → V → Bool) (xs : List V) : Comparator V ω ε :=
  fun s q => if q.1 ∈ xs ∧ q.2 ∈ xs then (.ok (lt q.1 q.2), (comp s q).2) else (.ok (decide (q.1 ∉ xs)), s)

theorem respects_byOrder (comp : Comparator V ω ε) (hw : StrictWeakOn lt xs) :
    Respects (byOrder comp lt xs) (fun _ => True) (leOn lt xs) where
  world _ _ _ := trivial
  answer s x y r s' h := by
    unfold byOrder at h
    dsimp only at h
    split at h
    · next hin =>
      cases h
      cases hlt : lt x.2 y.2 with
      | true => exact fun _ => ⟨hin.2, hw.asymm _ hin.1 _ hin.2 hlt⟩
      | false => exact fun _ => ⟨hin.1, hlt⟩
    · next hout =>
      cases h
      by_cases hx : x.2 ∈ xs
      · simp only [hx, not_true, decide_false, Bool.false_eq_true, if_false]
        exact fun hy => absurd ⟨hx, hy⟩ hout
      · simp only [hx, not_false_eq_true, decide_true, if_true]
        exact fun hx' => absurd hx' hx

/-- A sort whose comparisons are all answered by a strict weak order on the values returns them in order. -/
theorem tabSort_sorted (hw : StrictWeakOn lt (slice t (t.len s).toNat s))
    (hans : ∀ e ∈ compared comp t s, ∃ s', comp e.1 e.2 = (.ok (lt e.2.1 e.2.2), s')) :
    ∃ s', tabSort comp t s = (.ok (), s') ∧ (slice t (t.len s).toNat s').Perm (slice t (t.len s).toNat s) ∧
      (slice t (t.len s).toNat s').Pairwise fun a b => lt b a = false := by
  have hagree : ∀ e ∈ compared comp t s, comp e.1 e.2 = byOrder comp lt (slice t (t.len s).toNat s) e.1 e.2 := by
    intro e he
    obtain ⟨s', hs'⟩ := hans e he
    rw [byOrder, if_pos (mem_compared he), hs']
  have hpre := isPreorder_leOn hw
  have hmeets := introsort_meets (a := readItems t s) (respects_byOrder comp hw) s trivial
  rw [introsort_congr hagree] at hmeets
  have hsound := tabSort_sound comp t s
  have hforget := introsort_eq_forget comp t s
  unfold tabSort at hsound ⊢
  cases hr : introsort (logged comp) ⟨readItems t s, (s, [])⟩ with
  | error x w =>
    rw [hr] at hforget
    rw [hforget] at hmeets
    cases x with
    | fault f => exact hmeets.elim
    | raised x =>
      obtain ⟨e, he, hx⟩ := (traced_introsort comp comp t s).raised x w hr
      obtain ⟨s', hs'⟩ := hans e he
      rw [hs'] at hx
      cases hx
  | ok u w =>
    rw [hr] at hforget
    rw [hforget] at hmeets hsound ⊢
    obtain ⟨-, hperm, hsorted⟩ := hmeets
    refine ⟨_, rfl, hsound.1, ?_⟩
    dsimp only [forget] at hperm hsorted ⊢
    rw [slice_write hperm, List.pairwise_map]
    have hle : w.data.toList.Pairwise (leOn lt (slice t (t.len s).toNat s)) := by
      apply pairwise_of_sortedOn
      rw [hperm.size_eq]
      exact hsorted
    refine hle.imp_of_mem fun hx _ hxy => (hxy ?_).2
    exact within_readItems _ (hperm.mem_iff.mp (Array.mem_toList_iff.mp hx))

end
end LuajitRs.Sort
