import Mathlib.Logic.Relation
import Mathlib.Logic.Function.Basic
import Mathlib.Data.Finset.Card

/-! Chains of a partial successor function, as they occur in chained hash tables.
A `Forest` is a successor function whose links are injective and acyclic, so that it is a
disjoint union of finite lists. Two surgeries are analysed: inserting a fresh cell after a
given one, and moving a cell out of its chain into a fresh one. -/
namespace LuajitRs.Lib.Chain
open Relation

variable {ι : Type*}

/-- One step along a chain. -/
def Link (next : ι → Option ι) (a b : ι) : Prop := next a = some b

/-- `b` is met when the chain is followed from `a`, in zero or more steps. -/
def Reach (next : ι → Option ι) : ι → ι → Prop := ReflTransGen (Link next)

/-- Every cell has at most one predecessor and no chain returns to its start. -/
structure Forest (next : ι → Option ι) : Prop where
  inj : ∀ a b c, next a = some c → next b = some c → a = b
  acyclic : ∀ a b, next a = some b → ¬ Reach next b a

/-- A cell that no link leaves or enters. -/
def Fresh (next : ι → Option ι) (f : ι) : Prop := next f = none ∧ ∀ a, next a ≠ some f

section Reach
variable {next : ι → Option ι} {a b c : ι}

@[refl] theorem Reach.refl (a : ι) : Reach next a a := ReflTransGen.refl

theorem Reach.trans (h : Reach next a b) (k : Reach next b c) : Reach next a c :=
  ReflTransGen.trans h k

theorem Reach.head (h : next a = some b) (k : Reach next b c) : Reach next a c :=
  ReflTransGen.head h k

theorem Reach.tail (h : Reach next a b) (k : next b = some c) : Reach next a c :=
  ReflTransGen.tail h k

/-- A walk either stops at once or takes the unique link out of its start. -/
theorem reach_iff_head : Reach next a c ↔ a = c ∨ ∃ b, next a = some b ∧ Reach next b c := by
  constructor
  · intro h
    rcases ReflTransGen.cases_head h with h | ⟨b, hb, hc⟩
    · exact .inl h
    · exact .inr ⟨b, hb, hc⟩
  · rintro (rfl | ⟨b, hb, hc⟩)
    · exact .refl _
    · exact .head hb hc

theorem Reach.eq_of_next_none (h : Reach next a b) (ha : next a = none) : a = b := by
  rcases reach_iff_head.mp h with h | ⟨c, hc, _⟩
  · exact h
  · simp [ha] at hc

/-- Two cells on the chain of `a` are comparable, since the successor is a function. -/
theorem Reach.total (h : Reach next a b) (k : Reach next a c) : Reach next b c ∨ Reach next c b :=
  ReflTransGen.total_of_right_unique (fun _ _ _ hx hy => Option.some.inj (hx.symm.trans hy)) h k

theorem Reach.next_of_ne (h : Reach next a b) (hne : a ≠ b) :
    ∃ c, next a = some c ∧ Reach next c b :=
  (reach_iff_head.mp h).resolve_left hne

/-- The last cell before `b` on a chain that reaches `b`. -/
theorem Reach.pred_of_ne (h : Reach next a b) (hne : a ≠ b) :
    ∃ c, Reach next a c ∧ next c = some b := by
  rcases ReflTransGen.cases_tail h with h | ⟨c, hc, hb⟩
  · exact absurd h.symm hne
  · exact ⟨c, hc, hb⟩

theorem Reach.mem {S : Set ι} (hS : ∀ x ∈ S, ∀ y, next x = some y → y ∈ S) (ha : a ∈ S)
    (h : Reach next a b) : b ∈ S := by
  induction h with
  | refl => exact ha
  | tail _ hl ih => exact hS _ ih _ hl

end Reach

namespace Forest
variable {next : ι → Option ι} {a b c : ι}

theorem antisymm (F : Forest next) (h : Reach next a b) (k : Reach next b a) : a = b := by
  by_contra hne
  obtain ⟨c, hc, hcb⟩ := h.next_of_ne hne
  exact F.acyclic a c hc (hcb.trans k)

/-- A cell with a predecessor is not the predecessor of itself. -/
theorem ne_of_next (F : Forest next) (h : next a = some b) : a ≠ b := by
  rintro rfl
  exact F.acyclic a a h (.refl a)

/-- The empty successor function is a forest. -/
theorem empty : Forest (fun _ : ι => (none : Option ι)) where
  inj := by simp
  acyclic := by simp

end Forest

/-! ### Searching along a chain -/

/-- Follow the chain from `a` for the first cell with property `p`; the outer `none` says
that the fuel ran out. -/
def findFrom (next : ι → Option ι) (p : ι → Bool) : ℕ → ι → Option (Option ι)
  | 0, _ => none
  | k+1, a =>
    if p a then some (some a)
    else match next a with
      | none => some none
      | some b => findFrom next p k b

/-- What a complete search from `a` finds: the first cell of the chain with property `p`. -/
def FirstMatch (next : ι → Option ι) (p : ι → Bool) (a : ι) : Option ι → Prop
  | some b => Reach next a b ∧ p b ∧ ∀ c, Reach next a c → p c → Reach next b c
  | none => ∀ c, Reach next a c → ¬ p c

theorem FirstMatch.head {next : ι → Option ι} {p : ι → Bool} {a b : ι} {r : Option ι}
    (ha : ¬ p a) (hab : next a = some b) (h : FirstMatch next p b r) : FirstMatch next p a r := by
  have later : ∀ c, Reach next a c → p c → Reach next b c := by
    intro c hc hpc
    rcases reach_iff_head.mp hc with rfl | ⟨d, hd, hdc⟩
    · exact absurd hpc ha
    · rwa [Option.some.inj (hab.symm.trans hd)]
  cases r with
  | none => exact fun c hc hpc => h c (later c hc hpc) hpc
  | some d =>
    obtain ⟨hd, hp, hfirst⟩ := h
    exact ⟨.head hab hd, hp, fun c hc hpc => hfirst c (later c hc hpc) hpc⟩

/-- From `a` no chain leads back to a cell that it has met. -/
def AcyclicFrom (next : ι → Option ι) (a : ι) : Prop :=
  ∀ b c, Reach next a b → next b = some c → ¬ Reach next c b

theorem AcyclicFrom.step {next : ι → Option ι} {a b : ι} (h : AcyclicFrom next a) (hab : next a = some b) :
    AcyclicFrom next b := fun c d hc hd => h c d (.head hab hc) hd

theorem Forest.acyclicFrom {next : ι → Option ι} (F : Forest next) (a : ι) : AcyclicFrom next a :=
  fun b c _ hbc => F.acyclic b c hbc

/-- Among finitely many cells the search from a cell takes at most as many steps as there are cells
on its chain. -/
theorem findFrom_spec {next : ι → Option ι} (p : ι → Bool) (S : Finset ι)
    (hS : ∀ a ∈ S, ∀ b, next a = some b → b ∈ S) {k : ℕ} {a : ι} (hac : AcyclicFrom next a) (ha : a ∈ S)
    (hk : S.card ≤ k) : ∃ r, findFrom next p k a = some r ∧ FirstMatch next p a r := by
  classical
  suffices h : ∀ k a, AcyclicFrom next a → a ∈ S → (S.filter (Reach next a)).card ≤ k →
      ∃ r, findFrom next p k a = some r ∧ FirstMatch next p a r from
    h k a hac ha ((Finset.card_filter_le _ _).trans hk)
  intro k
  induction k with
  | zero =>
    intro a _ ha hk
    have : a ∈ S.filter (Reach next a) := by simp [ha, Reach.refl]
    simp_all
  | succ k ih =>
    intro a hac ha hk
    by_cases hp : p a
    · exact ⟨some a, by simp [findFrom, hp], .refl a, hp, fun c hc _ => hc⟩
    cases hn : next a with
    | none =>
      refine ⟨none, by simp [findFrom, hp, hn], fun c hc => ?_⟩
      rwa [← hc.eq_of_next_none hn]
    | some b =>
      have hsub : S.filter (Reach next b) ⊂ S.filter (Reach next a) := by
        rw [Finset.ssubset_iff_of_subset]
        · exact ⟨a, by simp [ha, Reach.refl], by simp [hac a b (.refl a) hn]⟩
        · intro c hc
          simp only [Finset.mem_filter] at hc ⊢
          exact ⟨hc.1, .head hn hc.2⟩
      have hcard := Finset.card_lt_card hsub
      obtain ⟨r, hr, hm⟩ := ih b (hac.step hn) (hS a ha b hn) (by omega)
      exact ⟨r, by simp [findFrom, hp, hn, hr], hm.head hp hn⟩

theorem exists_end_of_findFrom {next : ι → Option ι} {p : ι → Bool} {k : ℕ} {a : ι}
    (h : findFrom next p k a = some none) : ∃ b, Reach next a b ∧ next b = none := by
  induction k generalizing a with
  | zero => simp [findFrom] at h
  | succ k ih =>
    by_cases hp : p a
    · simp [findFrom, hp] at h
    rw [findFrom, if_neg hp] at h
    cases hn : next a with
    | none => exact ⟨a, .refl a, hn⟩
    | some b =>
      rw [hn] at h
      obtain ⟨c, hbc, hc⟩ := ih h
      exact ⟨c, .head hn hbc, hc⟩

/-- A cell that its successor reaches lies on a cycle, and a chain that meets it never ends. -/
theorem reach_back {next : ι → Option ι} {b c d : ι} (hbc : next b = some c) (hcb : Reach next c b)
    (h : Reach next b d) : Reach next d b := by
  induction h with
  | refl => exact .refl b
  | tail _ hxy ih =>
    rcases reach_iff_head.mp ih with rfl | ⟨z, hz, hzb⟩
    · rwa [Option.some.inj (hxy.symm.trans hbc)]
    · rwa [Option.some.inj (hxy.symm.trans hz)]

/-- Among finitely many cells a chain ends exactly when it does not run into a cycle. -/
theorem exists_end_iff {next : ι → Option ι} (S : Finset ι)
    (hS : ∀ a ∈ S, ∀ b, next a = some b → b ∈ S) {a : ι} (ha : a ∈ S) :
    (∃ b, Reach next a b ∧ next b = none) ↔ AcyclicFrom next a := by
  constructor
  · rintro ⟨e, hae, he⟩ b c hab hbc hcb
    have hbe : Reach next b e := by
      rcases hab.total hae with h | h
      · exact h
      · rw [h.eq_of_next_none he]
    have := (reach_back hbc hcb hbe).eq_of_next_none he
    rw [← this, he] at hbc
    cases hbc
  · intro hac
    obtain ⟨r, hr, hm⟩ := findFrom_spec (fun _ => false) S hS hac ha le_rfl
    cases r with
    | none => exact exists_end_of_findFrom hr
    | some b => exact absurd hm.2.1 (by simp)

/-- Every chain of a finite forest ends. -/
theorem Forest.exists_end {next : ι → Option ι} (F : Forest next) (S : Finset ι)
    (hS : ∀ a ∈ S, ∀ b, next a = some b → b ∈ S) {a : ι} (ha : a ∈ S) :
    ∃ b, Reach next a b ∧ next b = none := (exists_end_iff S hS ha).mpr (F.acyclicFrom a)

/-! ### Surgery -/

variable [DecidableEq ι]

/-- Link the fresh cell `f` into the chain directly after `n`. -/
def insertAfter (next : ι → Option ι) (n f : ι) : ι → Option ι :=
  Function.update (Function.update next f (next n)) n (some f)

/-- Move the cell `n`, whose predecessor is `p`, to the fresh cell `f`; `n` is left alone. -/
def moveTo (next : ι → Option ι) (p n f : ι) : ι → Option ι :=
  Function.update (Function.update (Function.update next p (some f)) f (next n)) n none

section InsertAfter
variable {next : ι → Option ι} {n f : ι}

theorem insertAfter_self : insertAfter next n f n = some f := by simp [insertAfter]

theorem insertAfter_new (hf : f ≠ n) : insertAfter next n f f = next n := by
  simp [insertAfter, hf]

theorem insertAfter_other {a : ι} (hn : a ≠ n) (hf : a ≠ f) : insertAfter next n f a = next a := by
  simp [insertAfter, hn, hf]

/-- Every old link is still a walk, possibly through the new cell. -/
theorem Reach.insertAfter (fresh : Fresh next f) (hf : f ≠ n) {a b : ι} (h : Reach next a b) :
    Reach (insertAfter next n f) a b := by
  induction h with
  | refl => exact .refl a
  | @tail b c _ hl ih =>
    have hl : next b = some c := hl
    have hbf : b ≠ f := by rintro rfl; simp [fresh.1] at hl
    by_cases hbn : b = n
    · subst hbn
      exact (ih.tail insertAfter_self).tail ((insertAfter_new hf).trans hl)
    · exact ih.tail ((insertAfter_other hbn hbf).trans hl)

/-- A walk after the insertion that starts at an old cell is an old walk, or ends in the new
cell after having passed `n`. -/
theorem reach_insertAfter_cases (fresh : Fresh next f) (hf : f ≠ n) {a b : ι} (ha : a ≠ f)
    (h : Reach (Chain.insertAfter next n f) a b) : (b ≠ f ∧ Reach next a b) ∨ (b = f ∧ Reach next a n) := by
  induction h with
  | refl => exact .inl ⟨ha, .refl a⟩
  | @tail b c _ hl ih =>
    have hl : Chain.insertAfter next n f b = some c := hl
    rcases ih with ⟨hb, hab⟩ | ⟨rfl, han⟩
    · by_cases hbn : b = n
      · subst hbn
        rw [insertAfter_self, Option.some.injEq] at hl
        exact .inr ⟨hl.symm, hab⟩
      · rw [insertAfter_other hbn hb] at hl
        exact .inl ⟨fun hc => fresh.2 b (hc ▸ hl), hab.tail hl⟩
    · rw [insertAfter_new hf] at hl
      exact .inl ⟨fun hc => fresh.2 n (hc ▸ hl), han.tail hl⟩

theorem reach_insertAfter_iff (fresh : Fresh next f) (hf : f ≠ n) {a b : ι} (ha : a ≠ f) (hb : b ≠ f) :
    Reach (Chain.insertAfter next n f) a b ↔ Reach next a b := by
  refine ⟨fun h => ?_, fun h => h.insertAfter fresh hf⟩
  rcases reach_insertAfter_cases fresh hf ha h with ⟨_, h⟩ | ⟨h, _⟩
  · exact h
  · exact absurd h hb

theorem reach_insertAfter_new_iff (fresh : Fresh next f) (hf : f ≠ n) {a : ι} (ha : a ≠ f) :
    Reach (Chain.insertAfter next n f) a f ↔ Reach next a n := by
  constructor
  · intro h
    rcases reach_insertAfter_cases fresh hf ha h with ⟨h, _⟩ | ⟨_, h⟩
    · exact absurd rfl h
    · exact h
  · intro h
    exact (h.insertAfter fresh hf).tail insertAfter_self

theorem Forest.insertAfter (F : Forest next) (fresh : Fresh next f) (hf : f ≠ n) :
    Forest (Chain.insertAfter next n f) := by
  have source : ∀ a c, Chain.insertAfter next n f a = some c →
      (a = n ∧ c = f) ∨ (a = f ∧ next n = some c ∧ c ≠ f) ∨
        (a ≠ n ∧ a ≠ f ∧ next a = some c ∧ c ≠ f) := by
    intro a c h
    by_cases han : a = n
    · subst han
      rw [insertAfter_self, Option.some.injEq] at h
      exact .inl ⟨rfl, h.symm⟩
    by_cases haf : a = f
    · subst haf
      rw [insertAfter_new hf] at h
      exact .inr (.inl ⟨rfl, h, fun hc => fresh.2 n (hc ▸ h)⟩)
    · rw [insertAfter_other han haf] at h
      exact .inr (.inr ⟨han, haf, h, fun hc => fresh.2 a (hc ▸ h)⟩)
  constructor
  · intro a b c ha hb
    rcases source a c ha with ⟨ha', hc⟩ | ⟨ha', hca, hc⟩ | ⟨han, _, hca, hc⟩ <;>
      rcases source b c hb with ⟨hb', hd⟩ | ⟨hb', hcb, hd⟩ | ⟨hbn, _, hcb, hd⟩
    · exact ha'.trans hb'.symm
    · exact absurd hc hd
    · exact absurd hc hd
    · exact absurd hd hc
    · exact ha'.trans hb'.symm
    · exact absurd (F.inj _ _ _ hcb hca) hbn
    · exact absurd hd hc
    · exact absurd (F.inj _ _ _ hca hcb) han
    · exact F.inj _ _ _ hca hcb
  · intro a b h hback
    rcases source a b h with ⟨rfl, rfl⟩ | ⟨rfl, hn, hb⟩ | ⟨_, haf, ha, hb⟩
    · obtain ⟨c, hc, hcn⟩ := hback.next_of_ne hf
      rw [insertAfter_new hf] at hc
      have hcf : c ≠ b := fun e => fresh.2 a (e ▸ hc)
      exact F.acyclic _ _ hc ((reach_insertAfter_iff fresh hf hcf hf.symm).mp hcn)
    · exact F.acyclic _ _ hn ((reach_insertAfter_new_iff fresh hf hb).mp hback)
    · exact F.acyclic _ _ ha ((reach_insertAfter_iff fresh hf hb haf).mp hback)

end InsertAfter

section MoveTo
variable {next : ι → Option ι} {p n f : ι}

theorem moveTo_self : moveTo next p n f n = none := by simp [moveTo]

theorem moveTo_new (hf : f ≠ n) : moveTo next p n f f = next n := by simp [moveTo, hf]

theorem moveTo_pred (hpn : p ≠ n) (hpf : p ≠ f) : moveTo next p n f p = some f := by
  simp [moveTo, hpn, hpf]

theorem moveTo_other {a : ι} (hn : a ≠ n) (hf : a ≠ f) (hp : a ≠ p) :
    moveTo next p n f a = next a := by
  simp [moveTo, hn, hf, hp]

/-- The cell that carries, after the move, what `a` carried before it. -/
def moved (n f a : ι) : ι := if a = n then f else a

@[simp] theorem moved_self : moved n f n = f := by simp [moved]

theorem moved_of_ne {a : ι} (h : a ≠ n) : moved n f a = a := by simp [moved, h]

theorem moved_ne (hf : f ≠ n) (a : ι) : moved n f a ≠ n := by
  unfold moved
  split_ifs with h
  · exact hf
  · exact h

theorem moved_injOn {a b : ι} (ha : a ≠ f) (hb : b ≠ f) (h : moved n f a = moved n f b) : a = b := by
  unfold moved at h
  split_ifs at h with h₁ h₂ h₂
  · exact h₁.trans h₂.symm
  · exact absurd h.symm hb
  · exact absurd h ha
  · exact h

/-- Every cell but the vacated one carries an old cell other than the fresh one. -/
theorem eq_or_moved (hf : f ≠ n) (j : ι) : j = n ∨ ∃ i, i ≠ f ∧ j = moved n f i := by
  by_cases hjn : j = n
  · exact .inl hjn
  by_cases hjf : j = f
  · exact .inr ⟨n, hf.symm, by simp [hjf]⟩
  · exact .inr ⟨j, hjf, (moved_of_ne hjn).symm⟩

theorem moveTo_moved (F : Forest next) (fresh : Fresh next f) (hp : next p = some n) (hf : f ≠ n)
    {a : ι} (ha : a ≠ f) : moveTo next p n f (moved n f a) = (next a).map (moved n f) := by
  have hpn : p ≠ n := F.ne_of_next hp
  have hpf : p ≠ f := by rintro rfl; simp [fresh.1] at hp
  by_cases han : a = n
  · subst han
    rw [moved_self, moveTo_new hf]
    cases hc : next a with
    | none => rfl
    | some c => simp [moved_of_ne (F.ne_of_next hc).symm]
  · rw [moved_of_ne han]
    by_cases hap : a = p
    · subst hap
      simp [moveTo_pred hpn hpf, hp]
    · rw [moveTo_other han ha hap]
      cases hc : next a with
      | none => rfl
      | some c =>
        have : c ≠ n := by rintro rfl; exact hap (F.inj _ _ _ hc hp)
        simp [moved_of_ne this]

/-- The move relabels the cells of every chain; the vacated cell is on no chain. -/
theorem Reach.moveTo (F : Forest next) (fresh : Fresh next f) (hp : next p = some n) (hf : f ≠ n)
    {a b : ι} (ha : a ≠ f) (h : Reach next a b) :
    Reach (moveTo next p n f) (moved n f a) (moved n f b) := by
  induction h with
  | refl => exact .refl _
  | @tail b c hab hl ih =>
    have hl : next b = some c := hl
    have hb : b ≠ f := by rintro rfl; simp [fresh.1] at hl
    exact ih.tail (by rw [moveTo_moved F fresh hp hf hb, hl]; rfl)

theorem reach_moveTo_cases (F : Forest next) (fresh : Fresh next f) (hp : next p = some n) (hf : f ≠ n)
    {a y : ι} (ha : a ≠ f) (h : Reach (Chain.moveTo next p n f) (moved n f a) y) :
    ∃ b, b ≠ f ∧ y = moved n f b ∧ Reach next a b := by
  induction h with
  | refl => exact ⟨a, ha, rfl, .refl a⟩
  | @tail y z _ hl ih =>
    obtain ⟨b, hb, rfl, hab⟩ := ih
    have hl : Chain.moveTo next p n f (moved n f b) = some z := hl
    rw [moveTo_moved F fresh hp hf hb, Option.map_eq_some_iff] at hl
    obtain ⟨c, hc, rfl⟩ := hl
    exact ⟨c, fun e => fresh.2 b (e ▸ hc), rfl, hab.tail hc⟩

theorem reach_moveTo_iff (F : Forest next) (fresh : Fresh next f) (hp : next p = some n) (hf : f ≠ n)
    {a b : ι} (ha : a ≠ f) (hb : b ≠ f) :
    Reach (Chain.moveTo next p n f) (moved n f a) (moved n f b) ↔ Reach next a b := by
  refine ⟨fun h => ?_, fun h => h.moveTo F fresh hp hf ha⟩
  obtain ⟨c, hc, he, hac⟩ := reach_moveTo_cases F fresh hp hf ha h
  rwa [moved_injOn hb hc he]

theorem Forest.moveTo (F : Forest next) (fresh : Fresh next f) (hp : next p = some n) (hf : f ≠ n) :
    Forest (Chain.moveTo next p n f) := by
  have source : ∀ a c, Chain.moveTo next p n f a = some c →
      ∃ a' c', a' ≠ f ∧ c' ≠ f ∧ a = moved n f a' ∧ c = moved n f c' ∧ next a' = some c' := by
    intro a c h
    have han : a ≠ n := by rintro rfl; simp [moveTo_self] at h
    obtain ⟨a', ha', rfl⟩ := (eq_or_moved hf a).resolve_left han
    rw [moveTo_moved F fresh hp hf ha', Option.map_eq_some_iff] at h
    obtain ⟨c', hc', rfl⟩ := h
    exact ⟨a', c', ha', fun e => fresh.2 a' (e ▸ hc'), rfl, rfl, hc'⟩
  constructor
  · intro a b c ha hb
    obtain ⟨a', c', _, hcf, rfl, rfl, ha'⟩ := source a c ha
    obtain ⟨b', d', _, hdf, rfl, he, hb'⟩ := source b _ hb
    rw [moved_injOn hdf hcf he.symm] at hb'
    rw [F.inj a' b' c' ha' hb']
  · intro a b h hback
    obtain ⟨a', b', haf, hbf, rfl, rfl, hl⟩ := source a b h
    exact F.acyclic a' b' hl ((reach_moveTo_iff F fresh hp hf hbf haf).mp hback)

end MoveTo

end LuajitRs.Lib.Chain
