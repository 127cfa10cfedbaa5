import Mathlib.Data.List.Nodup
import Mathlib.Data.List.Range
import Mathlib.Logic.Function.Basic
import Mathlib.Tactic.Ring
import Mathlib.Tactic.Common
import Mathlib.Data.Finset.Card

/-! Copies within a map, one after another. A later copy reads what an earlier one wrote, so the result
is that of a parallel copy only when no cell is written before it is read. -/
namespace LuajitRs.Lib.Copies

variable {κ V : Type} [DecidableEq κ] {m : κ → V} {c : κ × κ} {cs : List (κ × κ)}

/-- Perform the copies, pairs of a source and a target, from left to right. -/
def copies (m : κ → V) (cs : List (κ × κ)) : κ → V := cs.foldl (fun m c => Function.update m c.2 (m c.1)) m

@[simp] theorem copies_nil : copies m [] = m := rfl

@[simp] theorem copies_cons : copies m (c :: cs) = copies (Function.update m c.2 (m c.1)) cs := rfl

theorem copies_append (as bs : List (κ × κ)) : copies m (as ++ bs) = copies (copies m as) bs :=
  List.foldl_append

/-- A cell that is no target keeps its value. -/
theorem copies_of_notMem {k : κ} (h : ∀ c ∈ cs, c.2 ≠ k) : copies m cs k = m k := by
  induction cs generalizing m with
  | nil => rfl
  | cons c cs ih =>
    rw [copies_cons, ih fun c' hc' => h c' (List.mem_cons_of_mem _ hc')]
    exact Function.update_of_ne (h c List.mem_cons_self).symm _ _

/-- When no cell is written twice, or written before it is read, every target ends with what its source
held at the start. -/
theorem copies_snapshot (hnodup : (cs.map Prod.snd).Nodup) (hsafe : cs.Pairwise fun c d => c.2 ≠ d.1)
    (hc : c ∈ cs) : copies m cs c.2 = m c.1 := by
  induction cs generalizing m with
  | nil => cases hc
  | cons d cs ih =>
    rw [List.map_cons, List.nodup_cons] at hnodup
    rw [List.pairwise_cons] at hsafe
    rw [copies_cons]
    cases List.mem_cons.mp hc with
    | inl he =>
      subst he
      rw [copies_of_notMem fun e he h2 => hnodup.1 (List.mem_map.mpr ⟨e, he, h2⟩), Function.update_self]
    | inr hcs =>
      rw [ih hnodup.2 hsafe.2 hcs]
      exact Function.update_of_ne (hsafe.1 c hcs).symm _ _

/-! ### Copies counted up -/

section Range
variable (r w : ℕ → κ)

/-- The first `n` of the copies from `r i` to `w i`. -/
def upTo (n : ℕ) : List (κ × κ) := (List.range n).map fun i => (r i, w i)

variable {r w} {n : ℕ}

omit [DecidableEq κ] in
theorem upTo_succ : upTo r w (n + 1) = upTo r w n ++ [(r n, w n)] := by simp [upTo, List.range_succ]

omit [DecidableEq κ] in
theorem mem_upTo : c ∈ upTo r w n ↔ ∃ i, i < n ∧ (r i, w i) = c := by simp [upTo]

theorem copies_upTo_succ : copies m (upTo r w (n + 1)) =
    Function.update (copies m (upTo r w n)) (w n) (copies m (upTo r w n) (r n)) := by
  rw [upTo_succ, copies_append]
  rfl

/-- A target holds what the last copy to it read. -/
theorem copies_upTo_target {i : ℕ} (hi : i < n) (hlast : ∀ j, i < j → j < n → w j ≠ w i) :
    copies m (upTo r w n) (w i) = copies m (upTo r w i) (r i) := by
  induction n with
  | zero => exact absurd hi (Nat.not_lt_zero i)
  | succ n ih =>
    rw [copies_upTo_succ]
    rcases Nat.lt_succ_iff_lt_or_eq.mp hi with hlt | rfl
    · rw [Function.update_of_ne (hlast n hlt n.lt_succ_self).symm]
      exact ih hlt fun j hij hj => hlast j hij (hj.trans n.lt_succ_self)
    · exact Function.update_self _ _ _

/-- When a copy reads what was written `d` copies before it, and nothing that was written otherwise,
the first `d` sources repeat. -/
theorem copies_upTo_read {d : ℕ} (hd : 0 < d) (hback : ∀ i, r (i + d) = w i)
    (hlast : ∀ i j, i < j → j < i + d → w j ≠ w i) (hfirst : ∀ i j, i < d → j < i → w j ≠ r i) (i : ℕ) :
    copies m (upTo r w i) (r i) = m (r (i % d)) := by
  induction i using Nat.strong_induction_on with
  | _ i ih =>
    by_cases hi : i < d
    · rw [Nat.mod_eq_of_lt hi]
      refine copies_of_notMem fun c hc => ?_
      obtain ⟨j, hj, rfl⟩ := mem_upTo.mp hc
      exact hfirst i j hi hj
    · obtain ⟨k, rfl⟩ := Nat.exists_eq_add_of_le' (Nat.not_lt.mp hi)
      rw [hback k, copies_upTo_target (by omega) fun j h1 h2 => hlast k j h1 h2, ih k (by omega),
        Nat.add_mod_right]

end Range
end LuajitRs.Lib.Copies

/-! Performing a parallel assignment as a sequence of moves with one scratch register. A location may be
overwritten once no pending move reads it, or once its value is parked in the scratch register. -/
namespace LuajitRs.Lib.ParallelMove

variable {α W : Type} [DecidableEq α]

/-- The value that a pending move reads: the parked location is read from the scratch register. -/
def fetch (env : α → W) (scratch : W) (parked : Option α) (s : α) : W :=
  if parked = some s then scratch else env s

/-- No pending move reads the location itself any more. -/
def Free (pending : List (α × α)) (parked : Option α) (d : α) : Prop := ∀ m ∈ pending, m.2 = d → parked = some d

/-- The moves in `pending`, pairs of a destination and a source, are what is left of the assignment `all`
that started from `start`. -/
structure Owes (start : α → W) (all pending : List (α × α)) (parked : Option α) (env : α → W) (scratch : W) :
    Prop where
  mem : ∀ m ∈ pending, m ∈ all
  reads : ∀ m ∈ pending, fetch env scratch parked m.2 = start m.2
  done : ∀ m ∈ all, m ∉ pending → env m.1 = start m.2
  rest : ∀ a, (∀ m ∈ all, m.1 ≠ a) → env a = start a

section
variable {start env : α → W} {scratch : W} {all pending pending' : List (α × α)} {parked : Option α} {m : α × α}

theorem Owes.init (start : α → W) (scratch : W) (all : List (α × α)) : Owes start all all none start scratch :=
  ⟨fun _ h => h, fun _ _ => rfl, fun _ h hn => absurd h hn, fun _ _ => rfl⟩

/-- All moves are done: every destination has the value that its source had. -/
theorem Owes.finish (h : Owes start all [] parked env scratch) :
    (∀ m ∈ all, env m.1 = start m.2) ∧ ∀ a, (∀ m ∈ all, m.1 ≠ a) → env a = start a :=
  ⟨fun m hm => h.done m hm List.not_mem_nil, h.rest⟩

/-- A move whose destination is free. -/
theorem Owes.move (h : Owes start all pending parked env scratch) (hnodup : (all.map Prod.fst).Nodup)
    (hm : m ∈ pending) (hfree : Free pending' parked m.1) (hsub : ∀ x ∈ pending', x ∈ pending)
    (hsup : ∀ x ∈ pending, x = m ∨ x ∈ pending') :
    Owes start all pending' parked (Function.update env m.1 (fetch env scratch parked m.2)) scratch := by
  have hother : ∀ x ∈ all, x ≠ m → x.1 ≠ m.1 := fun x hx hne he =>
    hne (List.inj_on_of_nodup_map hnodup hx (h.mem m hm) he)
  refine ⟨fun x hx => h.mem x (hsub x hx), fun x hx => ?_, fun x hx hn => ?_, fun a ha => ?_⟩
  · have hold := h.reads x (hsub x hx)
    rw [fetch] at hold ⊢
    by_cases hp : parked = some x.2
    · rwa [if_pos hp] at hold ⊢
    · have hne : x.2 ≠ m.1 := fun he => hp (he ▸ hfree x hx he)
      rw [if_neg hp] at hold ⊢
      rwa [Function.update_of_ne hne]
  · by_cases hxm : x = m
    · rw [hxm, Function.update_self, h.reads m hm]
    · rw [Function.update_of_ne (hother x hx hxm)]
      exact h.done x hx fun hx' => (hsup x hx').elim hxm hn
  · rw [Function.update_of_ne (ha m (h.mem m hm)).symm]
    exact h.rest a ha

/-- The parked value has no reader left. -/
theorem Owes.unpark (h : Owes start all pending parked env scratch)
    (hno : ∀ m ∈ pending, parked ≠ some m.2) : Owes start all pending none env scratch := by
  refine ⟨h.mem, fun x hx => ?_, h.done, h.rest⟩
  have hold := h.reads x hx
  rw [fetch, if_neg (hno x hx)] at hold
  exact hold

/-- Copying a location into the scratch register. -/
theorem Owes.park (h : Owes start all pending none env scratch) (d : α) :
    Owes start all pending (some d) env (env d) := by
  refine ⟨h.mem, fun x hx => ?_, h.done, h.rest⟩
  have hx' := h.reads x hx
  rw [fetch, if_neg (fun h => nomatch h)] at hx'
  rw [fetch]
  split
  · next he => rw [Option.some.inj he, hx']
  · exact hx'

/-- While a parked value has a reader some destination is free: otherwise the destinations would be sources of
the remaining moves, of which there are fewer. -/
theorem exists_free (hnodup : (pending.map Prod.fst).Nodup) {p : α} (hp : ∃ m ∈ pending, m.2 = p) :
    ∃ m ∈ pending, Free pending (some p) m.1 := by
  by_contra hnone
  push Not at hnone
  have hsub : (pending.map Prod.fst).toFinset ⊆
      ((pending.filter fun m => m.2 ≠ p).map Prod.snd).toFinset := by
    intro d hd
    rw [List.mem_toFinset, List.mem_map] at hd
    obtain ⟨m, hm, rfl⟩ := hd
    have hblock := hnone m hm
    rw [Free] at hblock
    push Not at hblock
    obtain ⟨x, hx, hxd, hxp⟩ := hblock
    rw [List.mem_toFinset, List.mem_map]
    exact ⟨x, List.mem_filter.mpr ⟨hx, decide_eq_true fun he => hxp (by rw [← he, hxd])⟩, hxd⟩
  have hcard := Finset.card_le_card hsub
  rw [List.toFinset_card_of_nodup hnodup, List.length_map] at hcard
  have hle := List.toFinset_card_le ((pending.filter fun m => m.2 ≠ p).map Prod.snd)
  have hlt : (pending.filter fun m => m.2 ≠ p).length < pending.length := by
    obtain ⟨m, hm, hmp⟩ := hp
    exact List.length_filter_lt_length_iff_exists.mpr ⟨m, hm, by simpa using hmp⟩
  rw [List.length_map] at hle
  omega

end
end LuajitRs.Lib.ParallelMove
