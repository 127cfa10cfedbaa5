import LuajitRs.Lib.ParallelMove
import LuajitRs.Jit.Ir

/-! The hand-over prelude of a side trace in machine code: the env slots of the parent are moved into the slots of
the inherited loads, in an order that loses no value, with a scratch register for cycles. -/
namespace LuajitRs.Asm
open Lib.ParallelMove

/-- `env_disp`: the displacement of the slot of an instruction from the env register. -/
def envDisp (r : ℕ) : ℤ := ((r : ℤ) - Ir.REF_BIAS) * 8

/-- The instructions of the prelude, with the displacement of their memory operand. -/
inductive Mov
  /-- Load the scratch register. -/
  | movsdLoad (disp : ℤ)
  | movsdStore (disp : ℤ)
  /-- Load `rax`. -/
  | movLoad (disp : ℤ)
  | movStore (disp : ℤ)
  deriving DecidableEq, Repr

/-- The two registers, and the words at displacements from the env register. -/
structure Regs (W : Type) where
  xmm : W
  rax : W
  env : ℤ → W

section
variable {W : Type}

def Mov.exec (m : Regs W) : Mov → Regs W
  | movsdLoad disp => { m with xmm := m.env disp }
  | movsdStore disp => { m with env := Function.update m.env disp m.xmm }
  | movLoad disp => { m with rax := m.env disp }
  | movStore disp => { m with env := Function.update m.env disp m.rax }

def exec (code : List Mov) (m : Regs W) : Regs W := code.foldl Mov.exec m

end

/-- The destination of a move is read by no pending move, or only through the parked copy. -/
def ready (pending : List (ℕ × ℕ)) (parked : Option ℕ) (m : ℕ × ℕ) : Bool :=
  !pending.any fun p => p.2 = m.1 && parked ≠ some p.2

/-- The code of one move. -/
def move (parked : Option ℕ) (m : ℕ × ℕ) : List Mov :=
  if parked = some m.2 then [.movsdStore (envDisp m.1)] else [.movLoad (envDisp m.2), .movStore (envDisp m.1)]

/-- The parked location after a move from `s`: nothing is parked any more after its last reader. -/
def unpark (pending : List (ℕ × ℕ)) (parked : Option ℕ) (s : ℕ) : Option ℕ :=
  if parked = some s && !pending.any fun p => p.2 = s then none else parked

/-- The loop over the pending moves. It fails if a second location would have to be parked. -/
def handoverLoop : ℕ → List (ℕ × ℕ) → Option ℕ → Option (List Mov)
  | _, [], _ => some []
  | 0, _ :: _, _ => none
  | fuel+1, m₀ :: rest, parked =>
    let pending := m₀ :: rest
    match pending.findIdx? (ready pending parked) with
    | some i => do
      let m ← pending[i]?
      let code ← handoverLoop fuel (pending.eraseIdx i) (unpark (pending.eraseIdx i) parked m.2)
      pure (move parked m ++ code)
    | none =>
      -- A cycle: park the current value of the first destination.
      if parked.isSome then none
      else do
        let code ← handoverLoop fuel pending (some m₀.1)
        pure (.movsdLoad (envDisp m₀.1) :: code)

/-- `emit_handover` for a parent map of own and parent slots. -/
def emitHandover (parentmap : List (ℕ × ℕ)) : Option (List Mov) :=
  let pending := parentmap.filter fun p => p.1 ≠ p.2
  handoverLoop (2 * pending.length + 1) pending none

/-! ### Execution -/

section
variable {W : Type} {pending : List (ℕ × ℕ)} {parked : Option ℕ} {m : ℕ × ℕ}

/-- The slots of a machine. -/
def slots (s : Regs W) (r : ℕ) : W := s.env (envDisp r)

theorem envDisp_injective : Function.Injective envDisp := by
  intro a b h
  rw [envDisp, envDisp] at h
  omega

theorem slots_update (s : Regs W) (d : ℕ) (v : W) :
    (fun r => Function.update s.env (envDisp d) v (envDisp r)) = Function.update (slots s) d v :=
  Function.update_comp_eq_of_injective _ envDisp_injective _ _

/-- A move stores what its source is read as, and leaves the scratch register. -/
theorem exec_move (parked : Option ℕ) (m : ℕ × ℕ) (s : Regs W) : slots (exec (move parked m) s) =
    Function.update (slots s) m.1 (fetch (slots s) s.xmm parked m.2) ∧ (exec (move parked m) s).xmm = s.xmm := by
  rw [move, fetch]
  split
  · exact ⟨slots_update s m.1 s.xmm, rfl⟩
  · exact ⟨slots_update s m.1 (slots s m.2), rfl⟩

theorem ready_iff : ready pending parked m = true ↔ Free pending parked m.1 := by
  rw [ready, Free, Bool.not_eq_true', List.any_eq_false]
  refine forall₂_congr fun p hp => ?_
  by_cases h : p.2 = m.1 <;> simp [h]

theorem mem_eraseIdx_cases {l : List (ℕ × ℕ)} {i : ℕ} (hi : i < l.length) {x : ℕ × ℕ} (hx : x ∈ l) :
    x = l.get ⟨i, hi⟩ ∨ x ∈ l.eraseIdx i := by
  obtain ⟨j, hj, rfl⟩ := List.getElem_of_mem hx
  by_cases hji : j = i
  · subst hji
    exact .inl rfl
  · exact .inr (List.mem_eraseIdx_iff_getElem.mpr ⟨j, hj, hji, rfl⟩)

/-- A parked location keeps a reader. -/
theorem exists_reader {pending' : List (ℕ × ℕ)} (hread : ∀ p, parked = some p → ∃ x ∈ pending, x.2 = p)
    (hsup : ∀ x ∈ pending, x = m ∨ x ∈ pending') (p : ℕ) (hp : unpark pending' parked m.2 = some p) :
    ∃ x ∈ pending', x.2 = p := by
  rw [unpark] at hp
  split at hp
  · cases hp
  · next hcond =>
    by_cases hpm : p = m.2
    · rw [hp, hpm, decide_eq_true rfl, Bool.true_and, Bool.not_eq_true',
        Bool.not_eq_false, List.any_eq_true] at hcond
      obtain ⟨x, hx, he⟩ := hcond
      exact ⟨x, hx, (of_decide_eq_true he).trans hpm.symm⟩
    · obtain ⟨x, hx, he⟩ := hread p hp
      exact ⟨x, (hsup x hx).resolve_left fun hxm => hpm (by rw [← he, hxm]), he⟩

/-- What is left of the parent map, performed on the slots of `s` so far. -/
abbrev Pending (start : ℕ → W) (all pending : List (ℕ × ℕ)) (parked : Option ℕ) (s : Regs W) : Prop :=
  Owes start all pending parked (slots s) s.xmm

/-- One move of the loop. -/
theorem Pending.move {start : ℕ → W} {all pending' : List (ℕ × ℕ)} {s : Regs W}
    (h : Pending start all pending parked s) (hall : (all.map Prod.fst).Nodup) (hm : m ∈ pending)
    (hready : ready pending parked m = true) (hsub : ∀ x ∈ pending', x ∈ pending)
    (hsup : ∀ x ∈ pending, x = m ∨ x ∈ pending') :
    Pending start all pending' (unpark pending' parked m.2) (exec (Asm.move parked m) s) := by
  obtain ⟨hslots, hxmm⟩ := exec_move parked m s
  have hfree : Free pending' parked m.1 := fun x hx => ready_iff.mp hready x (hsub x hx)
  have hmoved := Owes.move h hall hm hfree hsub hsup
  rw [← hslots, ← hxmm] at hmoved
  rw [unpark]
  split
  · next hcond =>
    rw [Bool.and_eq_true, decide_eq_true_eq, Bool.not_eq_true', List.any_eq_false] at hcond
    refine Owes.unpark hmoved fun x hx he => ?_
    rw [hcond.1, Option.some.injEq] at he
    exact hcond.2 x hx (decide_eq_true he.symm)
  · exact hmoved

theorem exec_append (c d : List Mov) (s : Regs W) : exec (c ++ d) s = exec d (exec c s) := List.foldl_append

/-- The scratch register takes the current value of a destination. -/
theorem Pending.park {start : ℕ → W} {all : List (ℕ × ℕ)} {s : Regs W} (h : Pending start all pending none s)
    (d : ℕ) : Pending start all pending (some d) (exec [.movsdLoad (envDisp d)] s) :=
  Owes.park h d

/-- A destination that cannot be overwritten has a reader. -/
theorem exists_blocker (hm : ready pending none m = false) : ∃ x ∈ pending, x.2 = m.1 := by
  rw [ready, Bool.not_eq_false', List.any_eq_true] at hm
  obtain ⟨x, hx, he⟩ := hm
  rw [Bool.and_eq_true, decide_eq_true_eq] at he
  exact ⟨x, hx, he.1⟩

theorem handoverLoop_spec {all : List (ℕ × ℕ)} (hall : (all.map Prod.fst).Nodup) (fuel : ℕ) (parked : Option ℕ)
    (hpend : (pending.map Prod.fst).Nodup) (hread : ∀ p, parked = some p → ∃ x ∈ pending, x.2 = p)
    (hfuel : 2 * pending.length + (if parked = none then 1 else 0) ≤ fuel) :
    ∃ code, handoverLoop fuel pending parked = some code ∧
      ∀ (start : ℕ → W) (s : Regs W), Pending start all pending parked s →
        Pending start all [] none (exec code s) := by
  have hdone : ∀ q : Option ℕ, (∀ p, q = some p → ∃ x ∈ ([] : List (ℕ × ℕ)), x.2 = p) → q = none := by
    intro q hq
    cases q with
    | none => rfl
    | some p =>
      obtain ⟨x, hx, -⟩ := hq p rfl
      cases hx
  induction fuel generalizing pending parked with
  | zero =>
    cases pending with
    | nil => exact ⟨[], rfl, fun start s h => hdone parked hread ▸ h⟩
    | cons m rest => rw [List.length_cons] at hfuel; omega
  | succ fuel ih =>
    cases pending with
    | nil => exact ⟨[], rfl, fun start s h => hdone parked hread ▸ h⟩
    | cons m₀ rest =>
      rw [handoverLoop]
      have hm₀ : m₀ ∈ m₀ :: rest := List.mem_cons_self
      generalize m₀ :: rest = pending at *
      cases hfind : pending.findIdx? (ready pending parked) with
      | some i =>
        obtain ⟨hi, hready, -⟩ := List.findIdx?_eq_some_iff_getElem.mp hfind
        have hsup := fun x => mem_eraseIdx_cases hi (x := x)
        have hsub := fun x (hx : x ∈ pending.eraseIdx i) => List.mem_of_mem_eraseIdx hx
        have hlen := List.length_eraseIdx_of_lt hi
        obtain ⟨code, hcode, hexec⟩ := ih _ (((List.eraseIdx_sublist pending i).map _).nodup hpend)
          (exists_reader hread hsup) (by rw [hlen]; split <;> omega)
        refine ⟨Asm.move parked pending[i] ++ code, ?_, fun start s hs => ?_⟩
        · simp only [List.getElem?_eq_getElem hi]
          exact congrArg (fun c => c.bind fun code => some (Asm.move parked pending[i] ++ code)) hcode
        · rw [exec_append]
          exact hexec start _ (Pending.move hs hall (List.getElem_mem hi) hready hsub hsup)
      | none =>
        have hblocked := List.findIdx?_eq_none_iff.mp hfind
        cases parked with
        | some p =>
          obtain ⟨x, hx, hfree⟩ := exists_free hpend (hread p rfl)
          exact absurd (ready_iff.mpr hfree) (by rw [hblocked x hx]; exact Bool.false_ne_true)
        | none =>
          obtain ⟨code, hcode, hexec⟩ := ih (some m₀.1) hpend
            (fun p hp => Option.some.inj hp ▸ exists_blocker (hblocked m₀ hm₀))
            (by rw [if_pos rfl] at hfuel; rw [if_neg (fun h => nomatch h)]; omega)
          refine ⟨.movsdLoad (envDisp m₀.1) :: code, ?_, fun start s hs => ?_⟩
          · exact congrArg (fun c => c.bind fun code => some (Mov.movsdLoad (envDisp m₀.1) :: code)) hcode
          · exact hexec start _ (Pending.park hs m₀.1)

/-- The prelude is a parallel assignment. -/
theorem emitHandover_parallel (parentmap : List (ℕ × ℕ)) (hnodup : (parentmap.map Prod.fst).Nodup) :
    ∃ code, emitHandover parentmap = some code ∧ ∀ s : Regs W,
      (∀ m ∈ parentmap, slots (exec code s) m.1 = slots s m.2) ∧
      ∀ r, (∀ m ∈ parentmap, m.1 ≠ r) → slots (exec code s) r = slots s r := by
  have hpend : ((parentmap.filter fun p => p.1 ≠ p.2).map Prod.fst).Nodup :=
    (List.filter_sublist.map Prod.fst).nodup hnodup
  obtain ⟨code, hcode, hexec⟩ := handoverLoop_spec (W := W) hpend
    (2 * (parentmap.filter fun p => p.1 ≠ p.2).length + 1) none hpend (fun _ h => nomatch h)
    (by rw [if_pos rfl])
  refine ⟨code, hcode, fun s => ?_⟩
  obtain ⟨hmoved, hrest⟩ := Owes.finish (hexec (slots s) s (Owes.init (slots s) s.xmm _))
  refine ⟨fun m hm => ?_, fun r hr => hrest r fun m hm => hr m (List.mem_of_mem_filter hm)⟩
  by_cases hid : m.1 = m.2
  · -- A slot that is its own source is written by no move.
    rw [← hid]
    refine hrest m.1 fun x hx he => ?_
    have hxm := List.inj_on_of_nodup_map hnodup (List.mem_of_mem_filter hx) hm he
    have hne : x.1 ≠ x.2 := of_decide_eq_true (List.mem_filter.mp hx).2
    exact hne (by rw [hxm, hid])
  · exact hmoved m (List.mem_filter.mpr ⟨hm, decide_eq_true hid⟩)

/-- Two slots exchanged, the old value of one of them also copied to a third. -/
theorem emitHandover_parallel_exchange :
    ∃ code, emitHandover [(32769, 32770), (32770, 32769), (32771, 32769)] = some code ∧ ∀ s : Regs ℕ,
      (∀ m ∈ [(32769, 32770), (32770, 32769), (32771, 32769)], slots (exec code s) m.1 = slots s m.2) ∧
      ∀ r, (∀ m ∈ [(32769, 32770), (32770, 32769), (32771, 32769)], m.1 ≠ r) → slots (exec code s) r = slots s r :=
  emitHandover_parallel _ (by decide)

end
end LuajitRs.Asm
