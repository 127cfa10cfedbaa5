import LuajitRs.Runtime.Value
import Mathlib.Logic.Function.Basic
import Mathlib.Logic.Relation

/-! Upvalues as pointers into one memory of words. An open upvalue points into the stack of its thread and is
repointed when the stack moves; a closed one points to its own field for good. -/
namespace LuajitRs.Vm

/-- An upvalue: where its value is, and where its own field is. -/
structure Upval where
  v : ℕ
  tv : ℕ
  immutable : Bool
  deriving DecidableEq

def Upval.isOpen (uv : Upval) : Bool := uv.v ≠ uv.tv

/-- The memory of a thread's stack. -/
structure Extent where
  sp : ℕ
  len : ℕ

def Extent.Holds (x : Extent) (p : ℕ) : Prop := x.sp ≤ p ∧ p < x.sp + x.len

instance (x : Extent) (p : ℕ) : Decidable (x.Holds p) := inferInstanceAs (Decidable (_ ∧ _))

/-- Words by their addresses, and what points to them. -/
structure Space where
  word : ℕ → LuaValue
  thread : ℕ → Extent
  /-- The running thread. -/
  cur : ℕ
  upval : ℕ → Upval
  /-- The upvalues of a Lua closure. -/
  closure : ℕ → Option (List ℕ)

namespace Space
variable (S : Space)

def stack : Extent := S.thread S.cur

/-- The current value of an upvalue. -/
def get (u : ℕ) : LuaValue := S.word (S.upval u).v

def set (p : ℕ) (v : LuaValue) : Space := { S with word := Function.update S.word p v }

/-- `Upval::close`. -/
def close (u : ℕ) : Space :=
  if (S.upval u).isOpen then
    { S with
      word := Function.update S.word (S.upval u).tv (S.get u)
      upval := Function.update S.upval u { S.upval u with v := (S.upval u).tv } }
  else S

/-- `Upval::repoint`, for an upvalue into the old stack. -/
def repoint (old : Extent) (sp : ℕ) (uv : Upval) : Upval :=
  if old.Holds uv.v then { uv with v := sp + (uv.v - old.sp) } else uv

/-- `stack_ensure`: the stack of the running thread is copied to another place. -/
def move (new : Extent) : Space where
  word p :=
    if new.Holds p then if p < new.sp + S.stack.len then S.word (S.stack.sp + (p - new.sp)) else .nil else S.word p
  thread := Function.update S.thread S.cur new
  cur := S.cur
  upval u := repoint S.stack new.sp (S.upval u)
  closure := S.closure

/-- No other stack and no upvalue lies there. -/
def Free (t : ℕ) (x : Extent) : Prop :=
  (∀ u, ¬ x.Holds (S.upval u).tv) ∧ ∀ t' p, t' ≠ t → x.Holds p → ¬ (S.thread t').Holds p

/-- The stacks and the upvalues do not overlap. -/
def Apart : Prop := ∀ t, S.Free t (S.thread t)

/-- What the program does to its memory. -/
inductive Step (S : Space) : Space → Prop
  | set (p : ℕ) (v : LuaValue) : Step S (S.set p v)
  | stackEnsure (new : Extent) (free : S.Free S.cur new) (le : S.stack.len ≤ new.len) : Step S (S.move new)
  | switch (t : ℕ) : Step S { S with cur := t }
  | findUpval (u slot : ℕ) (immutable : Bool) (lt : slot < S.stack.len)
      (fresh : ∀ f us, S.closure f = some us → u ∉ us) :
      Step S { S with
        upval := Function.update S.upval u ⟨S.stack.sp + slot, (S.upval u).tv, immutable⟩ }
  | close (u : ℕ) : Step S (S.close u)
  | newClosure (f : ℕ) (us : List ℕ) (fresh : S.closure f = none) :
      Step S { S with closure := Function.update S.closure f (some us) }

abbrev Runs : Space → Space → Prop := Relation.ReflTransGen Step

variable {S} {S' : Space} {u t i f : ℕ} {us : List ℕ}

@[simp] theorem tv_repoint (old : Extent) (sp : ℕ) (uv : Upval) : (repoint old sp uv).tv = uv.tv := by
  unfold repoint
  split <;> rfl

@[simp] theorem tv_close (u u' : ℕ) : ((S.close u).upval u').tv = (S.upval u').tv := by
  unfold close
  split
  · by_cases hu : u' = u
    · subst hu
      simp
    · simp [hu]
  · rfl

theorem thread_close (u : ℕ) : (S.close u).thread = S.thread := by
  unfold close
  split <;> rfl

theorem closure_close (u : ℕ) : (S.close u).closure = S.closure := by
  unfold close
  split <;> rfl

theorem Step.tv (h : Step S S') (u : ℕ) : (S'.upval u).tv = (S.upval u).tv := by
  cases h with
  | stackEnsure new free le => exact tv_repoint _ _ _
  | close u' => exact tv_close u' u
  | findUpval u' slot imm lt fresh =>
    by_cases hu : u = u'
    · subst hu
      simp
    · simp [hu]
  | _ => rfl

theorem Step.closure (h : Step S S') (hf : S.closure f = some us) : S'.closure f = some us := by
  cases h with
  | close u => rw [closure_close, hf]
  | newClosure f' us' fresh =>
    have hne : f ≠ f' := by
      intro heq
      rw [heq, fresh] at hf
      cases hf
    rw [← hf]
    exact Function.update_of_ne hne _ _
  | _ => exact hf

/-- A change that leaves the stacks and the fields of the upvalues where they are. -/
theorem Apart.congr (ha : S.Apart) (ht : S'.thread = S.thread) (hu : ∀ u, (S'.upval u).tv = (S.upval u).tv) :
    S'.Apart := by
  intro t
  rw [ht]
  exact ⟨fun u => hu u ▸ (ha t).1 u, ht ▸ (ha t).2⟩

theorem Apart.step (ha : S.Apart) (h : Step S S') : S'.Apart := by
  cases h with
  | stackEnsure new free le =>
    intro t
    rw [Free]
    simp only [move, tv_repoint]
    by_cases ht : t = S.cur
    · subst ht
      rw [Function.update_self]
      refine ⟨free.1, fun t' p ht' hp => ?_⟩
      rw [Function.update_of_ne ht']
      exact free.2 t' p ht' hp
    · rw [Function.update_of_ne ht]
      refine ⟨(ha t).1, fun t' p ht' hp => ?_⟩
      by_cases hc : t' = S.cur
      · subst hc
        rw [Function.update_self]
        exact fun hnew => free.2 t p ht hnew hp
      · rw [Function.update_of_ne hc]
        exact (ha t).2 t' p ht' hp
  | close u => exact ha.congr (thread_close u) (fun u' => tv_close u u')
  | findUpval u slot imm lt fresh => exact ha.congr rfl (Step.findUpval (S := S) u slot imm lt fresh).tv
  | _ => exact ha

theorem Apart.runs (ha : S.Apart) (h : Runs S S') : S'.Apart := by
  induction h with
  | refl => exact ha
  | tail _ hstep ih => exact ih.step hstep

theorem Runs.closure (h : Runs S S') (hf : S.closure f = some us) : S'.closure f = some us := by
  induction h with
  | refl => exact hf
  | tail _ hstep ih => exact hstep.closure ih

/-! ### Where the value of an upvalue is -/

/-- A closed upvalue stays where it is. -/
theorem Step.closed (ha : S.Apart) (h : Step S S') (hf : S.closure f = some us) (hu : u ∈ us)
    (hc : (S.upval u).isOpen = false) : (S'.upval u).v = (S.upval u).v ∧ (S'.upval u).isOpen = false := by
  have hv : (S.upval u).v = (S.upval u).tv := by simpa [Upval.isOpen] using hc
  cases h with
  | stackEnsure new free le =>
    have hout : ¬ S.stack.Holds (S.upval u).v := hv ▸ (ha S.cur).1 u
    have heq : repoint S.stack new.sp (S.upval u) = S.upval u := if_neg hout
    exact ⟨congrArg Upval.v heq, (congrArg Upval.isOpen heq).trans hc⟩
  | close u' =>
    unfold Space.close
    split
    · next ho =>
      have hne : u ≠ u' := by
        intro heq
        rw [← heq, hc] at ho
        cases ho
      simp [hne, hc]
    · exact ⟨rfl, hc⟩
  | findUpval u' slot imm lt fresh =>
    have hne : u ≠ u' := fun heq => fresh f us hf (heq ▸ hu)
    simp [hne, hc]
  | _ => exact ⟨rfl, hc⟩

theorem Runs.closed (ha : S.Apart) (h : Runs S S') (hf : S.closure f = some us) (hu : u ∈ us)
    (hc : (S.upval u).isOpen = false) : (S'.upval u).v = (S.upval u).v ∧ (S'.upval u).isOpen = false := by
  induction h with
  | refl => exact ⟨rfl, hc⟩
  | tail hrun hstep ih =>
    obtain ⟨hv, ho⟩ := hstep.closed (ha.runs hrun) (Runs.closure hrun hf) hu ih.2
    exact ⟨hv.trans ih.1, ho⟩

/-- The upvalue is open at a slot of a thread. -/
structure At (S : Space) (u t i : ℕ) : Prop where
  v : (S.upval u).v = (S.thread t).sp + i
  lt : i < (S.thread t).len

theorem At.holds (h : S.At u t i) : (S.thread t).Holds (S.upval u).v := by
  have hv := h.v
  have hlt := h.lt
  constructor <;> omega

/-- An upvalue follows the stack of its thread, until it is closed. -/
theorem Step.at (ha : S.Apart) (h : Step S S') (hf : S.closure f = some us) (hu : u ∈ us) (hat : S.At u t i)
    (ho : (S'.upval u).isOpen = true) : S'.At u t i := by
  cases h with
  | set p v => exact ⟨hat.v, hat.lt⟩
  | switch t' => exact ⟨hat.v, hat.lt⟩
  | newClosure f' us' fresh => exact ⟨hat.v, hat.lt⟩
  | stackEnsure new free le =>
    by_cases ht : t = S.cur
    · subst ht
      have hthread : (S.move new).thread S.cur = new := Function.update_self _ _ _
      have hv : ((S.move new).upval u).v = new.sp + ((S.upval u).v - S.stack.sp) := by
        simp only [move, repoint]
        exact congrArg Upval.v (if_pos hat.holds)
      have hlt : i < S.stack.len := hat.lt
      refine ⟨?_, by rw [hthread]; omega⟩
      rw [hv, hthread, hat.v, stack, Nat.add_sub_cancel_left]
    · have hthread : (S.move new).thread t = S.thread t := Function.update_of_ne ht _ _
      have hv : ((S.move new).upval u).v = (S.upval u).v := by
        simp only [move, repoint]
        exact congrArg Upval.v (if_neg ((ha t).2 S.cur _ (Ne.symm ht) hat.holds))
      exact ⟨by rw [hv, hthread, hat.v], by rw [hthread]; exact hat.lt⟩
  | close u' =>
    unfold Space.close at ho ⊢
    split
    · next hopen =>
      have hne : u ≠ u' := by
        intro heq
        subst heq
        rw [if_pos hopen] at ho
        simp [Upval.isOpen] at ho
      exact ⟨by simp [hne, hat.v], hat.lt⟩
    · exact hat
  | findUpval u' slot imm lt fresh =>
    have hne : u ≠ u' := fun heq => fresh f us hf (heq ▸ hu)
    exact ⟨by simp [hne, hat.v], hat.lt⟩

/-- An open upvalue of a closure has been open all the time. -/
theorem Runs.at (ha : S.Apart) (h : Runs S S') (hf : S.closure f = some us) (hu : u ∈ us) (hat : S.At u t i)
    (ho : (S'.upval u).isOpen = true) : S'.At u t i := by
  induction h with
  | refl => exact hat
  | tail hrun hstep ih =>
    refine hstep.at (ha.runs hrun) (Runs.closure hrun hf) hu (ih ?_) ho
    by_contra hc
    have hclosed := (hstep.closed (ha.runs hrun) (Runs.closure hrun hf) hu (Bool.not_eq_true _ ▸ hc)).2
    rw [hclosed] at ho
    cases ho

end Space
end LuajitRs.Vm
