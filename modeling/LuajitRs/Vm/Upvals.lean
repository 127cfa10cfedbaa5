import Mathlib.Logic.Relation
import LuajitRs.Runtime.Gc.Pool

/-! Open upvalues of a thread, and what becomes of them when an error unwinds the host stack. A thread runs
as a nesting of interpreter activations, each with its chain of Lua frames, and of C functions; `pcall` and
`xpcall` are C functions that catch the error of their callee, and a coroutine's error is caught below its
first activation. The other threads touch this one by writing through its upvalues only. -/
namespace LuajitRs.Vm.Upvals

variable {V : Type}

/-- An upvalue: open, at a slot of the stack, or closed over its own value. -/
inductive Cell (V : Type)
  | opened (slot : ℕ)
  | closed (v : V)

def Cell.isAt (slot : ℕ) : Cell V → Bool
  | .opened s => s = slot
  | .closed _ => false

/-- An activation on the host stack. An interpreter has the base of its running frame and those of the callers
in the same activation; a C function has its base, and the slot of the callee whose error it catches. -/
inductive Host
  | interp (cur : ℕ) (callers : List ℕ)
  | cfun (base : ℕ) (callee : Option ℕ)
  deriving DecidableEq, Repr

structure Thread (V : Type) where
  stack : ℕ → V
  cells : ℕ → Cell V
  /-- The number of upvalues created so far. -/
  count : ℕ
  openuv : List ℕ
  /-- The host stack, the running activation first. -/
  host : List Host
  /-- The frames of a suspended coroutine. -/
  suspended : Option (ℕ × List ℕ)

namespace Thread

def new (nil : V) : Thread V := ⟨fun _ => nil, fun _ => .closed nil, 0, [], [], none⟩

/-- Find or create the open upvalue of a slot. -/
def findUpval (t : Thread V) (slot : ℕ) : Thread V × ℕ :=
  match t.openuv.find? fun uv => (t.cells uv).isAt slot with
  | some uv => (t, uv)
  | none =>
    ({ t with cells := Function.update t.cells t.count (.opened slot), count := t.count + 1,
              openuv := t.openuv ++ [t.count] }, t.count)

/-- `new_closure` captures registers of the running frame. -/
def newClosure (t : Thread V) (base : ℕ) (locals : List ℕ) : Thread V :=
  locals.foldl (fun t r => (t.findUpval (base + r)).1) t

def close (t : Thread V) (i uv slot : ℕ) : Thread V :=
  { t with cells := Function.update t.cells uv (.closed (t.stack slot)), openuv := swapRemove t.openuv i }

/-- The loop of `close_upvals` from position `i` on, for at most `k` rounds. -/
def closeLoop (level : ℕ) : ℕ → ℕ → Thread V → Thread V
  | 0, _, t => t
  | k+1, i, t =>
    match t.openuv[i]? with
    | none => t
    | some uv =>
      match t.cells uv with
      | .opened slot =>
        if level ≤ slot then closeLoop level k i (t.close i uv slot) else closeLoop level k (i + 1) t
      | .closed _ => closeLoop level k (i + 1) t

/-- Close every open upvalue at or above `level`. Each round drops or passes one of the list. -/
def closeUpvals (t : Thread V) (level : ℕ) : Thread V := closeLoop level t.openuv.length 0 t

/-- Write through an upvalue. -/
def upvalSet (t : Thread V) (uv : ℕ) (v : V) : Thread V :=
  match t.cells uv with
  | .opened slot => { t with stack := Function.update t.stack slot v }
  | .closed _ => { t with cells := Function.update t.cells uv (.closed v) }

/-! ### Unwinding -/

/-- An error leaves the activations one by one. `Interp::run` closes the upvalues from the base of its running
frame on, C functions pass the error on, and the first one that catches it goes on. -/
def unwind : List Host → Thread V → Thread V
  | [], t => { t with host := [] }
  | .interp cur _ :: rest, t => unwind rest (t.closeUpvals cur)
  | .cfun _ none :: rest, t => unwind rest t
  | .cfun base (some _) :: rest, t => { t with host := .cfun base none :: rest }

def raise (t : Thread V) : Thread V := unwind t.host t

/-- The callee of the activation that catches an error: that of `pcall` or `xpcall`, or the coroutine's
function in slot 0. -/
def calleeOf : List Host → ℕ
  | [] => 0
  | .cfun _ (some callee) :: _ => callee
  | .interp _ _ :: rest | .cfun _ none :: rest => calleeOf rest

/-- The running frames of the interpreter activations that an error discards. -/
def discarded : List Host → List ℕ
  | [] | .cfun _ (some _) :: _ => []
  | .interp cur _ :: rest => cur :: discarded rest
  | .cfun _ none :: rest => discarded rest

/-! ### Runs -/

/-- The activation of a callee. -/
inductive Entry
  | lua (base : ℕ)
  | c (base : ℕ)
  deriving DecidableEq, Repr

def Entry.host : Entry → Host
  | .lua base => .interp base []
  | .c base => .cfun base none

/-- The activation below a callee that returned: a protected call is over. -/
def resumeHost : List Host → List Host
  | .cfun base _ :: rest => .cfun base none :: rest
  | host => host

inductive Action (V : Type)
  /-- The first resume of the coroutine, or a call from the embedding program. -/
  | start (e : Entry)
  | call (base : ℕ)
  | tailcall (base : ℕ)
  | ret
  | set (r : ℕ) (v : V)
  | fnew (locals : List ℕ)
  | uclo (r : ℕ)
  | upvalSet (uv : ℕ) (v : V)
  | callC (base : ℕ)
  /-- A call from the host: by a C function, for a metamethod, a hook or a finalizer. -/
  | execute (e : Entry)
  /-- The protected call of `pcall` or `xpcall`, or the message handler of `xpcall`. -/
  | protectedCall (callee : ℕ) (e : Entry)
  /-- A C function writes its arguments, temporaries or results. -/
  | setC (slot : ℕ) (v : V)
  | retC
  | raise
  | yield
  | resume

def step (t : Thread V) : Action V → Option (Thread V)
  | .start e => if t.host = [] ∧ t.suspended = none then some { t with host := [e.host] } else none
  | .call base => match t.host with
    | .interp cur callers :: rest =>
      if cur < base then some { t with host := .interp base (cur :: callers) :: rest } else none
    | _ => none
  | .tailcall base => match t.host with
    | .interp _ callers :: rest => some { t with host := .interp base callers :: rest }
    | _ => none
  | .ret => match t.host with
    | .interp cur (caller :: callers) :: rest =>
      some { t.closeUpvals cur with host := .interp caller callers :: rest }
    | .interp cur [] :: rest => some { t.closeUpvals cur with host := resumeHost rest }
    | _ => none
  | .set r v => match t.host with
    | .interp cur _ :: _ => some { t with stack := Function.update t.stack (cur + r) v }
    | _ => none
  | .fnew locals => match t.host with
    | .interp cur _ :: _ => some (t.newClosure cur locals)
    | _ => none
  | .uclo r => match t.host with
    | .interp cur _ :: _ => some (t.closeUpvals (cur + r))
    | _ => none
  | .upvalSet uv v => some (t.upvalSet uv v)
  | .callC base => match t.host with
    | .interp cur _ :: _ => if cur < base then some { t with host := .cfun base none :: t.host } else none
    | _ => none
  | .execute e => if t.host = [] then none else some { t with host := e.host :: t.host }
  | .protectedCall callee e => match t.host with
    | .cfun base _ :: rest => some { t with host := e.host :: .cfun base (some callee) :: rest }
    | _ => none
  | .setC slot v => match t.host with
    | .cfun base _ :: _ =>
      if base ≤ slot + 2 then some { t with stack := Function.update t.stack slot v } else none
    | _ => none
  | .retC => match t.host with
    | .cfun _ _ :: rest => some { t with host := resumeHost rest }
    | _ => none
  | .raise => if t.host = [] then none else some t.raise
  | .yield => match t.host.getLast? with
    -- Every layer overwrites the suspension, so that the lowest activation is the one that is resumed.
    | some (.interp cur callers) => some { t with host := [], suspended := some (cur, callers) }
    | _ => none
  | .resume => match t.suspended with
    | some (cur, callers) =>
      if t.host = [] then some { t with host := [.interp cur callers], suspended := none } else none
    | none => none

def Step (t t' : Thread V) : Prop := ∃ a, t.step a = some t'

end Thread
end LuajitRs.Vm.Upvals

/-! What unwinding detaches. An interpreter activation closes upvalues from its running frame on only, so an error
leaves the upvalues of the other frames of the lowest discarded activation open. -/
namespace LuajitRs.Vm.Upvals
open Relation

/-- An upvalue after those at the slots with property `p` are closed. -/
def Cell.closeAt {V : Type} (stack : ℕ → V) (p : ℕ → Prop) [DecidablePred p] : Cell V → Cell V
  | .opened slot => if p slot then .closed (stack slot) else .opened slot
  | .closed v => .closed v

namespace Thread
variable {V : Type} {t t' : Thread V} {uv slot level i k : ℕ} {kept rest : List ℕ}

/-- The list of open upvalues is exact. -/
structure Wf (t : Thread V) : Prop where
  nodup : t.openuv.Nodup
  mem : ∀ uv, uv ∈ t.openuv ↔ ∃ slot, t.cells uv = .opened slot
  lt : ∀ uv ∈ t.openuv, uv < t.count

theorem Wf.new (nil : V) : (new nil).Wf := ⟨by simp [Thread.new], by simp [Thread.new], by simp [Thread.new]⟩

theorem Wf.frame (h : t.Wf) (hc : t'.cells = t.cells) (hn : t'.count = t.count) (ho : t'.openuv = t.openuv) :
    t'.Wf :=
  ⟨ho ▸ h.nodup, fun uv => by rw [ho, hc, h.mem], fun uv hu => by rw [hn]; exact h.lt uv (ho ▸ hu)⟩

theorem Wf.findUpval (h : t.Wf) (slot : ℕ) : (t.findUpval slot).1.Wf := by
  unfold Thread.findUpval
  cases hf : t.openuv.find? fun uv => (t.cells uv).isAt slot with
  | some uv => exact h
  | none =>
    have hnew : t.count ∉ t.openuv := fun hc => Nat.lt_irrefl _ (h.lt _ hc)
    refine ⟨?_, fun uv => ?_, fun uv hu => ?_⟩
    · refine List.nodup_append.mpr ⟨h.nodup, List.nodup_singleton _, ?_⟩
      intro a ha b hb hab
      exact hnew (List.mem_singleton.mp hb ▸ hab ▸ ha)
    · rw [List.mem_append, List.mem_singleton]
      by_cases hu : uv = t.count <;> simp [hu, h.mem]
    · rcases List.mem_append.mp hu with hu | hu
      · exact Nat.lt_succ_of_lt (h.lt uv hu)
      · exact List.mem_singleton.mp hu ▸ Nat.lt_succ_self _

theorem Wf.newClosure (h : t.Wf) (base : ℕ) (locals : List ℕ) : (t.newClosure base locals).Wf := by
  rw [Thread.newClosure]
  induction locals generalizing t with
  | nil => exact h
  | cons r locals ih => exact ih (h.findUpval (base + r))

/-! ### Closing -/

/-- The second thread is the first one after its upvalues at the slots with property `p` are closed. -/
structure Closes (t : Thread V) (p : ℕ → Prop) [DecidablePred p] (t' : Thread V) : Prop where
  wf : t'.Wf
  cells : ∀ uv, t'.cells uv = (t.cells uv).closeAt t.stack p
  stack : t'.stack = t.stack

theorem Closes.trans {t'' : Thread V} {p q : ℕ → Prop} [DecidablePred p] [DecidablePred q] (h : Closes t p t')
    (k : Closes t' q t'') : Closes t (fun slot => p slot ∨ q slot) t'' := by
  refine ⟨k.wf, fun uv => ?_, k.stack.trans h.stack⟩
  rw [k.cells, h.cells, h.stack]
  cases t.cells uv with
  | closed v => rfl
  | opened slot =>
    by_cases hp : p slot <;> by_cases hq : q slot <;> simp [Cell.closeAt, hp, hq]

/-- One round that closes an upvalue. -/
theorem Wf.close (h : t.Wf) (slot : ℕ) (ho : t.openuv = kept ++ uv :: rest) :
    ∃ rest', rest'.Perm rest ∧ (t.close kept.length uv slot).openuv = kept ++ rest' ∧
      (t.close kept.length uv slot).Wf := by
  obtain ⟨rest', hp, hswap⟩ := Pool.swapRemove_append kept uv rest
  have hopen : (t.close kept.length uv slot).openuv = kept ++ rest' := by
    rw [Thread.close, ho]
    exact hswap
  have hperm : (uv :: (kept ++ rest')).Perm t.openuv := by
    rw [ho]
    exact ((hp.append_left kept).cons uv).trans List.perm_middle.symm
  obtain ⟨hnot, hnd⟩ := List.nodup_cons.mp (hperm.nodup_iff.mpr h.nodup)
  refine ⟨rest', hp, hopen, ?_, fun x => ?_, fun x hx => ?_⟩
  · rw [hopen]
    exact hnd
  · rw [hopen]
    change x ∈ kept ++ rest' ↔ ∃ s, Function.update t.cells uv (.closed (t.stack slot)) x = .opened s
    by_cases hx : x = uv
    · rw [hx, Function.update_self]
      exact iff_of_false hnot (by simp)
    · rw [Function.update_of_ne hx, ← h.mem, ← hperm.mem_iff, List.mem_cons]
      exact (or_iff_right hx).symm
  · rw [hopen] at hx
    exact h.lt x (hperm.subset (List.mem_cons_of_mem uv hx))

theorem closeLoop_closes (h : t.Wf) (ho : t.openuv = kept ++ rest) (hk : rest.length = k)
    (hkept : ∀ uv ∈ kept, ∀ slot, t.cells uv = .opened slot → slot < level) :
    Closes t (level ≤ ·) (closeLoop level k kept.length t) := by
  induction k generalizing t kept rest with
  | zero =>
    obtain rfl := List.eq_nil_of_length_eq_zero hk
    refine ⟨h, fun uv => ?_, rfl⟩
    rw [closeLoop]
    cases hc : t.cells uv with
    | closed v => rfl
    | opened slot =>
      have hlt := hkept uv (by simpa [ho] using (h.mem uv).mpr ⟨slot, hc⟩) slot hc
      simp [Cell.closeAt, Nat.not_le.mpr hlt]
  | succ k ih =>
    cases rest with
    | nil => simp at hk
    | cons uv rest =>
      obtain ⟨slot, hslot⟩ := (h.mem uv).mp (by simp [ho])
      have hget : t.openuv[kept.length]? = some uv := by simp [ho]
      rw [closeLoop, hget]
      simp only [hslot]
      have hkeep (x) (hx : x ∈ kept) : x ≠ uv := by
        have hnd := h.nodup
        rw [ho, List.nodup_append] at hnd
        exact hnd.2.2 x hx uv List.mem_cons_self
      split
      · next hle =>
        obtain ⟨rest', hp, hopen, hwf⟩ := h.close slot ho
        have hrec := ih hwf hopen (by rw [hp.length_eq]; simpa using hk) fun x hx s hs => ?_
        · refine ⟨hrec.wf, fun x => ?_, hrec.stack⟩
          rw [hrec.cells]
          change (Function.update t.cells uv (.closed (t.stack slot)) x).closeAt t.stack _ = _
          by_cases hx : x = uv
          · rw [hx, Function.update_self, hslot]
            simp [Cell.closeAt, hle]
          · rw [Function.update_of_ne hx]
        · change Function.update t.cells uv (.closed (t.stack slot)) x = _ at hs
          rw [Function.update_of_ne (hkeep x hx)] at hs
          exact hkept x hx s hs
      · next hlt =>
        have hlen : kept.length + 1 = (kept ++ [uv]).length := by simp
        rw [hlen]
        refine ih h (show t.openuv = (kept ++ [uv]) ++ rest by simp [ho]) (by simpa using hk) fun x hx s hs => ?_
        rcases List.mem_append.mp hx with hx | hx
        · exact hkept x hx s hs
        · rw [List.mem_singleton.mp hx, hslot] at hs
          cases hs
          exact Nat.lt_of_not_le hlt

theorem Wf.closeUpvals (h : t.Wf) (level : ℕ) : Closes t (level ≤ ·) (t.closeUpvals level) :=
  closeLoop_closes h (show t.openuv = [] ++ t.openuv from rfl) rfl (by simp)

/-! ### Unwinding -/

/-- An error closes what lies at or above the running frame of some discarded activation, and nothing else. -/
theorem Wf.unwind (h : t.Wf) (host : List Host) :
    Closes t (fun slot => ∃ b ∈ discarded host, b ≤ slot) (unwind host t) := by
  induction host generalizing t with
  | nil =>
    refine ⟨h.frame rfl rfl rfl, fun uv => ?_, rfl⟩
    cases hc : t.cells uv <;> simp [Thread.unwind, discarded, Cell.closeAt, hc]
  | cons a rest ih =>
    cases a with
    | interp cur callers =>
      have hcur := h.closeUpvals cur
      have hall := hcur.trans (ih hcur.wf)
      refine ⟨hall.wf, fun uv => ?_, hall.stack⟩
      rw [Thread.unwind, hall.cells]
      cases t.cells uv <;> simp [Cell.closeAt, discarded]
    | cfun base callee =>
      cases callee with
      | none => exact ih h
      | some c =>
        refine ⟨h.frame rfl rfl rfl, fun uv => ?_, rfl⟩
        cases hc : t.cells uv <;> simp [Thread.unwind, discarded, Cell.closeAt, hc]

/-- After an error every upvalue that was open at or above `level` is closed and holds what its slot held, and
no upvalue is open there. -/
def Detached (t : Thread V) (level : ℕ) (t' : Thread V) : Prop :=
  (∀ uv slot, t.cells uv = .opened slot → level ≤ slot → t'.cells uv = .closed (t.stack slot)) ∧
  ∀ uv slot, t'.cells uv = .opened slot → slot < level

theorem Wf.detached_iff (h : t.Wf) (host : List Host) (level : ℕ) : Detached t level (Thread.unwind host t) ↔
    ∀ uv slot, t.cells uv = .opened slot → level ≤ slot → ∃ b ∈ discarded host, b ≤ slot := by
  have hc := (h.unwind host).cells
  constructor
  · intro hd uv slot hs hle
    by_contra hnone
    refine absurd (hd.2 uv slot ?_) (Nat.not_lt.mpr hle)
    rw [hc, hs, Cell.closeAt, if_neg hnone]
  · intro hall
    refine ⟨fun uv slot hs hle => ?_, fun uv slot hs => ?_⟩
    · rw [hc, hs, Cell.closeAt, if_pos (hall uv slot hs hle)]
    · rw [hc] at hs
      cases hcell : t.cells uv with
      | closed v =>
        rw [hcell] at hs
        cases hs
      | opened s =>
        rw [hcell, Cell.closeAt] at hs
        split at hs
        · cases hs
        · next hnone =>
          cases hs
          exact Nat.lt_of_not_le fun hle => hnone (hall uv slot hcell hle)

/-! ### Runs -/

theorem Wf.upvalSet (h : t.Wf) (uv : ℕ) (v : V) : (t.upvalSet uv v).Wf := by
  rw [Thread.upvalSet]
  cases hc : t.cells uv with
  | opened slot => exact h.frame rfl rfl rfl
  | closed w =>
    refine ⟨h.nodup, fun x => ?_, h.lt⟩
    rw [h.mem]
    change _ ↔ ∃ slot, Function.update t.cells uv (.closed v) x = .opened slot
    by_cases hx : x = uv
    · rw [hx, Function.update_self, hc]
      simp
    · rw [Function.update_of_ne hx]

theorem Wf.step (h : t.Wf) {a : Action V} (hs : t.step a = some t') : t'.Wf := by
  have hclose (level : ℕ) := (h.closeUpvals level).wf
  cases a with
  | upvalSet uv v => exact Option.some.inj hs ▸ h.upvalSet uv v
  | fnew locals =>
    simp only [Thread.step] at hs
    split at hs
    · exact Option.some.inj hs ▸ h.newClosure _ locals
    · cases hs
  | uclo r =>
    simp only [Thread.step] at hs
    split at hs
    · exact Option.some.inj hs ▸ hclose _
    · cases hs
  | ret =>
    simp only [Thread.step] at hs
    split at hs
    · exact Option.some.inj hs ▸ (hclose _).frame rfl rfl rfl
    · exact Option.some.inj hs ▸ (hclose _).frame rfl rfl rfl
    · cases hs
  | raise =>
    simp only [Thread.step] at hs
    split at hs
    · cases hs
    · exact Option.some.inj hs ▸ (h.unwind t.host).wf
  | _ =>
    simp only [Thread.step] at hs
    repeat' split at hs
    all_goals first
      | (obtain rfl := Option.some.inj hs; exact h.frame rfl rfl rfl)
      | cases hs

theorem Wf.run {nil : V} (hr : ReflTransGen Step (Thread.new nil) t) : t.Wf := by
  induction hr with
  | refl => exact .new nil
  | tail _ hst ih =>
    obtain ⟨a, ha⟩ := hst
    exact ih.step ha

/-- At every point of every run an error detaches the upvalues at or above the callee of the activation that
catches it if and only if each of them lies at or above the running frame of a discarded activation. -/
theorem raise_detached_iff {nil : V} (hr : ReflTransGen Step (Thread.new nil) t) :
    Detached t (calleeOf t.host) t.raise ↔ ∀ uv slot, t.cells uv = .opened slot → calleeOf t.host ≤ slot →
      ∃ b ∈ discarded t.host, b ≤ slot :=
  (Wf.run hr).detached_iff t.host _

/-- A run of given actions. -/
def replay (t : Thread V) : List (Action V) → Option (Thread V)
  | [] => some t
  | a :: as => (t.step a).bind (replay · as)

theorem replay_run {as : List (Action V)} (h : t.replay as = some t') : ReflTransGen Step t t' := by
  induction as generalizing t with
  | nil => exact Option.some.inj h ▸ .refl
  | cons a as ih =>
    obtain ⟨u, hu, hrest⟩ := Option.bind_eq_some_iff.mp h
    exact .head ⟨a, hu⟩ (ih hrest)

/-- `pcall(function() local x = 1; g = function() return x end; error() end)` -/
def failsInCaptured : List (Action ℕ) :=
  [.start (.lua 2), .callC 6, .protectedCall 6 (.lua 8), .set 0 1, .fnew [0], .callC 12]

/-- `pcall(function() local x = 1; g = function() return x end; (function() error() end)() end)` -/
def failsInCallee : List (Action ℕ) :=
  [.start (.lua 2), .callC 6, .protectedCall 6 (.lua 8), .set 0 1, .fnew [0], .call 12, .callC 16]

theorem raise_detached_captured : ∃ t, ReflTransGen Step (Thread.new 0) t ∧ t.cells 0 = .opened 8 ∧
    t.raise.cells 0 = .closed 1 ∧ Detached t (calleeOf t.host) t.raise := by
  have hrun : (Thread.new 0).replay failsInCaptured = some _ := rfl
  have hr := replay_run hrun
  refine ⟨_, hr, rfl, rfl, (raise_detached_iff hr).mpr fun uv slot hs _ => ⟨8, List.mem_singleton_self 8, ?_⟩⟩
  change Function.update (fun _ => Cell.closed 0) 0 (.opened 8) uv = .opened slot at hs
  cases uv with
  | zero => exact (Cell.opened.inj hs).le
  | succ n => cases hs

/-- The failing function is not the one whose variable is captured: the upvalue still refers to slot 8. -/
theorem caller_upvalue_stays_open : ∃ t, ReflTransGen Step (Thread.new 0) t ∧ calleeOf t.host = 6 ∧
    t.raise.cells 0 = .opened 8 ∧ ¬ Detached t (calleeOf t.host) t.raise := by
  have hrun : (Thread.new 0).replay failsInCallee = some _ := rfl
  refine ⟨_, replay_run hrun, rfl, rfl, fun hd => ?_⟩
  exact absurd (hd.2 0 8 rfl) (by decide)

end Thread
end LuajitRs.Vm.Upvals
