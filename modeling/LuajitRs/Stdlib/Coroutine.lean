import Mathlib.Data.Nat.Notation
import Mathlib.Data.Int.Notation
import Mathlib.Logic.Function.Basic
import Mathlib.Tactic.Common

/-! Coroutines on the host stack. A resume runs the thread by a nested call of the interpreter, and a yield
unwinds the host stack back to that call while every layer it passes records where to go on. Of the values
in a thread's slots only the functions are kept. -/
namespace LuajitRs.Coroutine

abbrev Tid := ℕ

inductive CoStatus
  | suspended | running | normal | dead
deriving DecidableEq

/-- A prototype. Its code begins with the header of the function. -/
structure Proto where
  bc : List UInt32
  header : 0 < bc.length
  vararg : Bool
  numparams : ℕ
  framesize : ℕ
deriving DecidableEq

/-- The operand A of an instruction. -/
def bcA (ins : UInt32) : ℕ := ((ins >>> 8) &&& 0xff).toNat

inductive CFunction
  | yield | pcall | xpcall | resume | create | wrap
  | wrapCall (co : Tid)
  | other
deriving DecidableEq

inductive GcFunc
  | lua (pt : Proto)
  | c (f : CFunction)
deriving DecidableEq

/-- The function in each slot, if it holds one. -/
abbrev Stack := ℕ → Option GcFunc

/-- Where a yield in a Lua frame goes on. -/
structure CallPoint where
  pc : ℕ
  cl : GcFunc
  base : ℕ
  slot : ℕ
  want : ℤ
  isProtected : Bool
  valueSlot : ℕ
deriving DecidableEq

inductive Suspend
  | start
  | call (p : CallPoint)
  | ret (base slot : ℕ)
deriving DecidableEq

/-- A thread. The code has no field `started`: it tells whether the thread was ever run. -/
structure LuaState where
  status : CoStatus
  suspend : Suspend
  cDepth : ℕ
  cBase : ℕ
  nyield : ℕ
  debugPc : ℕ
  stack : Stack
  started : Bool

/-- How a C function was called: by the call instruction of a Lua frame, by its tail call, as a metamethod,
or by `execute`. -/
inductive Via
  | call (want : ℤ)
  | tail
  | metamethod
  | host
deriving DecidableEq

/-- The layers of the host stack above a resume. An interpreter was entered at slot `entry`. -/
inductive Frame
  | execute (counted : Bool)
  | interp (entry : ℕ) (pt : Proto) (base pc : ℕ)
  | cfun (f : CFunction) (funcSlot : ℕ) (via : Via)
deriving DecidableEq

/-- The part of the host stack that runs one thread, top first, with what `do_resume` saved below it. -/
structure Segment where
  l : Tid
  frames : List Frame
  resumer : Tid
  savedCur : Option Tid
deriving DecidableEq

structure State where
  threads : Tid → LuaState
  n : ℕ
  curL : Option Tid
  segs : List Segment

/-! ### Slots -/

def MAX_RESUME_DEPTH : ℕ := 200

/-- Copying `n` slots of `from_` one after the other. -/
def copySlots (s : Stack) (dst : ℕ) (from_ : Stack) (src : ℕ) : ℕ → Stack
  | 0 => s
  | n + 1 => Function.update (copySlots s dst from_ src n) (dst + n) (from_ (src + n))

/-- The same within one stack, where a slot written before is read as written. -/
def moveSlots (s : Stack) (dst src : ℕ) : ℕ → Stack
  | 0 => s
  | n + 1 => Function.update (moveSlots s dst src n) (dst + n) (moveSlots s dst src n (src + n))

def clearSlots (s : Stack) (lo hi : ℕ) : Stack := fun i => if lo ≤ i ∧ i < hi then none else s i

/-! ### Entering a function -/

/-- The frame that `enter_lua` builds, with its base. A frame link is no function. -/
def enterLua (s : Stack) (pt : Proto) (funcSlot nargs : ℕ) : Stack × ℕ :=
  let callbase := funcSlot + 2
  let s := Function.update s (callbase - 1) none
  if pt.vararg then
    let newbase := callbase + nargs + 2
    let s := Function.update s (newbase - 2) (some (.lua pt))
    let s := copySlots s newbase s callbase (min nargs pt.numparams)
    let s := clearSlots s (newbase + nargs) (newbase + pt.numparams)
    let s := Function.update s (newbase - 1) none
    (Function.update s (newbase + pt.numparams) none, newbase)
  else
    (clearSlots s (callbase + nargs) (callbase + pt.numparams), callbase)

/-- `execute_inner`: the layer that runs the function at `funcSlot`. A value that is no function has been
replaced by its `__call` handler, or the call fails before any layer begins. -/
def executeInner (s : Stack) (funcSlot nargs : ℕ) : Stack × List Frame :=
  match s funcSlot with
  | none => (s, [])
  | some (.c f) => (s, [.cfun f funcSlot .host])
  | some (.lua pt) => ((enterLua s pt funcSlot nargs).1, [.interp funcSlot pt (enterLua s pt funcSlot nargs).2 1])

/-! ### What a yield records on its way -/

namespace LuaState

def isProtected (l : LuaState) : Bool :=
  match l.suspend with
  | .call p => p.isProtected
  | _ => false

/-- `suspend_call`, in the Lua frame that called the C function. -/
def suspendCall (l : LuaState) (pt : Proto) (base pc funcSlot : ℕ) (want : ℤ) : LuaState :=
  let src := match l.suspend with
    | .call p => if p.isProtected then p.valueSlot else funcSlot + 2
    | _ => funcSlot + 2
  { l with
    stack := moveSlots l.stack funcSlot src l.nyield
    suspend := .call ⟨pc, .lua pt, base, funcSlot, want, l.isProtected, funcSlot⟩ }

/-- `suspend_return`, in the Lua frame that made the tail call. -/
def suspendReturn (l : LuaState) (base funcSlot : ℕ) : LuaState :=
  { l with
    stack := moveSlots l.stack funcSlot (funcSlot + 2) l.nyield
    suspend := .ret base funcSlot }

/-- The yield arm of `call_c`: the resume point is the function below the C function, or else the thread's
first one. The latter is read in either case, so there has to be one. -/
def callCYield (l : LuaState) (funcSlot : ℕ) (want : ℤ) : Option LuaState :=
  let stack := moveSlots l.stack funcSlot (funcSlot + 2) l.nyield
  match stack 0 with
  | none => none
  | some first =>
    let cl := (stack (funcSlot - 2)).getD first
    let a := match cl with
      | .lua pt => if 1 ≤ l.debugPc then ((pt.bc[l.debugPc - 1]?).map bcA).getD 0 else 0
      | .c _ => 0
    some { l with
      stack
      suspend := .call ⟨l.debugPc, cl, funcSlot - a, funcSlot, want, l.isProtected, funcSlot⟩ }

/-- The yield arm of `lib_pcall`. -/
def pcallYield (l : LuaState) (savedBase : ℕ) : Option LuaState :=
  match l.stack 0 with
  | none => none
  | some first =>
    let valueSlot := match l.suspend with
      | .call p => p.valueSlot
      | _ => savedBase
    some { l with
      suspend := .call ⟨l.debugPc, (l.stack (savedBase - 2)).getD first, savedBase, savedBase - 2, -1, true,
        valueSlot⟩ }

/-- What the C function itself does with a yield that reaches it. -/
def cfunYield (l : LuaState) (f : CFunction) (funcSlot : ℕ) : Option LuaState :=
  match f with
  | .pcall => l.pcallYield (funcSlot + 2)
  | _ => some l

/-- What its caller does with it. -/
def viaYield (l : LuaState) (funcSlot : ℕ) (via : Via) (below : List Frame) : Option LuaState :=
  match via, below with
  | .host, _ => l.callCYield funcSlot (-1)
  | .call want, .interp _ pt base pc :: _ => some (l.suspendCall pt base pc funcSlot want)
  | .tail, .interp _ _ base _ :: _ => (l.callCYield funcSlot (-1)).map (·.suspendReturn base funcSlot)
  | .metamethod, _ => some l
  | _, _ => none

/-- A yield passes the layers from the top one down. -/
def unwindYield : List Frame → LuaState → Option LuaState
  | [], l => some l
  | .execute counted :: fs, l => unwindYield fs { l with cDepth := l.cDepth - counted.toNat }
  | .interp .. :: fs, l => unwindYield fs l
  | .cfun f funcSlot via :: fs, l =>
    ((l.cfunYield f funcSlot).bind fun l => l.viaYield funcSlot via fs).bind (unwindYield fs)

end LuaState

/-! ### The scheduler -/

namespace State
variable (s : State)

def set (t : Tid) (l : LuaState) : State := { s with threads := Function.update s.threads t l }

/-- The frames of the running thread change. -/
def setFrames (frames : List Frame) : State :=
  match s.segs with
  | [] => s
  | seg :: rest => { s with segs := { seg with frames } :: rest }

def isYieldable (t : Tid) : Bool := t ≠ 0 && (s.threads t).cDepth = (s.threads t).cBase

/-- `new_thread` with its entry function in the first slot. -/
def newThread (f : GcFunc) : State :=
  { s with
    threads := Function.update s.threads s.n
      ⟨.suspended, .start, 0, 0, 0, 0, Function.update (fun _ => none) 0 (some f), false⟩
    n := s.n + 1 }

/-- Whether `do_resume` gets past its checks. -/
def accepts (l co : Tid) : Bool :=
  (s.threads co).status = .suspended && (s.threads l).cDepth < MAX_RESUME_DEPTH

/-- Delivering the arguments and starting to run the thread, which becomes its first layer. A resume point in
a C function cannot be reloaded. -/
def continuation (co : LuaState) (from_ : Stack) (argsAt nargs : ℕ) : Option (LuaState × List Frame) :=
  match co.suspend with
  | .start =>
    let stack := copySlots (Function.update co.stack 1 none) 2 from_ argsAt nargs
    some ({ co with stack := (executeInner stack 0 nargs).1, started := true }, (executeInner stack 0 nargs).2)
  | .call p =>
    let stack := copySlots co.stack (p.slot + 2) from_ argsAt nargs
    let stack :=
      if p.isProtected then moveSlots (Function.update stack p.slot none) (p.slot + 1) (p.slot + 2) nargs
      else if 0 ≤ p.want then
        clearSlots (moveSlots stack p.slot (p.slot + 2) (min nargs p.want.toNat))
          (p.slot + min nargs p.want.toNat) (p.slot + p.want.toNat)
      else moveSlots stack p.slot (p.slot + 2) nargs
    match p.cl with
    | .lua pt => some ({ co with suspend := .start, stack }, [.interp 0 pt p.base p.pc])
    | .c _ => none
  | .ret base slot =>
    let stack := copySlots co.stack (slot + 2) from_ argsAt nargs
    let stack := moveSlots stack slot (slot + 2) nargs
    match stack (base - 2) with
    | some (.lua pt) => some ({ co with suspend := .start, stack }, [.interp 0 pt base 0])
    | _ => none

/-- `do_resume` up to the run; a refused resume leaves everything as it was. -/
def doResume (co : Tid) (argsAt nargs : ℕ) : Option State :=
  match s.segs with
  | [] => none
  | seg :: _ =>
    if s.accepts seg.l co then
      (continuation (s.threads co) (s.threads seg.l).stack argsAt nargs).map fun (th, frames) =>
        let s' := s.set seg.l { s.threads seg.l with status := .normal }
        let s' := s'.set co
          { th with status := .running, cBase := th.cDepth + 1, cDepth := th.cDepth + 1 }
        { s' with
          curL := some co
          segs := ⟨co, frames ++ [.execute true], seg.l, s.curL⟩ :: s.segs }
    else some s

/-- `do_resume` after the run. -/
def finish (co : LuaState) (status : CoStatus) : Option State :=
  match s.segs with
  | seg :: rest@(_ :: _) =>
    let s' := s.set seg.l { co with status }
    let s' := s'.set seg.resumer { s'.threads seg.resumer with status := .running }
    some { s' with curL := seg.savedCur, segs := rest }
  | _ => none

/-- The layers left when the topmost `execute` returns, and by how much it lowers the depth. -/
def popExecute : List Frame → Option (Bool × List Frame)
  | [] => none
  | .execute counted :: fs => some (counted, fs)
  | _ :: fs => popExecute fs

/-- The topmost `execute` returns, by a result or by an error. -/
def leaveExecute (seg : Segment) : Option State :=
  (popExecute seg.frames).bind fun (counted, fs) =>
    let l := s.threads seg.l
    let l := { l with cDepth := l.cDepth - counted.toNat }
    match fs with
    | [] => s.finish l .dead
    | _ => some ((s.set seg.l l).setFrames fs)

/-- What the code at the top of the host stack does next. -/
inductive Action
  | lua (pt : Proto) (base pc : ℕ)
  | tailcall (pt : Proto) (base : ℕ) (nargs : ℕ)
  | write (slot : ℕ) (v : Option GcFunc)
  | callC (f : CFunction) (funcSlot pc : ℕ) (via : Via)
  | execute (counted : Bool) (funcSlot nargs : ℕ)
  | ret
  | raise
  | create (f : GcFunc)
  | resume (co : Tid) (argsAt nargs : ℕ)
  | yield (ny : ℕ)

/-- The slots that belong to the frames below. -/
def floor : List Frame → ℕ
  | [] => 0
  | .execute _ :: fs => floor fs
  | .interp _ _ base _ :: _ => base
  | .cfun _ funcSlot _ :: _ => funcSlot

/-- Whether the running function is one that may call through `execute_yieldable`. -/
def protects : List Frame → Bool
  | .cfun f _ _ :: _ => f = .pcall || f = .xpcall
  | _ => false

/-- One step of the thread `seg` that is running. -/
def stepTop (seg : Segment) : Action → Option State
  | .lua pt base pc =>
    match seg.frames with
    | .interp entry _ _ _ :: fs =>
      if entry + 2 ≤ base ∧ (s.threads seg.l).stack (base - 2) = some (.lua pt) ∧ pc ≤ pt.bc.length then
        some (s.setFrames (.interp entry pt base pc :: fs))
      else none
    | _ => none
  | .tailcall pt base nargs =>
    match seg.frames with
    | .interp entry _ old _ :: fs =>
      if entry + 2 ≤ base ∧ base ≤ old then
        let l := s.threads seg.l
        let stack := Function.update l.stack (base - 2) (some (.lua pt))
        let (stack, base) := if pt.vararg then enterLua stack pt (base - 2) nargs else (stack, base)
        some ((s.set seg.l { l with stack }).setFrames (.interp entry pt base 1 :: fs))
      else none
    | _ => none
  | .write slot v =>
    if floor seg.frames ≤ slot then
      let l := s.threads seg.l
      some (s.set seg.l { l with stack := Function.update l.stack slot v })
    else none
  | .callC f funcSlot pc via =>
    match seg.frames with
    | .interp entry pt base _ :: fs =>
      if base ≤ funcSlot ∧ 1 ≤ pc ∧ pc ≤ pt.bc.length ∧ (s.threads seg.l).stack funcSlot = some (.c f) ∧
          via ≠ .host then
        let l := s.threads seg.l
        some ((s.set seg.l { l with debugPc := pc }).setFrames
          (.cfun f funcSlot via :: .interp entry pt base pc :: fs))
      else none
    | _ => none
  | .execute counted funcSlot nargs =>
    if counted || protects seg.frames then
      let l := s.threads seg.l
      let (stack, frames) := executeInner l.stack funcSlot nargs
      some ((s.set seg.l { l with stack, cDepth := l.cDepth + counted.toNat }).setFrames
        (frames ++ .execute counted :: seg.frames))
    else none
  | .ret =>
    match seg.frames with
    | .cfun _ _ .host :: _ => s.leaveExecute seg
    | .cfun _ _ _ :: fs => some (s.setFrames fs)
    | _ => s.leaveExecute seg
  | .raise => s.leaveExecute seg
  | .create f =>
    match seg.frames with
    | .cfun .create _ _ :: _ | .cfun .wrap _ _ :: _ => some (s.newThread f)
    | _ => none
  | .resume co argsAt nargs =>
    match seg.frames with
    | .cfun .resume _ _ :: _ => if co < s.n then s.doResume co argsAt nargs else none
    | .cfun (.wrapCall c) _ _ :: _ => if co = c ∧ co < s.n then s.doResume co argsAt nargs else none
    | _ => none
  | .yield ny =>
    match seg.frames with
    | .cfun .yield _ _ :: _ =>
      if s.isYieldable seg.l then
        (LuaState.unwindYield seg.frames { s.threads seg.l with nyield := ny }).bind fun l =>
          s.finish l .suspended
      else some s
    | _ => none

def step (a : Action) : Option State :=
  match s.segs with
  | [] => none
  | seg :: _ => s.stepTop seg a

/-- The host's own code on the main thread. -/
def init : State where
  threads _ := ⟨.running, .start, 0, 0, 0, 0, fun _ => none, false⟩
  n := 1
  curL := some 0
  segs := [⟨0, [.cfun .other 0 .host], 0, none⟩]

end State
end LuajitRs.Coroutine
