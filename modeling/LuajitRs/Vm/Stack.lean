import Mathlib.Algebra.Group.Nat.Defs
import Mathlib.Tactic.Common

/-! The extent of a thread's stack: how far it reaches, which frames lie on it and which slots the calls
write. The values in the slots play no part. -/
namespace LuajitRs.Vm

/-- A prototype. Its parameters are registers of its frame. -/
structure Proto where
  framesize : ℕ
  numparams : ℕ
  vararg : Bool
  numparams_le : numparams ≤ framesize

/-- A Lua frame. A frame with varargs below it has their extent in its link, which leads down to the frame of
the call. -/
structure Frame where
  base : ℕ
  pt : Proto
  delta : Option ℕ

/-- The base of the call that a frame belongs to. -/
def Frame.callbase (f : Frame) : ℕ := f.base - f.delta.getD 0

inductive Fault
  | outOfBounds
  | stackOverflow
deriving DecidableEq

def STACK_MAX : ℕ := 2 ^ 16
def CO_STACK_MAX : ℕ := 2 ^ 11

/-- Slots added to every request of `execute`. -/
def STACK_SAFETY : ℕ := 64

/-- A thread, its frames with the current one first. `filled` is the end of the results of the last call or
vararg instruction with an open number of them. `asked`, which the code has not, is the largest number that
`stack_ensure` was called with. -/
structure Thread where
  len : ℕ
  max : ℕ
  frames : List Frame
  filled : ℕ
  asked : ℕ

/-- What a request of `need` slots makes of the length. -/
def grow (len max need : ℕ) : ℕ := if len ≤ need then Min.min (Max.max (len * 2) (need + 16)) max else len

namespace Thread
variable (t : Thread)

/-- The length is capped, and the assertion behind it can no longer fail. -/
def stackEnsure (need : ℕ) : Thread :=
  { t with len := grow t.len t.max need, asked := Max.max t.asked need }

/-- A request that is only made when the slots do not reach so far yet. -/
def ensureIf (need : ℕ) : Thread := if t.len < need then t.stackEnsure need else t

/-- Writing the slots from `lo` up to `hi`. -/
def write (lo hi : ℕ) : Except Fault Unit :=
  if hi ≤ lo ∨ hi ≤ t.len then .ok () else .error .outOfBounds

def push (f : Frame) : Thread := { t with frames := f :: t.frames, filled := 0 }

/-! ### Lua functions -/

def enterLuaNeed (pt : Proto) (funcSlot nargs : ℕ) : ℕ :=
  if pt.vararg then funcSlot + 2 + nargs + 2 + pt.numparams + pt.framesize + 16
  else funcSlot + 2 + pt.framesize + 16

def enterLuaSansEnsure (pt : Proto) (funcSlot nargs : ℕ) : Except Fault Thread := do
  let callbase := funcSlot + 2
  t.write (callbase - 1) callbase
  if pt.vararg then
    let newbase := callbase + nargs + 2
    t.write (newbase - 2) (newbase - 1)
    t.write newbase (newbase + pt.numparams)
    t.write (newbase - 1) newbase
    t.write (newbase + pt.numparams) (newbase + pt.numparams + 1)
    return t.push ⟨newbase, pt, some (nargs + 2)⟩
  else
    t.write (callbase + nargs) (callbase + pt.numparams)
    return t.push ⟨callbase, pt, none⟩

def enterLua (pt : Proto) (funcSlot nargs : ℕ) : Except Fault Thread :=
  (t.stackEnsure (enterLuaNeed pt funcSlot nargs)).enterLuaSansEnsure pt funcSlot nargs

/-- What `call_lua_fast` needs. -/
def callNeed (pt : Proto) (funcSlot nargs : ℕ) : ℕ :=
  if pt.vararg then funcSlot + 2 + nargs + 2 + pt.numparams + pt.framesize + 16
  else funcSlot + 2 + pt.framesize + 8

/-- `call_lua_fast`, the only path that compares its need with the maximum. -/
def callLuaFast (pt : Proto) (funcSlot nargs : ℕ) : Except Fault Thread :=
  let need := callNeed pt funcSlot nargs
  if t.max < need then .error .stackOverflow
  else (t.ensureIf need).enterLuaSansEnsure pt funcSlot nargs

/-- `meta_call` moves the arguments up by one. -/
def metaCall (funcSlot nargs : ℕ) : Except Fault Unit := t.write (funcSlot + 2) (funcSlot + 3 + nargs)

/-- `execute` of a Lua function, whose arguments lie above it. -/
def execute (pt : Proto) (funcSlot nargs : ℕ) : Except Fault Thread :=
  (t.stackEnsure (funcSlot + nargs + STACK_SAFETY)).enterLua pt funcSlot nargs

/-- The same for a value with a `__call` handler. -/
def executeMeta (pt : Proto) (funcSlot nargs : ℕ) : Except Fault Thread := do
  let t := t.stackEnsure (funcSlot + nargs + STACK_SAFETY)
  t.metaCall funcSlot nargs
  t.enterLua pt funcSlot (nargs + 1)

/-- A metamethod of the frame `f`, above a continuation frame. -/
def mmcallCont (f : Frame) (pt : Proto) (nargs : ℕ) : Except Fault Thread := do
  let funcSlot := f.base + f.pt.framesize + 2
  let mmbase := funcSlot + 2
  let t := t.stackEnsure (Max.max (mmbase + nargs + 16) (enterLuaNeed pt funcSlot nargs))
  t.write (mmbase - 4) (mmbase - 1)
  t.write mmbase (mmbase + nargs)
  t.enterLuaSansEnsure pt funcSlot nargs

/-! ### C functions -/

/-- `call_c` and `call_c_inline`: the function asks for `own` slots itself and leaves `n` results. -/
def callC (funcSlot nargs own n : ℕ) : Except Fault Thread := do
  let argsBase := funcSlot + 2
  let t := t.stackEnsure (argsBase + nargs + 8)
  t.write (argsBase - 1) argsBase
  let t := t.stackEnsure own
  let t := t.stackEnsure (Max.max (funcSlot + n + 8) (argsBase + nargs + 8))
  t.write funcSlot (funcSlot + n)
  return { t with filled := funcSlot + n }

/-- `execute` of a C function. -/
def executeC (funcSlot nargs own n : ℕ) : Except Fault Thread :=
  (t.stackEnsure (funcSlot + nargs + STACK_SAFETY)).callC funcSlot nargs own n

def executeCMeta (funcSlot nargs own n : ℕ) : Except Fault Thread := do
  let t := t.stackEnsure (funcSlot + nargs + STACK_SAFETY)
  t.metaCall funcSlot nargs
  t.callC funcSlot (nargs + 1) own n

/-! ### Returns -/

/-- `do_return` from `f` with `n` results. -/
def doReturn (f : Frame) (rest : List Frame) (n : ℕ) : Except Fault Thread := do
  let dst := f.callbase - 2
  t.write dst (dst + n)
  return { t with frames := rest, filled := dst + n }

/-! ### Tail calls -/

/-- The hot route of CALLT, which stays in the frame `f`. -/
def tailFast (f : Frame) (rest : List Frame) (pt : Proto) (a nargs : ℕ) : Except Fault Thread := do
  let t := t.ensureIf (f.base + Max.max a nargs + pt.framesize + 8)
  t.write (f.base - 2) (f.base - 1)
  t.write f.base (f.base + nargs)
  t.write (f.base + nargs) (f.base + pt.numparams)
  return { t with frames := ⟨f.base, pt, none⟩ :: rest, filled := 0 }

/-- `do_tailcall` of a Lua function, which goes down to the call of `f` and asks for nothing. -/
def doTailcall (f : Frame) (rest : List Frame) (pt : Proto) (nargs : ℕ) : Except Fault Thread := do
  let base := f.callbase
  t.write base (base + nargs)
  t.write (base - 2) (base - 1)
  if pt.vararg then ({ t with frames := rest } : Thread).enterLua pt (base - 2) nargs
  else
    t.write (base + nargs) (base + pt.numparams)
    return { t with frames := ⟨base, pt, none⟩ :: rest, filled := 0 }

/-! ### Varargs -/

/-- `op_varg`: the slots it needs, with the number of varargs. -/
def vargNeed (f : Frame) (delta a : ℕ) : ℕ × ℕ :=
  let nvarg := delta - 2 - f.pt.numparams
  (f.base + a + nvarg + 8, nvarg)

def opVarg (f : Frame) (a b : ℕ) : Except Fault Thread :=
  match f.delta with
  | none => .ok t
  | some delta =>
    if delta < 2 then .ok { t with filled := 0 } else do
    let (need, nvarg) := vargNeed f delta a
    let t := t.ensureIf need
    if b = 0 then
      t.write (f.base + a) (f.base + a + nvarg)
      return { t with filled := f.base + a + nvarg }
    else
      t.write (f.base + a) (f.base + a + (b - 1))
      return t

/-! ### Resumes -/

/-- The first resume of a thread, up to the call of its entry function. -/
def resumeStart (entry : Thread → Except Fault Thread) (nargs : ℕ) : Except Fault Thread := do
  let t := t.stackEnsure (nargs + 16)
  t.write 1 2
  t.write 2 (2 + nargs)
  entry t

/-- A resume behind a call: the arguments become its results. -/
def resumeCall (slot : ℕ) (want : Option ℕ) (isProtected : Bool) (nargs : ℕ) : Except Fault Thread := do
  let t := t.stackEnsure (slot + 2 + nargs)
  t.write (slot + 2) (slot + 2 + nargs)
  if isProtected then
    t.write slot (slot + 1 + nargs)
    return { t with filled := slot + 1 + nargs }
  else match want with
    | some want =>
      t.write slot (slot + want)
      return t
    | none =>
      t.write slot (slot + nargs)
      return { t with filled := slot + nargs }

/-- A resume behind a tail call: the arguments are returned from the frame `f`. -/
def resumeReturn (f : Frame) (rest : List Frame) (slot nargs : ℕ) : Except Fault Thread := do
  let t := t.stackEnsure (slot + 2 + nargs)
  t.write (slot + 1) (slot + 2 + nargs)
  t.write slot (slot + nargs)
  t.doReturn f rest nargs

end Thread

/-! ### Runs -/

/-- What happens to a thread. A call instruction has its function in register `a`. -/
inductive Action
  | call (pt : Proto) (a nargs : ℕ)
  | callMeta (pt : Proto) (a nargs : ℕ)
  | callC (a nargs own n : ℕ)
  | callCMeta (a nargs own n : ℕ)
  | tailFast (pt : Proto) (a nargs : ℕ)
  | tail (pt : Proto) (a nargs : ℕ)
  | tailMeta (pt : Proto) (a nargs : ℕ)
  | tailC (a nargs own n : ℕ)
  | tailCMeta (a nargs own n : ℕ)
  | varg (a b : ℕ)
  | mmcall (pt : Proto) (nargs : ℕ)
  | execute (pt : Proto) (funcSlot nargs : ℕ)
  | executeMeta (pt : Proto) (funcSlot nargs : ℕ)
  | executeC (funcSlot nargs own n : ℕ)
  | executeCMeta (funcSlot nargs own n : ℕ)
  | start (pt : Proto) (nargs : ℕ)
  | startC (nargs own n : ℕ)
  | resumeCall (slot : ℕ) (want : Option ℕ) (isProtected : Bool) (nargs : ℕ)
  | resumeReturn (slot nargs : ℕ)
  | ret (src n : ℕ)
  | unwind (k : ℕ)

namespace Thread
variable (t : Thread)

/-- The steps that begin outside of Lua code. -/
def stepHost : Action → Except Fault Thread
  | .execute pt funcSlot nargs => t.execute pt funcSlot nargs
  | .executeMeta pt funcSlot nargs => t.executeMeta pt funcSlot nargs
  | .executeC funcSlot nargs own n => t.executeC funcSlot nargs own n
  | .executeCMeta funcSlot nargs own n => t.executeCMeta funcSlot nargs own n
  | .start pt nargs => t.resumeStart (·.execute pt 0 nargs) nargs
  | .startC nargs own n => t.resumeStart (·.executeC 0 nargs own n) nargs
  | _ => .ok t

/-- The step of the current frame `f`. -/
def stepIn (f : Frame) (rest : List Frame) : Action → Except Fault Thread
  | .call pt a nargs => t.callLuaFast pt (f.base + a) nargs
  | .callMeta pt a nargs => do
    t.metaCall (f.base + a) nargs
    t.enterLua pt (f.base + a) (nargs + 1)
  | .callC a nargs own n => t.callC (f.base + a) nargs own n
  | .callCMeta a nargs own n => do
    t.metaCall (f.base + a) nargs
    t.callC (f.base + a) (nargs + 1) own n
  | .tailFast pt a nargs => t.tailFast f rest pt a nargs
  | .tail pt _ nargs => t.doTailcall f rest pt nargs
  | .tailMeta pt a nargs => do
    t.metaCall (f.base + a) nargs
    t.doTailcall f rest pt (nargs + 1)
  | .tailC a nargs own n => do
    let t ← t.callC (f.base + a) nargs own n
    t.doReturn f rest n
  | .tailCMeta a nargs own n => do
    t.metaCall (f.base + a) nargs
    let t ← t.callC (f.base + a) (nargs + 1) own n
    t.doReturn f rest n
  | .varg a b => t.opVarg f a b
  | .mmcall pt nargs => t.mmcallCont f pt nargs
  | .resumeCall slot want isProtected nargs => t.resumeCall slot want isProtected nargs
  | .resumeReturn slot nargs => t.resumeReturn f rest slot nargs
  | .ret _ n => t.doReturn f rest n
  | .unwind k => .ok { t with frames := t.frames.drop k, filled := 0 }
  | a => t.stepHost a

/-- The current frame, or an empty one at the bottom. -/
def cur : Frame := t.frames.headD ⟨0, ⟨0, 0, false, Nat.le_refl _⟩, none⟩

/-- A thread without a Lua frame can only be entered from the host. -/
def step (a : Action) : Except Fault Thread :=
  match t.frames with
  | f :: rest => t.stepIn f rest a
  | [] => t.stepHost a

/-- A new thread. -/
def new (isMain : Bool) : Thread :=
  if isMain then ⟨256, STACK_MAX, [], 0, 0⟩ else ⟨8, CO_STACK_MAX, [], 0, 0⟩

end Thread
end LuajitRs.Vm
