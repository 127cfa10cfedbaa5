import LuajitRs.Runtime.Value
import LuajitRs.Stdlib.Coroutine

/-! The values of a coroutine's body: nested Lua calls, tail calls, protected calls and yields, with the registers
they move results between. What the program computes is left open: it writes registers, and it calls and
returns as it likes. The links between frames are kept in the frames, not in slots, and metamethods and other
calls from the host, from which a coroutine cannot yield, are left out. -/
namespace LuajitRs.Coroutine.Body

abbrev Slots := ℕ → LuaValue

/-! ### Copying values -/

/-- A loop that copies `n` slots down, the lowest first. -/
def moveDown (s : Slots) (dst src : ℕ) : ℕ → Slots
  | 0 => s
  | n + 1 => Function.update (moveDown s dst src n) (dst + n) (moveDown s dst src n (src + n))

/-- A loop that copies `n` slots up by one, the highest first. -/
def moveUp (s : Slots) (src : ℕ) : ℕ → Slots
  | 0 => s
  | n + 1 => moveUp (Function.update s (src + n + 1) (s (src + n))) src n

def fillNil (s : Slots) (lo hi : ℕ) : Slots := fun i => if lo ≤ i ∧ i < hi then .nil else s i

/-- Values copied from another stack. -/
def putAll (s : Slots) (dst : ℕ) (vs : List LuaValue) : Slots :=
  fun i => if dst ≤ i then (vs[i - dst]?).getD (s i) else s i

def readAll (s : Slots) (src n : ℕ) : List LuaValue := (List.range n).map fun i => s (src + i)

/-! ### Frames and layers -/

/-- A Lua frame: its base, where its code goes on, and the slot and the number of the results that its call wants. -/
structure CallFrame where
  base : ℕ
  pc : ℕ
  slot : ℕ
  want : ℤ
  room : slot + 2 ≤ base

/-- The layers of the host stack: an interpreter with its chain of frames, the running one first, and a C
function, with the number of results that its protected call has left at its base. -/
inductive Layer
  | interp (frames : List CallFrame)
  | cfun (f : CFunction) (funcSlot nargs : ℕ) (via : Via) (returned : Option ℕ)

structure Thread where
  stack : Slots
  multres : ℕ
  host : List Layer

/-- What a step of the body leads to. -/
inductive Outcome
  | running (t : Thread)
  | finished (vs : List LuaValue)
  | failed (v : LuaValue)

/-! ### Returns -/

/-- `do_return` from the frame `fr`, with `n` results from `src` on. Dead slots up to `hi` are cleared. -/
def doReturn (s : Slots) (mr : ℕ) (fr : CallFrame) (callers : List CallFrame) (rest : List Layer)
    (src n hi : ℕ) : Option Outcome :=
  let dst := fr.slot
  let s := moveDown s dst src n
  let s := if 0 ≤ fr.want then fillNil s (dst + n) (dst + fr.want.toNat) else s
  let got := if 0 ≤ fr.want then fr.want.toNat else n
  let s := fillNil s (max (dst + 2) (dst + got)) hi
  match callers, rest with
  | g :: gs, _ => some (.running ⟨s, n, .interp (g :: gs) :: rest⟩)
  | [], [] => some (.finished (readAll s dst got))
  | [], .cfun f ps pn via _ :: below => some (.running ⟨s, mr, .cfun f ps pn via (some got) :: below⟩)
  | [], .interp _ :: _ => none

/-- A C function returns `n` results that lie at its base: `call_c`, and then its caller. -/
def leaveC (s : Slots) (mr funcSlot n hi : ℕ) (via : Via) (rest : List Layer) : Option Outcome :=
  let s := moveDown s funcSlot (funcSlot + 2) n
  match via, rest with
  | .call want, _ =>
    if 0 ≤ want then some (.running ⟨fillNil s (funcSlot + n) (funcSlot + want.toNat), mr, rest⟩)
    else some (.running ⟨s, n, rest⟩)
  | .tail, .interp (fr :: callers) :: below => doReturn s mr fr callers below funcSlot n hi
  | .host, .cfun f ps pn via _ :: below => some (.running ⟨s, mr, .cfun f ps pn via (some n) :: below⟩)
  | _, _ => none

def isProtecting (f : CFunction) : Bool := f = .pcall || f = .xpcall

/-- The good end of `lib_pcall` and `lib_xpcall`: `true` goes before the results. -/
def protectedOk (s : Slots) (funcSlot n : ℕ) : Slots :=
  Function.update (moveUp s (funcSlot + 2) n) (funcSlot + 2) (.bool true)

/-- The layers from the innermost protected call on. -/
def catching : List Layer → List Layer
  | [] => []
  | .interp _ :: rest => catching rest
  | .cfun f fs n via r :: rest => if isProtecting f then .cfun f fs n via r :: rest else catching rest

/-! ### The program -/

inductive Instr
  /-- An instruction that writes a register. -/
  | set (pc r : ℕ) (v : LuaValue)
  | call (pc r : ℕ) (base : ℕ) (want : ℤ)
  | tailcall (base : ℕ)
  | ret (r n hi : ℕ)
  | callC (f : CFunction) (pc r nargs : ℕ) (want : ℤ)
  | tailcallC (f : CFunction) (r nargs : ℕ)
  /-- `pcall` or `xpcall` calls a Lua function, or a C function. -/
  | protectLua (base : ℕ)
  | protectC (f : CFunction) (nargs : ℕ)
  /-- A C function writes one of its slots. -/
  | setC (i : ℕ) (v : LuaValue)
  | retC (n hi : ℕ)
  /-- The protected call returned. -/
  | protectedRet (hi : ℕ)
  /-- An error with the value that `pcall` returns, for `xpcall` that of the message handler. -/
  | raise (v : LuaValue) (hi : ℕ)

def Thread.goesOn (t : Thread) (host : List Layer) : Option Outcome := some (.running { t with host })

def Thread.exec (t : Thread) : Instr → Option Outcome
  | .set pc r v => match t.host with
    | .interp (fr :: callers) :: rest =>
      { t with stack := Function.update t.stack (fr.base + r) v }.goesOn
        (.interp ({ fr with pc := pc } :: callers) :: rest)
    | _ => none
  | .call pc r base want => match t.host with
    | .interp (fr :: callers) :: rest =>
      if room : fr.base + r + 2 ≤ base then
        t.goesOn (.interp (⟨base, 1, fr.base + r, want, room⟩ :: { fr with pc := pc } :: callers) :: rest)
      else none
    | _ => none
  | .tailcall base => match t.host with
    | .interp (fr :: callers) :: rest =>
      if room : fr.slot + 2 ≤ base then
        t.goesOn (.interp (⟨base, 1, fr.slot, fr.want, room⟩ :: callers) :: rest)
      else none
    | _ => none
  | .ret r n hi => match t.host with
    | .interp (fr :: callers) :: rest => doReturn t.stack t.multres fr callers rest (fr.base + r) n hi
    | _ => none
  | .callC f pc r nargs want => match t.host with
    | .interp (fr :: callers) :: rest =>
      t.goesOn (.cfun f (fr.base + r) nargs (.call want) none ::
        .interp ({ fr with pc := pc } :: callers) :: rest)
    | _ => none
  | .tailcallC f r nargs => match t.host with
    | .interp (fr :: callers) :: rest =>
      t.goesOn (.cfun f (fr.base + r) nargs .tail none :: .interp (fr :: callers) :: rest)
    | _ => none
  | .protectLua base => match t.host with
    | .cfun f fs n via r :: rest =>
      if room : fs + 2 + 2 ≤ base then
        if isProtecting f then
          t.goesOn (.interp [⟨base, 1, fs + 2, -1, room⟩] :: .cfun f fs n via r :: rest)
        else none
      else none
    | _ => none
  | .protectC g nargs => match t.host with
    | .cfun f fs n via r :: rest =>
      if isProtecting f then
        t.goesOn (.cfun g (fs + 2) nargs .host none :: .cfun f fs n via r :: rest)
      else none
    | _ => none
  | .setC i v => match t.host with
    | .cfun _ fs _ _ _ :: _ => some (.running { t with stack := Function.update t.stack (fs + 2 + i) v })
    | _ => none
  | .retC n hi => match t.host with
    | .cfun _ fs _ via none :: rest => leaveC t.stack t.multres fs n hi via rest
    | _ => none
  | .protectedRet hi => match t.host with
    | .cfun f fs _ via (some n) :: rest =>
      if isProtecting f then leaveC (protectedOk t.stack fs n) t.multres fs (n + 1) hi via rest else none
    | _ => none
  | .raise v hi => match t.host with
    | [] => none
    | _ :: below => match catching below with
      | .cfun _ fs _ via _ :: rest =>
        leaveC (Function.update (Function.update t.stack (fs + 2) (.bool false)) (fs + 3) v) t.multres fs 2 hi
          via rest
      | _ => some (.failed v)

/-! ### Suspension -/

/-- Where a yield goes on in a Lua frame. -/
structure Point where
  slot : ℕ
  want : ℤ
  isProtected : Bool
  valueSlot : ℕ

inductive Suspend
  | start
  | call (p : Point)
  | ret (slot : ℕ)

/-- What a yield carries down the host stack. -/
structure Unwinding where
  stack : Slots
  suspend : Suspend

namespace Unwinding

def isProtected (u : Unwinding) : Bool :=
  match u.suspend with
  | .call p => p.isProtected
  | _ => false

/-- `suspend_call`, in the Lua frame that called the C function. -/
def suspendCall (ny : ℕ) (u : Unwinding) (funcSlot : ℕ) (want : ℤ) : Unwinding :=
  let src := match u.suspend with
    | .call p => if p.isProtected then p.valueSlot else funcSlot + 2
    | _ => funcSlot + 2
  ⟨moveDown u.stack funcSlot src ny, .call ⟨funcSlot, want, u.isProtected, funcSlot⟩⟩

/-- `suspend_return`, in the Lua frame that made the tail call. -/
def suspendReturn (ny : ℕ) (u : Unwinding) (funcSlot : ℕ) : Unwinding :=
  ⟨moveDown u.stack funcSlot (funcSlot + 2) ny, .ret funcSlot⟩

/-- The yield arm of `call_c`. -/
def callCYield (ny : ℕ) (u : Unwinding) (funcSlot : ℕ) (want : ℤ) : Unwinding :=
  ⟨moveDown u.stack funcSlot (funcSlot + 2) ny, .call ⟨funcSlot, want, u.isProtected, funcSlot⟩⟩

/-- The yield arm of `lib_pcall`; `lib_xpcall` has none. -/
def pcallYield (u : Unwinding) (funcSlot : ℕ) : Unwinding :=
  let valueSlot := match u.suspend with
    | .call p => p.valueSlot
    | _ => funcSlot + 2
  { u with suspend := .call ⟨funcSlot, -1, true, valueSlot⟩ }

/-- What the C function itself does with a yield, and then its caller. -/
def passC (ny : ℕ) (u : Unwinding) (f : CFunction) (funcSlot : ℕ) (via : Via) : Unwinding :=
  let u := if f = .pcall then u.pcallYield funcSlot else u
  match via with
  | .call want => u.suspendCall ny funcSlot want
  | .tail => (u.callCYield ny funcSlot (-1)).suspendReturn ny funcSlot
  | .host => u.callCYield ny funcSlot (-1)
  | .metamethod => u

/-- A yield passes the layers from the top one down. -/
def pass (ny : ℕ) : List Layer → Unwinding → Unwinding
  | [], u => u
  | .interp _ :: rest, u => pass ny rest u
  | .cfun f fs _ via _ :: rest, u => pass ny rest (u.passC ny f fs via)

end Unwinding

/-- The slot that `do_resume` reads the values of a yield from. -/
def Suspend.valueSlot : Suspend → ℕ
  | .start => 0
  | .call p => p.slot
  | .ret slot => slot

/-- The frames of the lowest layer, those that a resume finds by the links in the stack. -/
def lowest (host : List Layer) : Option (List CallFrame) :=
  match host.getLast? with
  | some (.interp frames) => some frames
  | _ => none

/-- `do_resume` with `resume_continue` or `resume_finish`; at the first time it enters the body at `base`. -/
def goOn (s : Slots) (susp : Suspend) (saved : List CallFrame) (args : List LuaValue) (base hi : ℕ) :
    Option Outcome :=
  let n := args.length
  match susp with
  | .start =>
    if room : 0 + 2 ≤ base then some (.running ⟨putAll s 2 args, 0, [.interp [⟨base, 1, 0, -1, room⟩]]⟩) else none
  | .call p =>
    let s := putAll s (p.slot + 2) args
    let s :=
      if p.isProtected then moveDown (Function.update s p.slot (.bool true)) (p.slot + 1) (p.slot + 2) n
      else if 0 ≤ p.want then
        fillNil (moveDown s p.slot (p.slot + 2) (min n p.want.toNat)) (p.slot + min n p.want.toNat)
          (p.slot + p.want.toNat)
      else moveDown s p.slot (p.slot + 2) n
    let mr := if p.want < 0 then if p.isProtected then n + 1 else n else 0
    some (.running ⟨s, mr, [.interp saved]⟩)
  | .ret slot =>
    let s := moveDown (putAll s (slot + 2) args) slot (slot + 2) n
    match saved with
    | fr :: callers => doReturn s 0 fr callers [] slot n hi
    | [] => none

/-! ### Runs -/

/-- What the code outside of the coroutine sees. -/
inductive Event
  | resumed (args : List LuaValue)
  | yielded (vs : List LuaValue)
  | finished (vs : List LuaValue)
  | failed (v : LuaValue)

/-- What the body or its resumer does. -/
inductive Act
  | instr (i : Instr)
  | yield
  | resume (args : List LuaValue) (base hi : ℕ)

/-- A coroutine as the code runs it. -/
inductive Impl
  | running (t : Thread)
  | suspended (s : Slots) (susp : Suspend) (saved : List CallFrame)
  | dead

namespace Impl

def init : Impl := .suspended (fun _ => .nil) .start []

def after : Outcome → Impl × List Event
  | .running t => (.running t, [])
  | .finished vs => (.dead, [.finished vs])
  | .failed v => (.dead, [.failed v])

/-- `lib_yield` in the topmost layer. -/
def yieldTop (t : Thread) : Option (Impl × List Event) :=
  match t.host with
  | .cfun .yield _ ny _ _ :: _ =>
    match lowest t.host with
    | some saved =>
      let u := Unwinding.pass ny t.host ⟨t.stack, .start⟩
      some (.suspended u.stack u.suspend saved, [.yielded (readAll u.stack u.suspend.valueSlot ny)])
    | none => none
  | _ => none

def step : Impl → Act → Option (Impl × List Event)
  | .running t, .instr i => (t.exec i).map after
  | .running t, .yield => yieldTop t
  | .suspended s susp saved, .resume args base hi =>
    (goOn s susp saved args base hi).map fun o => ((after o).1, .resumed args :: (after o).2)
  | _, _ => none

end Impl
end LuajitRs.Coroutine.Body
