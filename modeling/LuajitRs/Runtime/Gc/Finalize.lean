import LuajitRs.Runtime.Gc.Pool
import Mathlib.Logic.Relation

/-! Collection cycles of userdata with finalizers: the incremental collector, the separation of the
unreachable userdata whose metatable has `__gc`, the sweep of their pool and `run_finalizers`.
What the marker reaches is left open, and so is what the program does between two steps: it creates
userdata, changes metatables, starts cycles and runs finalizers as it likes. A dead CLibrary cdata,
which has no Lua finalizer, is not part of the pending list here. -/
namespace LuajitRs

def BIT_FINALIZED : UInt8 := 0b01000000

namespace GcHeader

def isFinalized (h : GcHeader) : Bool := h.bits &&& BIT_FINALIZED != 0

def setFinalized (h : GcHeader) : GcHeader := { h with bits := h.bits ||| BIT_FINALIZED }

/-- Clear the colours, so that the sweep keeps the object without marking it. -/
def makeUndead (h : GcHeader) : GcHeader := { h with bits := h.bits &&& ~~~COLOR_MASK }

/-- The white of the next cycle: the object is swept one cycle after its finalizer ran. -/
def makeDeadNext (h : GcHeader) (currentWhite : UInt8) : GcHeader :=
  let color := if currentWhite = 0 then BIT_WHITE0 else BIT_WHITE1
  { h with bits := ((h.bits &&& ~~~COLOR_MASK) ||| BIT_FINALIZED) ||| color }

end GcHeader

/-- `reset_marked`, at the start of a cycle. -/
def Pool.resetMarked {T : Type} (pool : Pool T) : Pool T :=
  { pool with heap := fun a =>
      if a ∈ pool.objects then
        (pool.heap a).map fun x => { x with header := { x.header with marked := false } }
      else pool.heap a }

namespace Gc

/-- A userdata: its metatable, and the number of userdata that were created before it. -/
structure GcUserData where
  created : ℕ
  metatable : Option ℕ
  deriving DecidableEq, Repr

inductive GcState
  | pause | propagate | atomic | sweep | finalize
  deriving DecidableEq, Repr

def GC_SWEEP_MAX : ℕ := 40

/-- The bytes of a block of the userdata pool. -/
def BLOCK_SIZE : ℕ := 64

structure GcHeap where
  userdatas : Pool GcUserData
  /-- The metatables that have a `__gc`. -/
  gcMeta : ℕ → Bool
  gcState : GcState
  gcSweepPool : ℕ
  gcSweepPos : ℕ
  /-- The objects that wait for their finalizer; the last one is next. -/
  mmudata : List ℕ
  /-- History: the number of userdata created so far. -/
  created : ℕ
  /-- History: the number of cycles started so far. -/
  cycle : ℕ
  /-- History: the cycle in which a userdata was separated. -/
  separatedIn : ℕ → Option ℕ
  /-- History: the userdata whose turn came, and whether there was a finalizer to call. -/
  done : List (ℕ × Bool)
  /-- History: the userdata that were freed, and whether their metatable then had `__gc`. -/
  freed : List (ℕ × Bool)

namespace GcHeap

def new : GcHeap :=
  ⟨Pool.new, fun _ => false, .pause, 0, 0, [], 0, 0, fun _ => none, [], []⟩

/-- `has_gc_meta`. -/
def hasGcMeta (heap : GcHeap) (mt : Option ℕ) : Bool := mt.any heap.gcMeta

def objects (heap : GcHeap) : List ℕ := heap.userdatas.objects

def headerOf (heap : GcHeap) (a : ℕ) : GcHeader := (heap.userdatas.headerAt a).getD ⟨false, 0⟩

def metatableOf (heap : GcHeap) (a : ℕ) : Option ℕ := (heap.userdatas.get a).bind GcUserData.metatable

/-- The number of userdata that were created before the one at an address. -/
def numberOf (heap : GcHeap) (a : ℕ) : ℕ := ((heap.userdatas.get a).map GcUserData.created).getD 0

def hasGc (heap : GcHeap) (a : ℕ) : Bool := heap.hasGcMeta (heap.metatableOf a)

def modifyHeader (heap : GcHeap) (a : ℕ) (f : GcHeader → GcHeader) : GcHeap :=
  { heap with userdatas := heap.userdatas.modifyHeader a f }

/-! ### The program -/

def alloc (heap : GcHeap) (fresh : ℕ) (mt : Option ℕ) : GcHeap :=
  { heap with
    userdatas := (heap.userdatas.alloc BLOCK_SIZE ⟨heap.created, mt⟩ fresh).1
    created := heap.created + 1 }

def setMetatable (heap : GcHeap) (a : ℕ) (mt : Option ℕ) : GcHeap :=
  { heap with userdatas := { heap.userdatas with
      heap := fun b =>
        if b = a then (heap.userdatas.heap a).map fun x => { x with data := { x.data with metatable := mt } }
        else heap.userdatas.heap b } }

/-- Give a metatable a `__gc`, or take it away. -/
def setGcField (heap : GcHeap) (mt : ℕ) (b : Bool) : GcHeap :=
  { heap with gcMeta := Function.update heap.gcMeta mt b }

/-! ### Marking -/

def markUserdata (heap : GcHeap) (a : ℕ) : GcHeap :=
  if (heap.headerOf a).marked then heap else heap.modifyHeader a GcHeader.setMarked

def markAll (heap : GcHeap) (marks : List ℕ) : GcHeap := marks.foldl markUserdata heap

def barrierFwd (heap : GcHeap) (a : ℕ) : GcHeap :=
  if heap.gcState = .pause ∨ heap.gcState = .finalize then heap else heap.markUserdata a

def startGcCycle (heap : GcHeap) (roots : List ℕ) : GcHeap :=
  let cw := heap.userdatas.currentWhite ^^^ 1
  let heap := { heap with
    userdatas := (heap.userdatas.updateCurrentWhite cw).resetMarked
    gcState := .propagate, cycle := heap.cycle + 1 }
  heap.markAll roots

/-! ### The atomic step -/

/-- Unreachable, not yet separated, and with a finalizer. -/
def separable (heap : GcHeap) (a : ℕ) : Bool :=
  !(heap.headerOf a).marked && !(heap.headerOf a).isFinalized && heap.hasGc a

def separate (heap : GcHeap) (u : ℕ) : GcHeap :=
  { heap.modifyHeader u (fun h => h.makeUndead.setFinalized) with
    separatedIn := Function.update heap.separatedIn (heap.numberOf u) (some heap.cycle) }

/-- The loop of `separate_finalizable` from some object on; `out` is what it has collected. -/
def separateLoop : List ℕ → GcHeap → List ℕ → GcHeap × List ℕ
  | [], heap, out => (heap, out)
  | u :: us, heap, out =>
    if heap.separable u then separateLoop us (heap.separate u) (out ++ [u]) else separateLoop us heap out

def separateFinalizable (heap : GcHeap) : GcHeap × List ℕ := separateLoop heap.objects heap []

/-- The atomic step: the last round of marking, the separation, and the marking of what the
metatables of the separated userdata reach. -/
def atomicStep (heap : GcHeap) (marks late : List ℕ) : GcHeap :=
  let r := (heap.markAll marks).separateFinalizable
  let heap := if r.2 = [] then r.1 else r.1.markAll late
  { heap with mmudata := heap.mmudata ++ r.2, gcState := .sweep, gcSweepPool := 0, gcSweepPos := 0 }

/-! ### The sweep -/

/-- What the sweep of the userdata pool leaves behind of an object: the code's callback does nothing. -/
def onFree (gcMeta : ℕ → Bool) (_ : ℕ → Option (GcBox GcUserData)) (u : GcUserData)
    (freed : List (ℕ × Bool)) : Except Fault (List (ℕ × Bool)) :=
  .ok (freed ++ [(u.created, u.metatable.any gcMeta)])

/-- `sweep_one_pool`; `d` says whether the step reaches the end of the pool when it is another one
than the userdata pool. The flag says that all pools are swept. -/
def sweepOnePool (heap : GcHeap) (d : Bool) : Except Fault (GcHeap × Bool) :=
  if heap.gcSweepPool < 6 then
    .ok (if d then { heap with gcSweepPool := heap.gcSweepPool + 1, gcSweepPos := 0 } else heap, false)
  else if heap.gcSweepPool = 6 then
    match heap.userdatas.sweepLimited BLOCK_SIZE heap.userdatas.currentWhite (onFree heap.gcMeta)
        GC_SWEEP_MAX heap.gcSweepPos heap.freed with
    | .error e => .error e
    | .ok (pool, freed, poolDone, pos) =>
      let heap := { heap with userdatas := pool, freed := freed, gcSweepPos := pos }
      .ok (if poolDone then { heap with gcSweepPool := 7, gcSweepPos := 0 } else heap, false)
  else .ok (heap, true)

/-- `gc_onestep`. The marker marks `marks` in a marking state, and `late` after the separation; `d` says
whether it is done, or whether a pool other than the userdata pool is swept. -/
def gcOnestep (heap : GcHeap) (marks late : List ℕ) (d : Bool) : Except Fault GcHeap :=
  match heap.gcState with
  | .pause => .ok heap
  | .propagate =>
    let heap := heap.markAll marks
    .ok (if d then { heap with gcState := .atomic } else heap)
  | .atomic => .ok (heap.atomicStep marks late)
  | .sweep =>
    match heap.sweepOnePool d with
    | .error e => .error e
    | .ok (heap, false) => .ok heap
    | .ok (heap, true) => .ok { heap with gcState := if heap.mmudata = [] then .pause else .finalize }
  | .finalize => .ok heap

/-! ### The finalizers -/

/-- One round of the loop of `run_finalizers`, up to the call of the finalizer. When nothing is left
the loop is over and so is the cycle; an error of the finalizer leaves the loop as well. -/
def runFinalizer (heap : GcHeap) : GcHeap :=
  match heap.mmudata.getLast? with
  | none => { heap with gcState := .pause }
  | some o =>
    { heap.modifyHeader o (fun h => h.makeDeadNext heap.userdatas.currentWhite) with
      mmudata := heap.mmudata.dropLast
      done := heap.done ++ [(heap.numberOf o, heap.hasGc o)] }

/-- The userdata whose finalizer was called, in the order of the calls. -/
def calls (heap : GcHeap) : List ℕ := (heap.done.filter Prod.snd).map Prod.fst

/-- The userdata that wait for their finalizer. -/
def waiting (heap : GcHeap) : List ℕ := heap.mmudata.map heap.numberOf

/-! ### Runs -/

inductive Action
  | alloc (fresh : ℕ) (mt : Option ℕ)
  | setMetatable (a : ℕ) (mt : Option ℕ)
  | setGcField (mt : ℕ) (b : Bool)
  | barrierFwd (a : ℕ)
  | startGcCycle (roots : List ℕ)
  | gcOnestep (marks late : List ℕ) (d : Bool)
  | runFinalizer
  deriving DecidableEq, Repr

/-- The program and the marker touch objects of the pool only, and the system allocator hands out
addresses that are not in use. -/
def Enabled (heap : GcHeap) : Action → Prop
  | .alloc fresh _ => heap.userdatas.Available fresh
  | .setMetatable a _ | .barrierFwd a => a ∈ heap.objects
  | .startGcCycle roots => ∀ a ∈ roots, a ∈ heap.objects
  | .gcOnestep marks late _ => (∀ a ∈ marks, a ∈ heap.objects) ∧ ∀ a ∈ late, a ∈ heap.objects
  | .setGcField _ _ | .runFinalizer => True

instance (heap : GcHeap) : (act : Action) → Decidable (heap.Enabled act)
  | .alloc fresh _ => inferInstanceAs (Decidable (heap.userdatas.freelist = [] →
      (0x1000 < fresh ∧ fresh < ADDR_MAX) ∧ fresh ∉ heap.userdatas.objects))
  | .setMetatable a _ | .barrierFwd a => inferInstanceAs (Decidable (a ∈ heap.objects))
  | .startGcCycle roots => inferInstanceAs (Decidable (∀ a ∈ roots, a ∈ heap.objects))
  | .gcOnestep marks late _ => inferInstanceAs (Decidable
      ((∀ a ∈ marks, a ∈ heap.objects) ∧ ∀ a ∈ late, a ∈ heap.objects))
  | .setGcField _ _ | .runFinalizer => inferInstanceAs (Decidable True)

def step (heap : GcHeap) : Action → Except Fault GcHeap
  | .alloc fresh mt => .ok (heap.alloc fresh mt)
  | .setMetatable a mt => .ok (heap.setMetatable a mt)
  | .setGcField mt b => .ok (heap.setGcField mt b)
  | .barrierFwd a => .ok (heap.barrierFwd a)
  | .startGcCycle roots => .ok (heap.startGcCycle roots)
  | .gcOnestep marks late d => heap.gcOnestep marks late d
  | .runFinalizer => .ok heap.runFinalizer

end GcHeap
end Gc
end LuajitRs
