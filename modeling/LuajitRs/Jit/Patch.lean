import Mathlib.Data.Nat.Notation
import Mathlib.Data.Int.Notation
import Mathlib.Data.List.ReduceOption
import Mathlib.Logic.Function.Basic

/-! The trace compiler as a state machine over the prototypes: which instruction starts a trace, how a
finished trace is linked into the bytecode, and how penalties, hot exits and flushes take the links out
again. The recorder itself is an oracle: each event carries what it answered. -/
namespace LuajitRs.Jit

/-- The opcodes the trace compiler looks at; every other opcode is only its number. -/
inductive BCOp
  | iterc | itern | retm | ret | ret0 | ret1
  | fori | jfori | forl | iforl | jforl | iterl | iiterl | jiterl | loop | iloop | jloop | jmp
  | funcf | ifuncf | jfuncf | funcv | ifuncv | jfuncv
  | other (code : ℕ)
  deriving DecidableEq, Repr

namespace BCOp

/-- The position in the opcode enumeration. -/
def code : BCOp → ℕ
  | iterc => 69 | itern => 70 | retm => 73 | ret => 74 | ret0 => 75 | ret1 => 76
  | fori => 77 | jfori => 78 | forl => 79 | iforl => 80 | jforl => 81
  | iterl => 82 | iiterl => 83 | jiterl => 84 | loop => 85 | iloop => 86 | jloop => 87 | jmp => 88
  | funcf => 96 | ifuncf => 97 | jfuncf => 98 | funcv => 99 | ifuncv => 100 | jfuncv => 101
  | other n => n

/-- `BCOp::from_u32`. -/
def ofCode : ℕ → BCOp
  | 69 => iterc | 70 => itern | 73 => retm | 74 => ret | 75 => ret0 | 76 => ret1
  | 77 => fori | 78 => jfori | 79 => forl | 80 => iforl | 81 => jforl
  | 82 => iterl | 83 => iiterl | 84 => jiterl | 85 => loop | 86 => iloop | 87 => jloop | 88 => jmp
  | 96 => funcf | 97 => ifuncf | 98 => jfuncf | 99 => funcv | 100 => ifuncv | 101 => jfuncv
  | n => other n

def offset (o : BCOp) (delta : ℤ) : BCOp := ofCode ((o.code : ℤ) + delta).toNat

/-- `bc_isret`. -/
def isRet (o : BCOp) : Bool := o = retm || o = ret || o = ret0 || o = ret1

/-- The counting instructions at which a root trace may start. -/
def isHot (o : BCOp) : Bool := o = forl || o = loop || o = iterl || o = funcf

/-- The JIT variants. -/
def isJit (o : BCOp) : Bool :=
  o = jfori || o = jforl || o = jiterl || o = jloop || o = jfuncf || o = jfuncv

/-- The interpreted variants. -/
def isInterp (o : BCOp) : Bool :=
  o = iforl || o = iiterl || o = iloop || o = ifuncf || o = ifuncv

end BCOp

/-- A bytecode instruction; the operands B and C are the two bytes of D. -/
structure BCIns where
  op : BCOp
  a : UInt8
  d : UInt16
  deriving DecidableEq, Repr

namespace BCIns

/-- `bc_j`: the jump of D, biased by `BCBIAS_J`. -/
def bcJ (i : BCIns) : ℤ := (i.d.toNat : ℤ) - 0x8000

/-- `setbc_op`. -/
def setOp (i : BCIns) (o : BCOp) : BCIns := { i with op := o }

/-- `setbc_d`, which keeps the low 16 bits. -/
def setD (i : BCIns) (x : ℕ) : BCIns := { i with d := UInt16.ofNat x }

/-- The pseudo start instruction of a side trace, `bcins_ad(JMP, 0, 0)`. -/
def sideJmp : BCIns := ⟨.jmp, 0, 0⟩

end BCIns

abbrev ProtoRef := ℕ
abbrev TraceNo := ℕ

/-- A prototype's bytecode and the flags `PROTO_NOJIT` and `PROTO_ILOOP`. -/
structure Proto where
  bc : List BCIns
  nojit : Bool
  iloop : Bool

structure SnapShot where
  pc : ℕ
  count : ℕ
  sidetrace : TraceNo
  deriving DecidableEq, Repr

def snapcountDone : ℕ := 0xff

structure GCtrace where
  traceno : TraceNo
  snap : List SnapShot
  startpt : ProtoRef
  startpc : ℕ
  startins : BCIns
  link : TraceNo
  /-- The root of a side trace, 0 for a root trace. -/
  root : TraceNo
  nchild : ℕ

/-- The part of the recording context that outlives the recording. -/
structure Record where
  cur : GCtrace
  parent : TraceNo
  exitno : ℕ

inductive TraceState
  | idle | record | start | err
  deriving DecidableEq, Repr

/-- The abort reasons the trace compiler distinguishes. -/
inductive TraceError
  | blackl | retry | nyibc | nyiffu | nyiretl | linner | recerr | other (code : ℕ)
  deriving DecidableEq, Repr

/-- A penalty slot; the address of an instruction is its prototype and index. -/
structure HotPenalty where
  pc : Option (ProtoRef × ℕ)
  val : ℕ

structure JitState where
  state : TraceState
  parent : TraceNo
  exitno : ℕ
  startpt : Option ProtoRef
  startpc : ℕ
  startins : BCIns
  recording : Option Record
  /-- The registry, indexed by trace number. -/
  trace : List (Option GCtrace)
  penalty : List HotPenalty
  penaltyslot : ℕ

/-- The instruction word 0, whose opcode is the first of the enumeration. -/
def noIns : BCIns := ⟨.other 0, 0, 0⟩

def JitState.new : JitState where
  state := .idle
  parent := 0
  exitno := 0
  startpt := none
  startpc := 0
  startins := noIns
  recording := none
  trace := [none]
  penalty := List.replicate 64 ⟨none, 0⟩
  penaltyslot := 0

/-! The defaults of the engine parameters, which nothing changes. -/
def maxtrace : ℕ := 1000
def maxside : ℕ := 100
def minstitch : ℕ := 10
def hotexit : ℕ := 10
def tryside : ℕ := 4

def penaltyMin : ℕ := 72
def penaltyMax : ℕ := 6000

namespace JitState
variable (js : JitState)

/-- `js.trace[t].as_ref()`, with `none` also for a number outside the registry. -/
def lookup (t : TraceNo) : Option GCtrace := (js.trace[t]?).join

/-- `find_root_trace`. -/
def findRootTrace (p : ProtoRef) (pc : ℕ) : Bool :=
  js.trace.any fun slot => slot.any fun t => t.root == 0 && t.startpt == p && t.startpc == pc

/-- `trace_findfree`. -/
def traceFindfree : Option (TraceNo × JitState) :=
  match (js.trace.drop 1).findIdx? (·.isNone) with
  | some i => some (i+1, js)
  | none =>
    if maxtrace < js.trace.length then none
    else some (js.trace.length, { js with trace := js.trace ++ [none] })

/-- Writing an existing slot of the registry. -/
def modifyTrace (t : TraceNo) (f : GCtrace → GCtrace) : JitState :=
  { js with trace := js.trace.modify t (Option.map f) }

end JitState

/-- The prototypes with the trace compiler. -/
structure State where
  protos : ProtoRef → Proto
  js : JitState

namespace State
variable (s : State)

def ins (p : ProtoRef) (pc : ℕ) : Option BCIns := (s.protos p).bc[pc]?

/-- Writing one instruction; an index outside the bytecode panics. -/
def setIns (p : ProtoRef) (pc : ℕ) (i : BCIns) : Option State :=
  if pc < (s.protos p).bc.length then
    let pt := { s.protos p with bc := (s.protos p).bc.set pc i }
    some { s with protos := Function.update s.protos p pt }
  else none

def setIloop (p : ProtoRef) : State :=
  { s with protos := Function.update s.protos p { s.protos p with iloop := true } }

def setNojit (p : ProtoRef) : State :=
  { s with protos := Function.update s.protos p { s.protos p with nojit := true } }

/-- Replacing the opcode of one instruction in place. -/
def setOp (p : ProtoRef) (pc : ℕ) (o : BCOp) : Option State := do
  let i ← s.ins p pc
  s.setIns p pc (i.setOp o)

/-- An `as usize` index: a negative one is far outside the bytecode. -/
def index (j : ℤ) : Option ℕ := if 0 ≤ j then some j.toNat else none

def blacklistPc (p : ProtoRef) (pc : ℕ) : Option State := do
  let i ← s.ins p pc
  match i.op with
  | .forl | .iterl | .loop | .funcf =>
    let s ← s.setOp p pc (i.op.offset 1)
    some (s.setIloop p)
  | .jforl | .jiterl | .jloop | .jfuncf =>
    let s ← s.setOp p pc (i.op.offset (-1))
    some (s.setIloop p)
  | .itern =>
    let s ← s.setOp p pc .iterc
    let next ← s.ins p (pc+1)
    let t ← index (pc + 1 + next.bcJ)
    s.setOp p t .jmp
  | _ => some s

/-- `penalty_pc`; `rnd` is the draw of the random generator. -/
def penaltyPc (p : ProtoRef) (pc : ℕ) (rnd : ℕ) : Option State :=
  match s.js.penalty.findIdx? (fun h => h.pc == some (p, pc)) with
  | some i =>
    let val := (s.js.penalty[i]?.elim 0 (·.val)) * 2 + rnd % 16
    if penaltyMax < val then s.blacklistPc p pc
    else some { s with js.penalty := s.js.penalty.set i ⟨some (p, pc), val % 65536⟩ }
  | none =>
    let i := s.js.penaltyslot
    some { s with
      js.penaltyslot := (i + 1) % 64
      js.penalty := s.js.penalty.set i ⟨some (p, pc), penaltyMin⟩ }

/-- The starting instruction of an aborted root trace is penalised, or its prototype given up. -/
def penalizeStart (e : TraceError) (rnd : ℕ) : Option State :=
  match s.js.startpt with
  | none => some s
  | some p =>
    if s.js.parent = 0 ∧ !s.js.startins.op.isRet ∧ s.js.exitno = 0 then
      match e with
      | .retry => some s
      | .blackl => some (s.setNojit p)
      | .nyiretl => if s.js.startins.op = .funcf then some s else s.penaltyPc p s.js.startpc rnd
      | _ => s.penaltyPc p s.js.startpc rnd
    else some s

def traceAbort (e : TraceError) (rnd : ℕ) : Option State := do
  let s ← { s with js.recording := none }.penalizeStart e rnd
  some { s with js.startpt := none, js.startins := noIns, js.state := .idle }

end State

/-- What the recorder answers when a recording is set up. -/
abbrev Setup := Option TraceError

/-- `Record::new`. -/
def Record.new (traceno : TraceNo) (p : ProtoRef) (pc : ℕ) (startins : BCIns) (parent : TraceNo)
    (exitno : ℕ) : Record where
  cur := ⟨traceno, [], p, pc, startins, 0, 0, 0⟩
  parent := parent % 65536
  exitno := exitno % 65536

namespace State
variable (s : State)

def idle : State := { s with js.state := .idle }

def abortWith (e : TraceError) (rnd : ℕ) : Option State :=
  { s with js.state := .err }.traceAbort e rnd

/-- The recording starts unless the recorder's setup failed. -/
def beginRecord (r : Record) (setup : Setup) (rnd : ℕ) : Option State :=
  match setup with
  | some e => s.abortWith e rnd
  | none => some { s with js.recording := some r, js.state := .record }

/-- The side-trace half of the setup: the parent's exit is inherited. -/
def setupSide (r : Record) (setup : Setup) (rnd : ℕ) : Option State := do
  let t ← s.js.lookup s.js.parent
  let snap ← t.snap[s.js.exitno]?
  let root := if t.root ≠ 0 then t.root else s.js.parent
  let r := { r with cur.root := root, cur.startins := BCIns.sideJmp }
  let children := (s.js.lookup root).elim 0 (·.nchild)
  if maxside ≤ children ∨ hotexit + tryside ≤ snap.count then
    some { s with
      js.trace := (s.js.modifyTrace s.js.parent fun t =>
        { t with snap := t.snap.modify s.js.exitno fun sn => { sn with count := snapcountDone } }).trace
      js.startpt := none
      js.state := .idle }
  else s.beginRecord r setup rnd

/-- The root half of the setup, `rec_setup_root`. -/
def setupRoot (p : ProtoRef) (pc : ℕ) (op : BCOp) (r : Record) (setup : Setup) (rnd : ℕ) :
    Option State :=
  if op = .iterl then do
    let prev ← (index (pc - 1)).bind (s.ins p)
    if prev.op = .iterc ∨ prev.op = .itern then s.beginRecord r setup rnd
    else s.abortWith (if prev.op = .jloop then .linner else .nyibc) rnd
  else s.beginRecord r setup rnd

/-- Side traces start as a pseudo jump: `pc` may lie inside an inlined callee. -/
def startIns (p : ProtoRef) (pc : ℕ) : Option BCIns :=
  if s.js.parent ≠ 0 then some BCIns.sideJmp else s.ins p pc

/-- `trace_start`. -/
def traceStart (p : ProtoRef) (pc : ℕ) (setup : Setup) (rnd : ℕ) : Option State := do
  let startins ← s.startIns p pc
  let op := startins.op
  if (s.protos p).nojit then
    -- The hot instruction is patched lazily to its non-counting variant.
    if s.js.parent = 0 ∧ s.js.exitno = 0 ∧ op ≠ .itern then
      let s ← s.setOp p pc (op.offset 1)
      some (s.setIloop p).idle
    else some s.idle
  else if s.js.parent = 0 ∧ s.js.findRootTrace p pc then some s.idle
  else
    let s := { s with js.startpt := some p, js.startpc := pc, js.startins := startins }
    if s.js.parent = 0 ∧ !op.isHot then s.abortWith .nyibc rnd
    else match s.js.traceFindfree with
      | none => some s.idle
      | some (traceno, js) =>
        let s := { s with js := js }
        let first ← s.ins p pc
        let r := Record.new traceno p pc first s.js.parent s.js.exitno
        if s.js.parent ≠ 0 then s.setupSide r setup rnd else s.setupRoot p pc op r setup rnd

/-- `trace_hot`: the hot counter of a counting instruction underflowed. -/
def traceHot (p : ProtoRef) (pc : ℕ) (setup : Setup) (rnd : ℕ) : Option State :=
  if s.js.state = .idle then
    { s with js.parent := 0, js.exitno := 0, js.state := .start }.traceStart p pc setup rnd
  else some s

/-- `trace_hot_side`: a side exit was taken often enough. -/
def traceHotSide (parent : TraceNo) (exitno : ℕ) (setup : Setup) (rnd : ℕ) : Option State :=
  if s.js.state ≠ .idle then some s
  else do
    let t ← s.js.lookup parent
    let root ← s.js.lookup (if t.root = 0 then parent else t.root)
    let snap ← t.snap[exitno]?
    if maxside ≤ root.nchild ∨ hotexit + tryside ≤ snap.count then some s
    else
      let s := { s with js.parent := parent, js.exitno := exitno, js.state := .start }
      s.traceStart t.startpt snap.pc setup rnd

/-- The opcode of the loop head that a numeric loop end is paired with. -/
def patchHead (tr : GCtrace) (o : BCOp) : Option State :=
  if tr.startins.op = .forl then do
    let fori ← index (tr.startpc + tr.startins.bcJ)
    s.setOp tr.startpt fori o
  else some s

/-- The bytecode patch that enters a finished root trace. -/
def patchRoot (tr : GCtrace) : Option State := do
  let s ← s.patchHead tr .jfori
  let i ← s.ins tr.startpt tr.startpc
  s.setIns tr.startpt tr.startpc ((i.setOp (tr.startins.op.offset 2)).setD tr.traceno)

/-- The link of a parent's exit to its finished side trace. -/
def linkSide (r : Record) (tr : GCtrace) : Option State := do
  let t ← s.js.lookup r.parent
  let _ ← t.snap[r.exitno]?
  let js := s.js.modifyTrace r.parent fun t =>
    { t with snap := t.snap.modify r.exitno fun sn =>
        { sn with count := snapcountDone, sidetrace := tr.traceno } }
  let _ ← js.lookup tr.root
  some { s with js := js.modifyTrace tr.root fun t => { t with nchild := t.nchild + 1 } }

/-- The start of a root trace is patched; a side trace is linked to its parent. -/
def linkTrace (r : Record) (tr : GCtrace) : Option State :=
  match tr.startins.op with
  | .forl | .loop | .iterl | .funcf => s.patchRoot tr
  | .jmp => s.linkSide r tr
  | _ => some s

/-- `trace_stop`: the finished trace is registered and linked. -/
def traceStop (r : Record) (snap : List SnapShot) (lnk : TraceNo) : Option State := do
  let tr := { r.cur with link := lnk, snap := snap }
  let s ← { s with js.trace := s.js.trace.set tr.traceno (some tr) }.linkTrace r tr
  some { s with js.startpt := none, js.state := .idle }

/-- Undoing the patch of one root trace. -/
def revert (tr : GCtrace) : Option State := do
  let s ← s.patchHead tr .fori
  s.setIns tr.startpt tr.startpc tr.startins

/-- `trace_flush_all`. -/
def traceFlushAll : Option State :=
  let roots := s.js.trace.reduceOption.filter fun t => t.root == 0
  roots.foldlM (fun s tr => s.revert tr)
    { s with js.trace := s.js.trace.map fun _ => none }

/-- `trace_flush_blacklist`. -/
def traceFlushBlacklist (traceno : TraceNo) : Option State := do
  let slot ← s.js.trace[traceno]?
  let root := slot.elim traceno fun t => if t.root = 0 then traceno else t.root
  match ← s.js.trace[root]? with
  | none => some s
  | some tr =>
    if tr.root = 0 then do
      let s ← s.revert tr
      s.blacklistPc tr.startpt tr.startpc
    else some s

/-- The exit accounting of the executor. -/
def traceExit (traceno : TraceNo) (exitno : ℕ) (setup : Setup) (rnd : ℕ) : Option State := do
  let tr ← s.js.lookup traceno
  let snap ← tr.snap[exitno]?
  if snap.count = snapcountDone then some s
  else
    let count := snap.count + 1
    let s := { s with js := s.js.modifyTrace traceno fun t =>
      { t with snap := t.snap.modify exitno fun sn => { sn with count := count } } }
    if count < hotexit then some s
    else if hotexit + tryside < count ∧ exitno + 1 < tr.snap.length then
      s.traceFlushBlacklist traceno
    else if count ≤ hotexit + tryside then s.traceHotSide traceno exitno setup rnd
    else some s

end State

/-- What can happen to the trace compiler. -/
inductive Event
  /-- The interpreter's hot counter underflows at a counting instruction. -/
  | hot (p : ProtoRef) (pc : ℕ) (setup : Setup) (rnd : ℕ)
  /-- A trace is left through one of its exits. -/
  | exit (traceno : TraceNo) (exitno : ℕ) (setup : Setup) (rnd : ℕ)
  /-- The recorder completes the trace. -/
  | stop (snap : List SnapShot) (lnk : TraceNo)
  /-- The recorder gives up; `long` says that enough was recorded to keep it as a stitched prefix. -/
  | fail (e : TraceError) (long : Bool) (snap : List SnapShot) (rnd : ℕ)
  | flushBlacklist (traceno : TraceNo)
  | flushAll

namespace State

/-- One event; `none` where the code panics or the event cannot happen. -/
def step (s : State) : Event → Option State
  | .hot p pc setup rnd => do
    let i ← s.ins p pc
    if i.op.isHot then s.traceHot p pc setup rnd else none
  | .exit traceno exitno setup rnd => s.traceExit traceno exitno setup rnd
  | .stop snap lnk => do
    let r ← s.js.recording
    let s := { s with js.recording := none }
    s.traceStop r snap lnk
  | .fail e long snap rnd => do
    let r ← s.js.recording
    if 0 < minstitch ∧ r.parent = 0 ∧ (e = .nyibc ∨ e = .nyiffu) ∧ long then
      let s := { s with js.recording := none }
      s.traceStop r snap 0
    else s.abortWith e rnd
  | .flushBlacklist traceno => s.traceFlushBlacklist traceno
  | .flushAll => s.traceFlushAll

end State

end LuajitRs.Jit
