import LuajitRs.Jit.Run
import LuajitRs.Jit.Record.Index

/-! Recording one bytecode after the other: the slot map, the snapshots with their merging, and the places where
the recorder emits an effect. An effect comes last in the recording of its bytecode. -/
namespace LuajitRs.Ir

def IRSLOAD_READONLY : ℕ := 0x10
def IRSLOAD_INHERIT : ℕ := 0x20

/-- The references of the stack slots, 0 for an empty one, and whether a frame lies below slot 1. -/
structure Slots where
  slot : ℕ → ℕ
  frame : Bool
  baseslot : ℕ
  maxslot : ℕ

/-- The recording context, with the trace under construction. -/
structure Recording where
  ir : IrBuf
  snap : List SnapShot
  snapmap : List SnapEntry
  slots : Slots
  /-- Suppress a new snapshot if no guard was emitted. -/
  mergesnap : Bool
  /-- Take a snapshot before recording the next bytecode. -/
  needsnap : Bool
  pc : ℕ

/-! ### Effects and guards -/

/-- The stores, the buffer instructions, and the calls of `jit_uset` and of a foreign function. -/
def effectful (ins : IRIns) : Bool :=
  ins.op = .astore || ins.op = .hstore || ins.op = .fstore || ins.op = .bufhdr || ins.op = .bufput ||
    ins.op = .bufstr || (ins.op = .calll && (ins.op2 = 10 || ins.op2 = 13))

/-- The effects behind which no snapshot is asked for. -/
def unflagged (ins : IRIns) : Bool := ins.op = .fstore || (ins.op = .calll && ins.op2 = 10)

/-- The instructions that may leave the trace: guards, and accesses to the array part. -/
def leaver (ins : IRIns) : Bool := ins.isGuard || ins.op = .astore || ins.op = .aload

/-- An instruction without an effect; an array load is always guarded. -/
def isPlain (ins : IRIns) : Bool :=
  !effectful ins && (ins.isGuard || ins.op ≠ .aload) && ins.op ≠ .loop && ins.op ≠ .gcstep

abbrev PlainIns : Type := { ins : IRIns // isPlain ins = true }

namespace IrBuf

/-- The instruction at `r` satisfies `p`. -/
def Has (b : IrBuf) (p : IRIns → Bool) (r : ℕ) : Prop := REF_BIAS ≤ r ∧ ∃ ins, b.ir r = some ins ∧ p ins = true

end IrBuf

/-- A constant that the recorder interns. -/
inductive Constant
  | kgc (v : LuaValue) (ty : IRTy)
  | kint64 (u : UInt64)
  | knum (x : F64)
  | kint (k : BitVec 32)

def Constant.intern (b : IrBuf) : Constant → IrBuf
  | .kgc v ty => (b.kgc v ty).1
  | .kint64 u => (b.kint64 u).1
  | .knum x => (b.knum x).1
  | .kint k => (b.kint k).1

namespace Recording
variable (s : Recording)

/-! ### Snapshots -/

/-- The map entry of one slot. An unmodified slot needs none unless it is inherited. -/
def snapEntry (i : ℕ) : Option SnapEntry :=
  let r := s.slots.slot i
  if i = 1 then if s.slots.frame then some ⟨1, true, REF_NIL⟩ else none
  else if r = 0 then none
  else
    let loaded := (s.ir.ir r).filter fun ins => ins.op = .sload && ins.op1 = i
    match loaded with
    | none => some ⟨i, false, r⟩
    | some ins =>
      if ins.op2 &&& IRSLOAD_INHERIT = 0 then none
      else some ⟨i, ins.op2 &&& IRSLOAD_READONLY ≠ 0, r⟩

/-- `snapshot_slots`: all modified slots. -/
def snapshotSlots : List SnapEntry := (List.range (s.slots.baseslot + s.slots.maxslot)).filterMap s.snapEntry

/-- `snapshot_stack` at an offset into the snap map. -/
def snapshotStack (nsnapmap : ℕ) : SnapShot where
  mapofs := nsnapmap
  iref := s.ir.nins
  pc := s.pc
  baseslot := s.slots.baseslot
  nslots := s.slots.baseslot + s.slots.maxslot
  nent := s.snapshotSlots.length

/-- Merge if no instruction is in between, or if requested and no guard is. -/
def merges : Bool := s.snap.getLast?.any (·.iref = s.ir.nins) || (s.mergesnap && !s.ir.guardemit)

/-- Make room for the new snapshot: the last one goes, but snapshot #0 is kept behind a `NOP`. -/
def snapMerge : Recording :=
  if s.merges then
    if s.snap.length = 1 then { s with ir := (s.ir.emitIns (.new .nop (plain .nil) 0 0)).1 }
    else
      let ofs := (s.snap.getLast?.map (·.mapofs)).getD 0
      { s with snap := s.snap.dropLast, snapmap := s.snapmap.take ofs }
  else s

/-- `snap_add`: add or merge a snapshot. -/
def snapAdd : Recording :=
  let s := s.snapMerge
  { s with
    ir := { s.ir with guardemit := false }
    snap := s.snap ++ [s.snapshotStack s.snapmap.length]
    snapmap := s.snapmap ++ s.snapshotSlots
    mergesnap := false }

def emit (ins : IRIns) : Recording := { s with ir := (s.ir.emitIns ins).1 }

/-- `rec_gcstep`: one check of the collector's debt in a trace. -/
def recGcstep (total threshold : UInt64) : Recording :=
  { s with ir := s.ir.recGcstep total threshold, needsnap := true }

/-- A snapshot before a comparison guard, which must not merge with snapshot #0. -/
def compPrep : Recording :=
  if s.snap.length = 1 ∧ s.snap.getLast?.any (·.iref = s.ir.nins) then
    (s.emit (.new .nop (plain .nil) 0 0)).snapAdd
  else s.snapAdd

/-- Point the last snapshot at the opposite branch. -/
def compFixup (npc maxslot : ℕ) : Recording :=
  { s with
    snap := s.snap.modify (s.snap.length - 1) fun sn => { sn with pc := npc }
    needsnap := true, slots := { s.slots with maxslot := min maxslot s.slots.maxslot } }

/-- A location in the bytecode with the extent of the slots there. -/
def resumeAt (pc maxslot : ℕ) : Recording := { s with pc := pc, slots := { s.slots with maxslot := maxslot } }

end Recording

/-! ### Bytecodes -/

/-- What the recorder does for a bytecode before its effect. -/
inductive Act
  | emit (ins : PlainIns)
  | const (k : Constant)
  | slots (slots : Slots)
  | gcstep (total threshold : UInt64)
  /-- A comparison: the guards with the pc of the branch that is not taken. -/
  | comp (guards : List PlainIns) (npc maxslot : ℕ)
  /-- The end of `for_loop`: the opposite outcome, the guards, and the recorded outcome. -/
  | forLoop (exitPc exitMax : ℕ) (guards : List PlainIns) (pc maxslot : ℕ)
  /-- A loop instruction sets the pc to what follows it. -/
  | goto (pc maxslot : ℕ)

/-- The locations in the bytecode that an act names. -/
def Act.pcs : Act → List ℕ
  | .comp _ npc _ => [npc]
  | .forLoop exitPc _ _ pc _ => [exitPc, pc]
  | .goto pc _ => [pc]
  | _ => []

/-- How the recording of a bytecode ends. -/
inductive Last
  | none
  /-- A loop was closed but could not be optimised, so recording continues. -/
  | unroll
  /-- The end of `rec_tset`. -/
  | tset (total threshold : UInt64) (array : Bool) (tab key val : ℕ)
  /-- The store of `table.insert` and `table.remove`. -/
  | tableStore (tab key val : ℕ)
  | setMetatable (tab mt : ℕ)
  | uset (ptr val : ℕ)
  | ffiCall (addr type a0 a1 : ℕ) (total threshold : UInt64)
  /-- The buffered concatenation `s = s .. x`. -/
  | bufCat (s x : ℕ) (total threshold : UInt64)

structure Bytecode where
  pc : ℕ
  acts : List Act
  last : Last
  /-- The slots afterwards. -/
  slots : Slots

namespace Recording
variable (s : Recording)

def emits (guards : List PlainIns) : Recording := guards.foldl (fun s g => s.emit g.1) s

def act : Act → Recording
  | .emit ins => s.emit ins
  | .const k => { s with ir := k.intern s.ir }
  | .slots sl => { s with slots := sl }
  | .gcstep total threshold => s.recGcstep total threshold
  | .comp guards npc maxslot => (s.compPrep.emits guards).compFixup npc maxslot
  | .forLoop exitPc exitMax guards pc maxslot =>
    { (((s.resumeAt exitPc exitMax).snapAdd.emits guards).resumeAt pc maxslot) with needsnap := true }
  | .goto pc maxslot => s.resumeAt pc maxslot

/-- The start of `record_ins`. -/
def start (pc : ℕ) : Recording :=
  let s := { s with pc := pc }
  if s.needsnap then { { s with needsnap := false }.snapAdd with mergesnap := true } else s

/-- `lj_record_stop`: the snapshot at the end of the trace. -/
def stop : Recording := { s with needsnap := false, mergesnap := true }.snapAdd

/-- A store through a `CARG` of its key and value. -/
def store (op : IROp) (tab key val : ℕ) : Recording :=
  (s.emit (.new .carg (plain .nil) key val)).emit (.new op (plain .nil) tab s.ir.nins)

/-- The call of a foreign function; its result is guarded to be a number. -/
def recFfi (addr type a0 a1 : ℕ) : Recording :=
  let c1 := s.emit (.new .carg (plain .nil) addr type)
  let c2 := c1.emit (.new .carg (plain .nil) s.ir.nins a0)
  let c3 := c2.emit (.new .carg (plain .nil) c1.ir.nins a1)
  c3.emit (.new .calll (guarded .num) c2.ir.nins 13)

/-- Appending to the concatenation buffer. -/
def recBuf (x y : ℕ) : Recording :=
  (s.emit (.new .bufhdr (plain .str) x 0)).emit (.new .bufput (plain .str) s.ir.nins y)

def recLast : Last → Recording
  | .none => s
  | .unroll => { s.stop with mergesnap := true }
  | .tset total threshold array tab key val =>
    (s.recGcstep total threshold).store (if array then .astore else .hstore) tab key val
  | .tableStore tab key val => { s.store .astore tab key val with needsnap := true }
  | .setMetatable tab mt => s.emit (.new .fstore (plain .nil) tab mt)
  | .uset ptr val => (s.emit (.new .carg (plain .nil) ptr val)).emit (.new .calll (plain .nil) s.ir.nins 10)
  | .ffiCall addr type a0 a1 total threshold => (s.recFfi addr type a0 a1).recGcstep total threshold
  | .bufCat x y total threshold => (s.recBuf x y).recGcstep total threshold

def acts (l : List Act) : Recording := l.foldl act s

/-- `record_ins`. -/
def recordIns (b : Bytecode) : Recording := { ((s.start b.pc).acts b.acts).recLast b.last with slots := b.slots }

/-- Recording a sequence of bytecodes. -/
def record (bs : List Bytecode) : Recording := bs.foldl recordIns s

/-- The trace stops at a bytecode without an effect. -/
def finish (pc : ℕ) (l : List Act) : Recording := ((s.start pc).acts l).stop

def trace (traceno : ℕ) (linktype : TraceLink) (link : ℕ) : Trace :=
  ⟨traceno, s.ir, s.snap, s.snapmap, linktype, link⟩

end Recording

/-- A slot of the parent's snapshot: inherited, or a constant. -/
inductive Inherited
  | sload (slot : ℕ) (ty : IRTy) (mode : ℕ)
  | const (k : Constant)

def Inherited.replay (b : IrBuf) : Inherited → IrBuf
  | .sload slot ty mode => (b.emitIns (.new .sload (plain ty) slot mode)).1
  | .const k => k.intern b

/-- The context after snapshot #0: a root trace starts with the base instruction only, a side trace with the
slots of its exit, as in `snap_replay`. -/
def Recording.new (parent exitno : ℕ) (inherited : List Inherited) (slots : Slots) (pc : ℕ) : Recording :=
  { ir := inherited.foldl Inherited.replay (.new parent exitno), snap := [], snapmap := [], slots := slots,
    mergesnap := false, needsnap := false, pc := pc : Recording }.snapAdd

end LuajitRs.Ir
