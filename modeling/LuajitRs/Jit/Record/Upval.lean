import LuajitRs.Jit.Opt.Dce
import LuajitRs.Jit.Record.Replay
import LuajitRs.Vm.Cells

/-! Recording `UGET` and `USET`. Behind a guard on the running closure, an upvalue is taken for a constant, for a
register of the recorded frames, or for the word at the address that it has at recording time. -/
namespace LuajitRs

def LuaValue.asFunc : LuaValue → Option ℕ
  | func a => some a
  | _ => none

namespace Vm

section
variable (S : Space) (word : ℕ → LuaValue) (base d : ℕ)

/-- Upvalue `d` of the running function. -/
def curUpval : Option ℕ := do
  let f ← (word (S.stack.sp + base - 2)).asFunc
  let us ← S.closure f
  us[d]?

/-- `UGET`: the value, and the memory. -/
def opUget : Option (LuaValue × (ℕ → LuaValue)) := do
  let u ← curUpval S word base d
  some (word (S.upval u).v, word)

/-- `USETV` and its variants for constants. -/
def opUset (v : LuaValue) : Option (ℕ → LuaValue) := do
  let u ← curUpval S word base d
  some (Function.update word (S.upval u).v v)

end
end Vm

namespace Ir
open Vm

abbrev IRSLOAD_TYPECHECK : ℕ := 4
abbrev MAX_JSLOTS : ℕ := 250

/-! ### The helper -/

/-- The word at the pointer that a constant holds. -/
def pointee (p : LuaValue) : ℕ := p.toBits / 8

def cellPtr (p : ℕ) : UInt64 := UInt64.ofNat (8 * p)

/-- `jit_uset` writes to memory; the stack of the world is the window on the memory at the running thread. -/
def upvalRuntime : Runtime Space where
  hash _ := 0
  pow x _ := x
  upval S p := S.word (pointee p)
  call idx args w := match args with
    | [p, v] => if idx = IRCALL_USET then (w.rest.set (pointee p) v, v) else (w.rest, .nil)
    | _ => (w.rest, .nil)
  cnew _ _ h := (h, .nil)
  bufStart _ h := h
  bufAppend _ h := h
  bufStr h := (h, .nil)
  shouldCollect _ := false
  fresh n := n

/-! ### The recorder -/

/-- The references of the recorded registers. -/
abbrev SlotMap : Type := ℕ → Option TRef

/-- What the recorder sees of the program: its memory, the running frame, and the slot of that frame. -/
structure Site where
  space : Space
  base : ℕ
  baseslot : ℕ

/-- Where an upvalue is read from. -/
inductive Source
  | const (v : LuaValue)
  | slot (abs : ℕ)
  | cell (p : ℕ)
  deriving DecidableEq

/-- Values that are not made constants. -/
def heavy : LuaValue → Bool
  | .tab _ | .thread _ | .udata _ => true
  | _ => false

/-- `constify`. -/
def constify (b : IrBuf) (v : LuaValue) : IrBuf × TRef :=
  match v with
  | .num x =>
    let (b, r) := b.knum x
    (b, ⟨r, .num⟩)
  | v =>
    if irtIspri (valueIrt v) then (b, trefPri (valueIrt v))
    else
      let (b, r) := b.kgc v (valueIrt v)
      (b, ⟨r, valueIrt v⟩)

/-- The reference of a loaded value; primitive types have fixed ones. -/
def loadedRef (t : IRTy) (r : ℕ) : TRef := if irtIspri t then trefPri t else ⟨r, t⟩

namespace Site
variable (s : Site)

/-- The frame that the trace starts in. -/
def frame0 : ℕ := s.base - (s.baseslot - 2)

def slotValue (abs : ℕ) : LuaValue := s.space.word (s.space.stack.sp + s.frame0 + abs - 2)

def fnval : LuaValue := s.space.word (s.space.stack.sp + s.base - 2)

/-- The slot of the running function. -/
def fslot : ℕ := s.baseslot - 2

def getslotAbs (b : IrBuf) (slot : SlotMap) (abs : ℕ) : IrBuf × SlotMap × TRef :=
  match slot abs with
  | some tr => (b, slot, tr)
  | none =>
    let t := valueIrt (s.slotValue abs)
    let (b, r) := b.emitIns (.new .sload (guarded t) abs IRSLOAD_TYPECHECK)
    (b, Function.update slot abs (some (loadedRef t r)), loadedRef t r)

def specializeCurfn (b : IrBuf) (slot : SlotMap) : IrBuf × SlotMap :=
  match slot s.fslot with
  | some cur =>
    -- Inlined frames are specialized already.
    if cur.ref < REF_BIAS then (b, slot)
    else
      let (b, kf) := b.kgc s.fnval .func
      ((b.emitEq .func cur.ref kf).1, Function.update slot s.fslot (some ⟨kf, .func⟩))
  | none =>
    let (b, kf) := b.kgc s.fnval .func
    let (b, slot, ftr) := s.getslotAbs b slot s.fslot
    let b := if ftr.ref < REF_BIAS then b else (b.emitEq .func ftr.ref kf).1
    (b, Function.update slot s.fslot (some ⟨kf, .func⟩))

/-- The register of the recorded frames that an open upvalue is. -/
def forwarded (uv : Upval) : Option ℕ :=
  if uv.isOpen ∧ s.space.stack.Holds uv.v then
    let idx := uv.v - s.space.stack.sp
    if s.frame0 ≤ idx ∧ idx - s.frame0 + 2 < MAX_JSLOTS then some (idx - s.frame0 + 2) else none
  else none

def source (u : ℕ) : Source :=
  if (s.space.upval u).immutable && !heavy (s.space.get u) then .const (s.space.get u)
  else match s.forwarded (s.space.upval u) with
    | some abs => .slot abs
    | none => .cell (s.space.upval u).v

/-- `rec_uget`; recording is aborted with `none`. -/
def recUget (d : ℕ) (b : IrBuf) (slot : SlotMap) : Option (IrBuf × SlotMap × TRef) := do
  let u ← curUpval s.space s.space.word s.base d
  let (b, slot) := s.specializeCurfn b slot
  match s.source u with
  | .const v =>
    let (b, tr) := constify b v
    some (b, slot, tr)
  | .slot abs => some (s.getslotAbs b slot abs)
  | .cell p =>
    let t := valueIrt (s.space.get u)
    let (b, cell) := b.kint64 (cellPtr p)
    let (b, r) := b.emitIns (.new .uload (guarded t) cell 0)
    some (b, slot, loadedRef t r)

/-- The register that a write invalidates. An upvalue below the recorded frames is taken for the first one. -/
def invalidated (uv : Upval) : Option ℕ :=
  if s.space.stack.Holds uv.v then
    let abs := uv.v - s.space.stack.sp - s.frame0 + 2
    if abs < MAX_JSLOTS then some abs else none
  else none

def invalidate (uv : Upval) (slot : SlotMap) : SlotMap :=
  match s.invalidated uv with
  | some abs => Function.update slot abs none
  | none => slot

/-- The `USETV` of `record_ins` and its variants for constants. -/
def recUset (d : ℕ) (val : TRef) (b : IrBuf) (slot : SlotMap) : Option (IrBuf × SlotMap) := do
  let u ← curUpval s.space s.space.word s.base d
  let (b, slot) := s.specializeCurfn b slot
  let (b, ptr) := b.kint64 (cellPtr (s.space.upval u).v)
  let (b, carg) := b.emitIns (.new .carg (plain .nil) ptr val.ref)
  let (b, _) := b.emitIns (.new .calll (plain .nil) carg IRCALL_USET)
  some (b, s.invalidate (s.space.upval u) slot)

end Site

/-! ### Later runs -/

section
variable (b : IrBuf) (slot : SlotMap) (m : Machine Space)

/-- The word of a register of the trace. -/
def regAddr (abs : ℕ) : ℕ := m.world.rest.stack.sp + m.cbase + abs - 2

/-- The reference that stands for a word. -/
def named (p : ℕ) : Option TRef :=
  if m.world.rest.stack.sp + m.cbase ≤ p + 2 then slot (p + 2 - (m.world.rest.stack.sp + m.cbase)) else none

/-- The memory as the interpreter has it at this point: registers with a reference have its value. -/
def interpWord (p : ℕ) : LuaValue :=
  match named slot m p with
  | some tr => (readRef b m.env tr.ref).getD .nil
  | none => m.world.rest.word p

/-- The references of the registers are emitted. -/
def SlotsOk : Prop := ∀ i tr, slot i = some tr → tr.ref < b.nins ∧ (tr.ref < REF_BIAS → (b.constBits tr.ref).isSome)

variable (s : Site)

/-- The recorder at a bytecode. The reference of a function that is a constant is that of the running function. -/
structure Site.Ok : Prop where
  apart : s.space.Apart
  baseslot : 2 ≤ s.baseslot
  base : s.baseslot ≤ s.base
  fits : ∀ u, 8 * (s.space.upval u).v < 2^64
  ready : b.Ready 2
  slots : SlotsOk b slot
  cur : ∀ tr, slot s.fslot = some tr → tr.ref < REF_BIAS → b.constBits tr.ref = some s.fnval

/-- A later run at the recorded bytecode, anywhere in the further run of the program. -/
structure Site.Entered : Prop where
  r : m.r = b.nins
  runs : s.space.Runs m.world.rest
  stack : m.world.stack = fun i => m.world.rest.word (m.world.rest.stack.sp + i)
  cbase : 2 ≤ m.cbase
  /-- The registers lie on the stack. -/
  inside : ∀ i, slot i ≠ none ∨ i = s.fslot → m.world.rest.stack.Holds (regAddr m i)
  /-- A guard on the running function that is there already has passed. -/
  passed : ∀ tr r, slot s.fslot = some tr → REF_BIAS ≤ tr.ref →
    (b.kgc s.fnval .func).1.findCse tr.ref (b.kgc s.fnval .func).2 (b.kgc s.fnval .func).1.ins.length
      ((b.kgc s.fnval .func).1.chain .eq) = some r →
    readRef b m.env tr.ref = some s.fnval

/-- The base of the running frame. -/
def Site.laterBase : ℕ := m.cbase + (s.baseslot - 2)

end

/-- What the replay of a `UGET` gives: it leaves with `some none`, or the value and the memory. -/
def replayUget (b c : IrBuf) (slot : SlotMap) (tr : TRef) (m : Machine Space) :
    Option (Option (LuaValue × (ℕ → LuaValue))) := do
  match ← runIns upvalRuntime c (c.ins.drop b.ins.length) m with
  | none => some none
  | some m => do
    let v ← readRef c m.env tr.ref
    some (some (v, interpWord c slot m))

def replayUset (b c : IrBuf) (slot : SlotMap) (m : Machine Space) : Option (Option (ℕ → LuaValue)) := do
  match ← runIns upvalRuntime c (c.ins.drop b.ins.length) m with
  | none => some none
  | some m => some (some (interpWord c slot m))

section
variable (s : Site) (d : ℕ) (b : IrBuf) (slot : SlotMap) (m : Machine Space)

/-- The trace is left, or has the value of the interpreter. -/
def UgetAgrees : Prop := ∀ c slot' tr, s.recUget d b slot = some (c, slot', tr) →
  replayUget b c slot' tr m = some none ∨
    replayUget b c slot' tr m = (opUget m.world.rest (interpWord b slot m) (s.laterBase m) d).map some

/-- Whatever is written: the trace is left, or all words are those of the interpreter afterwards. -/
def UsetAgrees : Prop := ∀ val v, val.ref < b.nins → readRef b m.env val.ref = some v →
  ∀ c slot', s.recUset d val b slot = some (c, slot') →
    replayUset b c slot' m = some none ∨
      replayUset b c slot' m = (opUset m.world.rest (interpWord b slot m) (s.laterBase m) d v).map some

/-- The closure guard passes. -/
def SameClosure : Prop := interpWord b slot m (regAddr m s.fslot) = s.fnval

/-- The guard on the type of the value that is read. -/
def Source.Passes (u : ℕ) : Source → Prop
  | .const _ => True
  | .slot abs => slot abs = none → typecheck (m.world.rest.word (regAddr m abs)) (valueIrt (s.slotValue abs)) = true
  | .cell p => typecheck (m.world.rest.word p) (valueIrt (s.space.get u)) = true

def Source.value : Source → LuaValue
  | .const v => v
  | .slot abs => interpWord b slot m (regAddr m abs)
  | .cell p => m.world.rest.word p

/-- When the recorded read is right, at a later run: the running closure or the type of the value at the recorded
place is another one, or the value there is that of the cell that the upvalue has now. -/
def UgetHolds : Prop := ∀ u, curUpval s.space s.space.word s.base d = some u →
  ¬ SameClosure s b slot m ∨ ¬ (s.source u).Passes s slot m u ∨
    (s.source u).value b slot m = interpWord b slot m (m.world.rest.upval u).v

/-- A register that keeps a reference when an upvalue is written. -/
def Kept (uv : Upval) (p : ℕ) : Prop :=
  ∃ i, p = regAddr m i ∧ s.invalidated uv ≠ some i ∧ (slot i ≠ none ∨ i = s.fslot)

/-- When recorded writes are right: the running closure is another one, or the upvalue is where it was, not in a
register that keeps its reference, and the invalidated register is the upvalue or has its value in memory. -/
def UsetHolds : Prop := ∀ u, curUpval s.space s.space.word s.base d = some u → SameClosure s b slot m →
  (m.world.rest.upval u).v = (s.space.upval u).v ∧
  ¬ Kept s slot m (s.space.upval u) (s.space.upval u).v ∧
  ∀ abs, s.invalidated (s.space.upval u) = some abs → regAddr m abs = (s.space.upval u).v ∨
    interpWord b slot m (regAddr m abs) = m.world.rest.word (regAddr m abs)

end
end Ir
end LuajitRs
