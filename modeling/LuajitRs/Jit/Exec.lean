import LuajitRs.Jit.Ir
import LuajitRs.Runtime.Table

/-! The portable trace executor. An instruction reads the slots of its operands and yields an effect: a
value for its own slot, a new world, and whether its guard leaves the trace. Strings, closures, upvalues
and the collector's debt stand behind an arbitrary runtime. -/
namespace LuajitRs

namespace LuaValue

/-- The word of a value read as a double. -/
def f64 : LuaValue → F64
  | num x => x
  | v => ⟨UInt64.ofNat v.toBits⟩

/-- The marker of a string buffer in a slot, which is the word of nil. -/
def BUF_MARK : LuaValue := nil

def isNumber : LuaValue → Bool
  | num _ => true
  | _ => false

def asTable : LuaValue → Option ℕ
  | tab a => some a
  | _ => none

end LuaValue

namespace Ir

/-- What a running trace can read and change. -/
structure World (H : Type) where
  stack : ℕ → LuaValue
  tables : ℕ → Option LuaTable
  rest : H

/-- The helpers of the runtime. None of them writes a stack slot or a table. -/
structure Runtime (H : Type) where
  hash : LuaValue → UInt32
  pow : F64 → F64 → F64
  /-- The closed upvalue cell at an address. -/
  upval : H → LuaValue → LuaValue
  /-- The helper of a call index, on its arguments. -/
  call : ℕ → List LuaValue → World H → H × LuaValue
  cnew : LuaValue → LuaValue → H → H × LuaValue
  /-- Copy a string or a number into the concatenation buffer, and append one. -/
  bufStart : LuaValue → H → H
  bufAppend : LuaValue → H → H
  /-- Intern the contents of the concatenation buffer. -/
  bufStr : H → H × LuaValue
  shouldCollect : World H → Bool
  /-- The address of a table that the `n`-th executed instruction allocates. -/
  fresh : ℕ → ℕ

/-- A runtime without helpers, enough for traces of numbers and tables. -/
def Runtime.bare : Runtime Unit where
  hash _ := 0
  pow x _ := x
  upval _ v := v
  call _ _ _ := ((), .nil)
  cnew _ _ _ := ((), .nil)
  bufStart _ _ := ()
  bufAppend _ _ := ()
  bufStr _ := ((), .nil)
  shouldCollect _ := false
  fresh n := n

/-- The state of `run_ir`: the next instruction, the value slots, the frame base, and the number of
instructions executed so far. -/
structure Machine (H : Type) where
  r : ℕ
  env : ℕ → LuaValue
  world : World H
  cbase : ℕ
  clock : ℕ

/-- What executing one instruction does. -/
structure Effect (H : Type) where
  val : Option LuaValue
  world : World H
  leave : Bool
  gc : Bool

/-- The type check of a guarded load. -/
def typecheck (v : LuaValue) (t : IRTy) : Bool :=
  match t, v with
  | .num, .num _ | .int, .num _ | .nil, .nil | .false, .bool false | .true, .bool true
  | .str, .str _ | .thread, .thread _ | .func, .func _ | .cdata, .cdata _ | .tab, .tab _
  | .udata, .udata _ => true
  | _, _ => false

def ircallArity (idx : ℕ) : ℕ :=
  if idx = 2 ∨ idx = 6 ∨ idx = 7 ∨ idx = 12 ∨ idx = 15 ∨ idx = 16 ∨ idx = 17 then 1
  else if idx = 5 ∨ idx = 11 ∨ idx = 18 then 3
  else if idx = 13 ∨ idx = 14 then 4
  else 2

namespace Effect
variable {H : Type} (w : World H)

def skip : Effect H := ⟨none, w, false, false⟩
def write (v : LuaValue) : Effect H := ⟨some v, w, false, false⟩
/-- Leave without recording a value. -/
def exit : Effect H := ⟨none, w, true, false⟩
/-- A guarded value: it is recorded also when the guard fails. -/
def check (v : LuaValue) (ok : Bool) : Effect H := ⟨some v, w, !ok, false⟩
def guard (cond : Bool) : Effect H := ⟨none, w, !cond, false⟩

end Effect

namespace World
variable {H : Type} (w : World H)

def setTable (a : ℕ) (t : LuaTable) : World H := { w with tables := Function.update w.tables a (some t) }

/-- The table that a value denotes; a non-table panics. -/
def table (v : LuaValue) : Option (ℕ × LuaTable) := do
  let a ← v.asTable
  let t ← w.tables a
  pure (a, t)

/-- Allocation at an address that must be unused. -/
def alloc (a : ℕ) (t : LuaTable) : Option (World H) :=
  if (w.tables a).isNone then some (w.setTable a t) else none

end World

/-- The key of an array access: an exact `i32` value. -/
def arrayIndex (kv : LuaValue) : Option ℤ := kv.f64.asInt32Exact

/-- `jit_tget`, the dispatch of a raw table read. -/
def tget (hash : LuaValue → UInt32) (t : LuaTable) (k : LuaValue) : Option LuaValue :=
  Except.toOption <|
    if k.isString then t.getStr hash k
    else match k.asInt32Exact with
      | some ki => if 0 ≤ ki then t.getInt hash ki else t.get hash k
      | none => t.get hash k

/-- `jit_tset`, the dispatch of a raw table write. -/
def tset (hash : LuaValue → UInt32) (t : LuaTable) (k v : LuaValue) : Option LuaTable :=
  Except.toOption <|
    if k.isString then t.setStr hash k v
    else match k.asInt32Exact with
      | some ki => if 0 ≤ ki then t.setInt hash ki v else t.set hash k v
      | none => t.set hash k v

/-- `LuaTable::dup` of a template: nested tables are dropped, and so is the metatable. -/
def dup (t : LuaTable) : LuaTable :=
  let clear (v : LuaValue) : LuaValue := if v.isTable then .nil else v
  { t with
    array := t.array.map clear
    node := if 0 < t.hmask then t.node.map fun nd => { nd with val := clear nd.val } else []
    nomm := 0, metatable := none }

def metaValue (t : LuaTable) : LuaValue :=
  match t.metatable with
  | some m => .tab m
  | none => .nil

section Eval
variable {H : Type} (R : Runtime H) (buf : IrBuf) (m : Machine H)

/-- `read_ref`: the slot of an instruction, or a constant. -/
def readRef (env : ℕ → LuaValue) (r : ℕ) : Option LuaValue :=
  if REF_BIAS ≤ r then some (env r) else buf.constBits r

/-- The operands of the `CARG` at `r`, as asserted at each of its uses. -/
def carg (r : ℕ) : Option (ℕ × ℕ) := do
  let ins ← buf.ir r
  if ins.op = .carg then some (ins.op1, ins.op2) else none

/-- The arguments of a helper call, taken from a chain of `CARG`s. -/
def callArgs (idx : ℕ) (op1 : ℕ) : Option (List LuaValue) := do
  let rd := readRef buf m.env
  if ircallArity idx = 1 then pure [← rd op1]
  else
    let j ← carg buf op1
    if ircallArity idx = 2 then pure [← rd j.1, ← rd j.2]
    else
      let i ← carg buf j.1
      if ircallArity idx = 3 then pure [← rd i.1, ← rd i.2, ← rd j.2]
      else
        let h ← carg buf i.1
        pure [← rd h.1, ← rd h.2, ← rd i.2, ← rd j.2]

/-- Array-part load: the key must be an exact integer inside the array. -/
def evalAload (tv kv : LuaValue) (t : IRTy) : Option (Effect H) := do
  let (_, tab) ← m.world.table tv
  match arrayIndex kv with
  | some ki =>
    if 0 ≤ ki ∧ ki.toNat < tab.asize then
      let v ← tab.array[ki.toNat]?
      pure (.check m.world v (typecheck v t))
    else pure (.exit m.world)
  | none => pure (.exit m.world)

/-- Array-part store through the `CARG` of key and value. -/
def evalAstore (tv kv v : LuaValue) : Option (Effect H) := do
  let (a, tab) ← m.world.table tv
  match arrayIndex kv with
  | some ki =>
    if 0 < ki ∧ ki.toNat < tab.asize then
      let tab ← (tab.setArray ki.toNat v).toOption
      pure (.skip (m.world.setTable a tab))
    else pure (.exit m.world)
  | none => pure (.exit m.world)

/-- A load from the metatable field: its value, or the check that there is none. -/
def evalFload (tv : LuaValue) (t : IRTy) : Option (Effect H) := do
  let (_, tab) ← m.world.table tv
  if t = .tab then pure (.check m.world (metaValue tab) (typecheck (metaValue tab) t))
  else pure (.guard m.world tab.metatable.isNone)

/-- A store to the metatable field; operand 0 stands for nil. -/
def evalFstore (tv : LuaValue) (mv : Option LuaValue) : Option (Effect H) := do
  let (a, tab) ← m.world.table tv
  match mv with
  | none => pure (.skip (m.world.setTable a { tab with metatable := none }))
  | some v => do
    let b ← v.asTable
    pure (.skip (m.world.setTable a { tab with metatable := some b }))

def evalHload (tv kv : LuaValue) (ins : IRIns) : Option (Effect H) := do
  let (_, tab) ← m.world.table tv
  let v ← tget R.hash tab kv
  pure (.check m.world v (!ins.isGuard || typecheck v ins.t.ty))

def evalHstore (tv kv v : LuaValue) : Option (Effect H) := do
  let (a, tab) ← m.world.table tv
  let tab ← tset R.hash tab kv v
  pure (.skip (m.world.setTable a tab))

/-- The buffer instructions keep their marker in the slot. -/
def evalBuf (start : Bool) (v : LuaValue) : Effect H :=
  let w := m.world
  if start && v = LuaValue.BUF_MARK then .write w LuaValue.BUF_MARK
  else if v.isString || v.isNumber then
    .write { w with rest := if start then R.bufStart v w.rest else R.bufAppend v w.rest } LuaValue.BUF_MARK
  else .exit w

/-- Arithmetic on numbers or, for an integer type, on the truncated operands. -/
def evalArith (x y : LuaValue) (ins : IRIns) : Option LuaValue :=
  if ins.t.ty = .int then do
    let z ← kfoldIntop x.f64.asInt32 y.f64.asInt32 ins.op
    pure (.num (.ofInt32 z))
  else some (.num (foldNumarith R.pow x.f64 y.f64 ins.op))

/-- The ordered comparisons. -/
def evalComp (x y : LuaValue) (ins : IRIns) : Option Bool :=
  match ins.t.ty with
  | .num => foldNumcmp x.f64 y.f64 ins.op
  | .int => some (intCmp x.f64.asInt32 y.f64.asInt32 ins.op)
  | _ => none

/-- Equality: on numbers as IEEE, otherwise by identity of the words. -/
def evalEq (x y : LuaValue) (t : IRTy) : Bool := if t = .num then x.f64.feq y.f64 else x = y

/-- Number and integer conversions; only the guarded one to an integer can fail. -/
def evalConv (src : LuaValue) (ins : IRIns) : Effect H :=
  -- The target type is the literal operand.
  if ins.op2 % 32 = 14 then .write m.world src
  else if ins.op2 % 32 = 19 ∧ ins.isGuard then
    if (F64.ofInt src.f64.asI32).feq src.f64 then .write m.world (.num (.ofInt src.f64.asI32))
    else .exit m.world
  else .write m.world (.num (.ofInt src.f64.asI32))

/-- `FPMATH` by its literal; other literals are unreachable. -/
def fpmath (x : F64) : ℕ → Option F64
  | 0 => some x.floor
  | 1 => some x.ceil
  | 2 => some x.truncate
  | 3 => some x.sqrt
  | _ => none

/-- The arms of `run_ir`; an opcode without an arm is unreachable. -/
def evalIns (ins : IRIns) : Option (Effect H) := do
  let w := m.world
  let rd := readRef buf m.env
  match ins.op with
  | .nop | .base | .loop | .phi | .carg => pure (.skip w)
  | .sload =>
    let v := w.stack (m.cbase + ins.op1 - 2)
    pure (.check w v (!ins.isGuard || typecheck v ins.t.ty))
  | .uload =>
    let v := R.upval w.rest (← buf.constBits ins.op1)
    pure (.check w v (!ins.isGuard || typecheck v ins.t.ty))
  | .fload => evalFload m (← rd ins.op1) ins.t.ty
  | .hload => evalHload R m (← rd ins.op1) (← rd ins.op2) ins
  | .aload => evalAload m (← rd ins.op1) (← rd ins.op2) ins.t.ty
  | .astore =>
    let kv ← carg buf ins.op2
    evalAstore m (← rd ins.op1) (← rd kv.1) (← rd kv.2)
  | .fstore =>
    if ins.op2 = 0 then evalFstore m (← rd ins.op1) none
    else evalFstore m (← rd ins.op1) (some (← rd ins.op2))
  | .hstore =>
    let kv ← carg buf ins.op2
    evalHstore R m (← rd ins.op1) (← rd kv.1) (← rd kv.2)
  | .bufhdr => pure (evalBuf R m true (← rd ins.op1))
  | .bufput => pure (evalBuf R m false (← rd ins.op2))
  | .bufstr =>
    let (rest, v) := R.bufStr w.rest
    pure (.write { w with rest := rest } v)
  | .gcstep => pure ⟨none, w, R.shouldCollect w, true⟩
  | .tnew =>
    let t ← (LuaTable.new 0 0).toOption
    let w ← w.alloc (R.fresh m.clock) t
    pure (.write w (.tab (R.fresh m.clock)))
  | .tdup =>
    -- The operand is the raw address of the template.
    let t ← w.tables (← rd ins.op1).toBits
    let w ← w.alloc (R.fresh m.clock) (dup t)
    pure (.write w (.tab (R.fresh m.clock)))
  | .cnew =>
    let (rest, v) := R.cnew (← rd ins.op1) (← rd ins.op2) w.rest
    pure (.write { w with rest := rest } v)
  | .calll =>
    let (rest, v) := R.call ins.op2 (← callArgs buf m ins.op2 ins.op1) w
    pure (.check { w with rest := rest } v (!ins.isGuard || typecheck v ins.t.ty))
  | .tobit => pure (.write w (.num (.ofInt32 (← rd ins.op1).f64.num2bit)))
  | .bswap => pure (.write w (.num (.ofInt32 (swapBytes (← rd ins.op1).f64.asInt32))))
  | .bnot => pure (.write w (.num (bitop (← rd ins.op1).f64.asInt32 .zero .bnot)))
  | .band | .bor | .bxor | .bshl | .bshr | .bsar | .brol | .bror =>
    pure (.write w (.num (bitop (← rd ins.op1).f64.asInt32 (← rd ins.op2).f64 ins.op)))
  | .add | .sub | .mul | .div | .pow | .min | .max | .mod =>
    pure (.write w (← evalArith R (← rd ins.op1) (← rd ins.op2) ins))
  | .neg => pure (.write w (.num (← rd ins.op1).f64.neg))
  | .abs => pure (.write w (.num (← rd ins.op1).f64.abs))
  | .fpmath => pure (.write w (.num (← fpmath (← rd ins.op1).f64 ins.op2)))
  | .lt | .ge | .le | .gt | .ult | .uge | .ule | .ugt =>
    pure (.guard w (← evalComp (← rd ins.op1) (← rd ins.op2) ins))
  | .eq => pure (.guard w (evalEq (← rd ins.op1) (← rd ins.op2) ins.t.ty))
  | .ne => pure (.guard w !(evalEq (← rd ins.op1) (← rd ins.op2) ins.t.ty))
  | .conv => pure (evalConv m (← rd ins.op1) ins)
  | _ => none

/-- The state after an effect; a value goes to the slot of the instruction itself. -/
def commit (e : Effect H) : Machine H :=
  { m with
    env := match e.val with
      | some v => Function.update m.env m.r v
      | none => m.env
    world := e.world, r := m.r + 1, clock := m.clock + 1 }

end Eval

theorem readRef_congr {b b' : IrBuf} (hk : ∀ r, b'.constBits r = b.constBits r) : readRef b' = readRef b := by
  funext env r
  simp only [readRef, hk]

/-- The executor looks at a buffer only through its constants and its `CARG`s. -/
theorem evalIns_congr {H : Type} (R : Runtime H) {b b' : IrBuf} (hk : ∀ r, b'.constBits r = b.constBits r)
    (hc : ∀ r, carg b' r = carg b r) (m : Machine H) (ins : IRIns) : evalIns R b' m ins = evalIns R b m ins := by
  have hread := readRef_congr hk
  have hargs : callArgs b' m = callArgs b m := by
    funext idx op1
    simp only [callArgs, hread, hc]
  simp only [evalIns, hread, hargs, hc, hk]

end Ir
end LuajitRs
