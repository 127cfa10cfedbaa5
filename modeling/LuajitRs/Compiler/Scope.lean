import LuajitRs.Lib.Backlink
import LuajitRs.Lib.Ensures
import LuajitRs.Runtime.Value
import Mathlib.Logic.Function.Basic

/-! The variables of the parser: the stack of declared variables with a hash chain through the active ones, the active
variables and the upvalues of each function that is being compiled, and how a name is resolved. The limits that are
checked keep every index below the width of its field. -/
namespace LuajitRs.Scope
open Lib

def LJ_MAX_LOCVAR : ℕ := 200
def LJ_MAX_UPVAL : ℕ := 60
def LJ_MAX_VSTACK : ℕ := 65536 - LJ_MAX_UPVAL

/-- Bits of `VarInfo.info`: the variable is assigned to, and the kinds of entries that are no variables. -/
def VSTACK_VAR_RW : ℕ := 0
def VSTACK_GOTO : ℕ := 1
def VSTACK_LABEL : ℕ := 2
def VSTACK_CONST : ℕ := 3

inductive VName
  | none
  | break
  | cont
  | fixed (n : ℕ)
  | str (sid : ℕ)
  deriving DecidableEq, Repr

structure VarInfo where
  name : VName
  startpc : ℕ
  endpc : ℕ
  slot : ℕ
  info : ℕ
  prev : Option ℕ
  deriving DecidableEq, Repr

def VarInfo.new (name : VName) : VarInfo := ⟨name, 0, 0, 0, 0, none⟩

/-- An entry for a goto or a label. -/
def VarInfo.isGola (v : VarInfo) : Bool := v.info.testBit VSTACK_GOTO || v.info.testBit VSTACK_LABEL

/-- A block: how many variables are active outside of it, and whether one of its own is captured. -/
structure FuncScope where
  nactvar : ℕ
  upval : Bool
  deriving DecidableEq, Repr

/-- An upvalue of a function: the variable, `uvmap`, and where its value comes from when a closure is created, `uvtmp`:
a variable of the enclosing function, or from `LJ_MAX_VSTACK` on an upvalue of that function. -/
structure Upvalue where
  vidx : ℕ
  tmp : ℕ
  deriving DecidableEq, Repr

structure FuncState where
  pc : ℕ
  nactvar : ℕ
  linedefined : ℕ
  vbase : ℕ
  varmap : ℕ → ℕ
  uvs : List Upvalue
  scopes : List FuncScope
  pendStart : ℕ
  /-- The upvalues of the functions in it that are finished. -/
  children : List (List Upvalue)

def FuncState.new (vbase : ℕ) : FuncState := ⟨0, 0, 0, vbase, fun _ => 0, [], [], 0, []⟩

/-- The `n`-th variable behind the active ones is `vidx`. -/
def FuncState.mapVar (f : FuncState) (n vidx : ℕ) : FuncState :=
  { f with varmap := Function.update f.varmap (f.nactvar + n) vidx }

/-- The functions that are being compiled come with the innermost one first. -/
structure Parser where
  vstack : List VarInfo
  vhash : ℕ → Option ℕ
  fs : List FuncState

inductive ScopeError
  | redeclareConstant (sid : ℕ)
  | tooManyLocals (line : ℕ)
  | tooManyLevels
  | tooManyUpvalues (line : ℕ)
  deriving DecidableEq, Repr

inductive Stop
  | fault (f : Fault)
  | error (e : ScopeError)
  deriving DecidableEq, Repr

def varHash : VName → Option ℕ
  | .str sid => some (sid % 32)
  | _ => none

/-- The first variable of a hash chain that passes a test. -/
def chainFind (vs : List VarInfo) (test : VarInfo → Bool) : ℕ → Option ℕ → Except Stop (Option ℕ)
  | _, none => .ok none
  | 0, some _ => .error (.fault .diverge)
  | fuel+1, some i =>
    match vs[i]? with
    | none => .error (.fault .outOfBounds)
    | some v => if test v then .ok (some i) else chainFind vs test fuel v.prev

/-- The function that is being compiled. -/
def cur (p : Parser) : Except Stop (FuncState × List FuncState) :=
  match p.fs with
  | [] => .error (.fault .outOfBounds)
  | f :: rest => .ok (f, rest)

/-! ### Declaring -/

/-- Declare the `n`-th variable behind the active ones. -/
def varNew (n : ℕ) (name : VName) (p : Parser) : Except Stop (ℕ × Parser) := do
  let (f, rest) ← cur p
  let vtop := p.vstack.length
  if let .str sid := name then
    let isConst (v : VarInfo) : Bool := v.name = name && v.info.testBit VSTACK_CONST
    if (← chainFind p.vstack isConst (vtop + 1) (p.vhash (sid % 32))).isSome then
      throw (.error (.redeclareConstant sid))
  if LJ_MAX_LOCVAR ≤ f.nactvar + n then .error (.error (.tooManyLocals f.linedefined))
  else if LJ_MAX_VSTACK ≤ vtop then .error (.error .tooManyLevels)
  else pure (vtop, { p with vstack := p.vstack ++ [VarInfo.new name], fs := f.mapVar n vtop :: rest })

/-- Activate the next variable: it gets the next slot and heads its hash chain. -/
def varAddOne (p : Parser) : Except Stop Parser := do
  let (f, rest) ← cur p
  let vidx := f.varmap f.nactvar
  match p.vstack[vidx]? with
  | none => .error (.fault .outOfBounds)
  | some v =>
    let v := { v with startpc := f.pc, slot := f.nactvar }
    let fs := { f with nactvar := f.nactvar + 1 } :: rest
    match varHash v.name with
    | some h => pure ⟨p.vstack.set vidx { v with prev := p.vhash h }, Function.update p.vhash h (some vidx), fs⟩
    | none => pure ⟨p.vstack.set vidx v, p.vhash, fs⟩

def varAdd : ℕ → Parser → Except Stop Parser
  | 0, p => pure p
  | nvars+1, p => do
    let p ← varAddOne p
    varAdd nvars p

/-- Deactivate the last variable. -/
def varRemoveOne (p : Parser) : Except Stop Parser := do
  let (f, rest) ← cur p
  let nactvar := f.nactvar - 1
  let vidx := f.varmap nactvar
  match p.vstack[vidx]? with
  | none => .error (.fault .outOfBounds)
  | some v =>
    let vstack := p.vstack.set vidx { v with endpc := f.pc }
    let fs := { f with nactvar := nactvar } :: rest
    match varHash v.name with
    | some h => pure ⟨vstack, Function.update p.vhash h v.prev, fs⟩
    | none => pure ⟨vstack, p.vhash, fs⟩

/-- Deactivate `n` variables. -/
def varRemoveTimes : ℕ → Parser → Except Stop Parser
  | 0, p => pure p
  | n+1, p => do
    let p ← varRemoveOne p
    varRemoveTimes n p

def varRemove (tolevel : ℕ) (p : Parser) : Except Stop Parser := do
  let (f, _) ← cur p
  varRemoveTimes (f.nactvar - tolevel) p

/-! ### Resolving -/

/-- What a name stands for. -/
inductive Target
  | local (slot vidx : ℕ)
  | upval (idx vidx : ℕ)
  | global (sid : ℕ)
  deriving DecidableEq, Repr

def findUpval (uvs : List Upvalue) (vidx : ℕ) : Option ℕ := uvs.findIdx? (·.vidx = vidx)

/-- The innermost block that is open where a slot is declared. -/
def uvmark (level : ℕ) : List FuncScope → List FuncScope
  | [] => []
  | bl :: scopes => if bl.nactvar ≤ level then { bl with upval := true } :: scopes else bl :: uvmark level scopes

/-- `fscope_uvmark`. -/
def FuncState.fscopeUvmark (f : FuncState) (level : ℕ) : FuncState := { f with scopes := uvmark level f.scopes }

def FuncState.pushUv (f : FuncState) (vidx tmp : ℕ) : FuncState := { f with uvs := f.uvs ++ [⟨vidx, tmp⟩] }

/-- Hand a variable down from the function that declares it, as an upvalue of every function on the way. -/
def addUpval (vidx slot : ℕ) : List FuncState → Except Stop (List FuncState)
  | f :: g :: rest =>
    if LJ_MAX_UPVAL ≤ f.uvs.length then .error (.error (.tooManyUpvalues f.linedefined))
    else if g.vbase ≤ vidx then .ok (f.pushUv vidx vidx :: g.fscopeUvmark slot :: rest)
    else
      match findUpval g.uvs vidx with
      | some uvidx => .ok (f.pushUv vidx (LJ_MAX_VSTACK + uvidx) :: g :: rest)
      | none => do
        let fs ← addUpval vidx slot (g :: rest)
        pure (f.pushUv vidx (LJ_MAX_VSTACK + g.uvs.length) :: fs)
  | _ => .error (.fault .outOfBounds)

def varResolve (vidx slot : ℕ) (p : Parser) : Except Stop (Target × Parser) := do
  let (f, _) ← cur p
  if f.vbase ≤ vidx then pure (.local slot vidx, p)
  else
    match findUpval f.uvs vidx with
    | some uvidx => pure (.upval uvidx vidx, p)
    | none => do
      let fs ← addUpval vidx slot p.fs
      pure (.upval f.uvs.length vidx, { p with fs := fs })

/-- The last declaration of a name before `i`, down to `pendFrom`, that is not active yet. -/
def pendingFrom (vs : List VarInfo) (vbase pendFrom sid : ℕ) : ℕ → Option ℕ
  | 0 => none
  | i+1 =>
    if pendFrom < i + 1 then
      if vs[i]?.any (fun v => v.startpc = 0 && v.name = .str sid) && i < vbase then some i
      else pendingFrom vs vbase pendFrom sid i
    else none

/-- A nested function finds the variables that are about to be declared around it. -/
def lookupPending (sid : ℕ) (f : FuncState) (rest : List FuncState) (p : Parser) : Option ℕ :=
  match rest.getLast? with
  | none => none
  | some main => pendingFrom p.vstack f.vbase main.pendStart sid p.vstack.length

def varLookup (sid : ℕ) (p : Parser) : Except Stop (Target × Parser) := do
  let (f, rest) ← cur p
  match ← chainFind p.vstack (·.name = .str sid) (p.vstack.length + 1) (p.vhash (sid % 32)) with
  | some vidx => varResolve vidx ((p.vstack[vidx]?.map (·.slot)).getD 0) p
  | none =>
    match lookupPending sid f rest p with
    | some vidx => varResolve vidx ((p.vstack[vidx]?.map (·.slot)).getD 0) p
    | none => pure (.global sid, p)

/-! ### Declarations of `local` -/

/-- The names of a `local` without attributes. They stay out of the hash chains until their initializer is parsed, and
only functions in it find them. -/
def localNames : ℕ → List VName → Parser → Except Stop Parser
  | _, [], p => pure p
  | n, name :: names, p => do
    let (f, _) ← cur p
    let (vidx, p) ← varNew n name p
    localNames (n + 1) names { p with vstack := p.vstack.modify vidx fun v => { v with slot := f.nactvar + n } }

def parseLocal (names : List VName) (p : Parser) : Except Stop Parser := do
  let (f, rest) ← cur p
  localNames 0 names { p with fs := { f with pendStart := p.vstack.length } :: rest }

/-- The names of a `const`, which are in the hash chains while they are declared. -/
def constNames (vinfo : ℕ) : ℕ → List VName → Parser → Except Stop Parser
  | _, [], p => pure p
  | n, name :: names, p => do
    let (vidx, p) ← varNew n name p
    let p :=
      match varHash name with
      | some h =>
        { p with
          vstack := p.vstack.modify vidx fun v => { v with prev := p.vhash h }
          vhash := Function.update p.vhash h (some vidx) }
      | none => p
    constNames vinfo (n + 1) names { p with vstack := p.vstack.modify vidx fun v => { v with info := vinfo } }

/-- A `local function`, up to its body: the variable is active in it. -/
def localFunction (vinfo : ℕ) (name : VName) (p : Parser) : Except Stop Parser := do
  let (vidx, p) ← varNew 0 name p
  varAdd 1 { p with vstack := p.vstack.modify vidx fun v => { v with info := vinfo } }

def parseConst (vinfo : ℕ) (names : List VName) (p : Parser) : Except Stop Parser := do
  let q ← constNames vinfo 0 names p
  pure { q with vhash := p.vhash }

/-! ### Gotos, blocks and functions -/

/-- Push an entry for a goto or a label. -/
def golaNew (name : VName) (info pc : ℕ) (p : Parser) : Except Stop (ℕ × Parser) := do
  let (f, _) ← cur p
  if LJ_MAX_VSTACK ≤ p.vstack.length then .error (.error .tooManyLevels)
  else pure (p.vstack.length, { p with vstack := p.vstack ++ [⟨name, pc, 0, f.nactvar, info, none⟩] })

def fscopeBegin (p : Parser) : Except Stop Parser := do
  let (f, rest) ← cur p
  pure { p with fs := { f with scopes := ⟨f.nactvar, false⟩ :: f.scopes } :: rest }

/-- The variables of the innermost block become inactive. The result says whether code is emitted that closes its
captured variables. -/
def fscopeEnd (p : Parser) : Except Stop (Bool × Parser) := do
  let (f, rest) ← cur p
  match f.scopes with
  | [] => .error (.fault .outOfBounds)
  | bl :: scopes => do
    let p ← varRemove bl.nactvar { p with fs := { f with scopes := scopes } :: rest }
    pure (bl.upval, p)

def fsInit (p : Parser) : Parser := { p with fs := FuncState.new p.vstack.length :: p.fs }

/-- The innermost function is finished: its variables are gone, and the enclosing function keeps its upvalues. -/
def fsFinish (p : Parser) : Except Stop Parser := do
  let (_, p) ← fscopeEnd p
  match p.fs with
  | f :: g :: rest =>
    pure { p with
      vstack := p.vstack.take f.vbase
      fs := { g with children := f.uvs :: g.children } :: rest }
  | _ => .error (.fault .outOfBounds)

def PROTO_UV_LOCAL : ℕ := 0x8000
def PROTO_UV_IMMUTABLE : ℕ := 0x4000

/-- The upvalue references of a finished function in its prototype, when the enclosing function is finished: a slot of
that function, marked and possibly immutable, or the index of one of its upvalues. -/
def protoUv (vs : List VarInfo) (uv : Upvalue) : ℕ :=
  if LJ_MAX_VSTACK ≤ uv.tmp then uv.tmp - LJ_MAX_VSTACK
  else
    let v := vs.getD uv.tmp (VarInfo.new .none)
    if v.info.testBit VSTACK_VAR_RW then v.slot ||| PROTO_UV_LOCAL
    else v.slot ||| PROTO_UV_LOCAL ||| PROTO_UV_IMMUTABLE

/-- Where the creation of a closure takes an upvalue from: a stack slot, whose upvalue may be immutable from then on, or
an upvalue of the function that creates it. -/
inductive UvSource
  | stack (slot : ℕ) (immutable : Bool)
  | inherited (idx : ℕ)
  deriving DecidableEq, Repr

def uvSource (v : ℕ) : UvSource :=
  if v &&& PROTO_UV_LOCAL ≠ 0 then .stack (v &&& 0xff) (v &&& PROTO_UV_IMMUTABLE ≠ 0) else .inherited (v &&& 0xff)

end LuajitRs.Scope
