import LuajitRs.Jit.Opt.Sink.Exec

/-! The concatenation buffer of a running trace. The slots of `BUFHDR` and `BUFPUT` hold a marker that stands for
one shared buffer; a restored slot with the marker gets the string in the buffer, which is empty afterwards. Beside
it, an execution in which the slots hold the strings themselves. -/
namespace LuajitRs.Ir

/-- The interned strings and the digits of numbers. -/
structure Strings where
  bytes : ℕ → List UInt8
  intern : List UInt8 → ℕ
  g14 : F64 → List UInt8
  bytes_intern : ∀ s, bytes (intern s) = s

namespace Strings
variable (Q : Strings)

/-- What a value contributes to a concatenation. -/
def text : LuaValue → List UInt8
  | .str a => Q.bytes a
  | .num x => Q.g14 x
  | _ => []

def str (s : List UInt8) : LuaValue := .str (Q.intern s)

@[simp] theorem text_str (s : List UInt8) : Q.text (Q.str s) = s := Q.bytes_intern s

end Strings

def isText (v : LuaValue) : Bool := v.isString || v.isNumber

/-- A runtime with `cat_buf` beside its heap. -/
abbrev Buffered (H : Type) : Type := H × List UInt8

namespace Runtime
variable {H : Type} (Q : Strings) (R : Runtime H)

def withBuffer : Runtime (Buffered H) where
  hash := R.hash
  pow := R.pow
  upval h v := R.upval h.1 v
  call idx args w :=
    let p := R.call idx args ⟨w.stack, w.tables, w.rest.1⟩
    ((p.1, w.rest.2), p.2)
  cnew x y h :=
    let p := R.cnew x y h.1
    ((p.1, h.2), p.2)
  bufStart v h := (h.1, Q.text v)
  bufAppend v h := (h.1, h.2 ++ Q.text v)
  bufStr h := ((h.1, []), Q.str h.2)
  shouldCollect w := R.shouldCollect ⟨w.stack, w.tables, w.rest.1⟩
  fresh := R.fresh

/-- The same without the buffer: a slot with nil is restored as nil. -/
def withoutBuffer : Runtime (Buffered H) :=
  { R.withBuffer Q with bufStart := fun _ h => h, bufAppend := fun _ h => h, bufStr := fun h => (h, .nil) }

end Runtime

section
variable {H : Type} (Q : Strings) (R : Runtime H) (tr : Trace)

/-- `BUFHDR` and `BUFPUT` with strings in their slots. An append goes to the slot of the `BUFHDR`, too. -/
def Trace.concatIns (m : Machine (Buffered H)) (ins : IRIns) : Option (Result (Buffered H)) :=
  if ins.op = .bufhdr then do
    let v ← readRef tr.ir m.env ins.op1
    if isText v then pure (.run (commit m (.write m.world (Q.str (Q.text v)))))
    else tr.exitSnapshot (R.withoutBuffer Q) (commit m (.exit m.world)) (tr.snapFor m.r) false
  else do
    let v ← readRef tr.ir m.env ins.op2
    let s := Q.str (Q.text (m.env ins.op1) ++ Q.text v)
    if isText v then
      pure (.run { commit m (.write m.world s) with env := Function.update (Function.update m.env m.r s) ins.op1 s })
    else tr.exitSnapshot (R.withoutBuffer Q) (commit m (.exit m.world)) (tr.snapFor m.r) false

/-- One step with strings for the buffer. -/
def Trace.concatStep (m : Machine (Buffered H)) : Option (Result (Buffered H)) :=
  match if m.r < tr.ir.nins then tr.ir.ir m.r else none with
  | some ins =>
    if ins.op = .bufhdr ∨ ins.op = .bufput then tr.concatIns Q R m ins else tr.step (R.withoutBuffer Q) m
  | none => tr.step (R.withoutBuffer Q) m

/-! ### Restored slots -/

def toRestore (es : List SnapEntry) : List SnapEntry := es.filter fun sn => !sn.norestore

/-- The words that a snapshot restores. -/
def Trace.words (env : ℕ → LuaValue) (es : List SnapEntry) : Option (List LuaValue) :=
  (toRestore es).mapM fun sn => readRef tr.ir env sn.ref

/-- What is restored for the words: the first marker gets the buffer, which is empty from then on. -/
def restoredValues : List UInt8 → List LuaValue → List LuaValue
  | _, [] => []
  | buf, v :: vs => if v = LuaValue.BUF_MARK then Q.str buf :: restoredValues [] vs else v :: restoredValues buf vs

/-- When that is right for words that stand for the values `vs'`: the first word with the marker stands for the
string in the buffer, all the others with it for the empty string. -/
def FlushExact (buf : List UInt8) (vs vs' : List LuaValue) : Prop :=
  ∀ i v, (((vs.zip vs').filter fun p => p.1 = LuaValue.BUF_MARK).map Prod.snd)[i]? = some v →
    v = Q.str (if i = 0 then buf else [])

/-! ### Clean runs -/

/-- What an instruction reads, through the `CARG`s of its operands. -/
inductive Operand (buf : IrBuf) (ins : IRIns) : ℕ → Prop
  | op1 : Operand buf ins ins.op1
  | op2 : Operand buf ins ins.op2
  | key {q : ℕ} {kv : ℕ × ℕ} (h : Operand buf ins q) (hc : carg buf q = some kv) : Operand buf ins kv.1
  | val {q : ℕ} {kv : ℕ × ℕ} (h : Operand buf ins q) (hc : carg buf q = some kv) : Operand buf ins kv.2

/-- The instruction does nothing. -/
def idle (ins : IRIns) : Bool :=
  ins.op = .nop || ins.op = .base || ins.op = .loop || ins.op = .phi || ins.op = .carg

/-- The next step does not take the marker for a value: only `BUFHDR` reads it, an append goes to a slot with the
marker, and what the end of the instructions restores is exact. The second machine has the strings. -/
def Trace.Clean (m m' : Machine (Buffered H)) : Prop :=
  if m.r < tr.ir.nins then
    ∀ ins, tr.ir.ir m.r = some ins → idle ins = false →
      if ins.op = .bufhdr then ∀ v, readRef tr.ir m'.env ins.op1 = some v → isText v = true
      else if ins.op = .bufput then
        (REF_BIAS ≤ ins.op1 ∧ m.env ins.op1 = LuaValue.BUF_MARK) ∧ (REF_BIAS ≤ ins.op2 → m.env ins.op2 = m'.env ins.op2)
      else ins.op ≠ .bufstr ∧ ∀ q, Operand tr.ir ins q → REF_BIAS ≤ q → m.env q = m'.env q
  else
    (tr.looping = true → tr.ir.chain .loop = 0) → ∀ sn es vs vs', tr.snap[tr.snap.length - 1]? = some sn → tr.entries sn = some es →
      tr.words m.env es = some vs → tr.words m'.env es = some vs' → FlushExact Q m.world.rest.2 vs vs'

/-- The second machine is the first one with strings for the markers. -/
structure Stands (m m' : Machine (Buffered H)) : Prop where
  r : m'.r = m.r
  cbase : m'.cbase = m.cbase
  clock : m'.clock = m.clock
  world : Alike (fun h h' => h'.1 = h.1) [] m.world m'.world
  env : ∀ q, m'.env q = m.env q ∨ m.env q = LuaValue.BUF_MARK ∧ ∃ a, m'.env q = .str a

/-- A run with markers beside the run with strings, as long as the steps are clean. -/
inductive Trace.Beside (m₀ : Machine (Buffered H)) : Machine (Buffered H) → Machine (Buffered H) → Prop
  | refl : Beside m₀ m₀ m₀
  | step {m m' d d' : Machine (Buffered H)} (h : Beside m₀ m m') (clean : tr.Clean Q m m')
      (run : tr.step (R.withBuffer Q) m = some (.run d)) (run' : tr.concatStep Q R m' = some (.run d')) :
      Beside m₀ d d'

/-- An exit through a snapshot that the run has passed at `c`; in an iteration of the loop, a snapshot from before
`LOOP` is passed at the loop head. The references of a snapshot are older than it, and each slot occurs once. -/
structure Trace.ExitAt (c m : Machine (Buffered H)) (exitno : ℕ) (sn : SnapShot) (es : List SnapEntry) (gc : Bool)
    (m' : Machine (Buffered H)) : Prop where
  snap : tr.snap[exitno]? = some sn
  entries : tr.entries sn = some es
  refs : ∀ e ∈ es, e.ref < sn.iref
  slots : ((toRestore es).map (·.slot)).Nodup
  cbase : 2 ≤ c.cbase
  passed : c.r = sn.iref ∨ c.r = tr.ir.chain .loop + 1 ∧ sn.iref ≤ c.r
  pass : Straight (R.withBuffer Q) tr.ir c m
  exit : tr.step (R.withBuffer Q) m = some (.exit exitno gc m')

end
end LuajitRs.Ir
