import LuajitRs.Jit.Record.Replay
import LuajitRs.Vm.Index
import LuajitRs.Runtime.Table.Refinement

/-! Recording `TGET` and `TSET`. What the recorder saw at recording time chooses the guards and the access that it
emits; a later run of the trace executes them over another heap. The frame that an inlined metamethod runs in is
not modelled, only which function is called and with which arguments. -/
namespace LuajitRs.Ir
open Vm

abbrev IRFL_TAB_META : ℕ := 0

/-- What the recorded instruction does behind its guards. -/
inductive Recorded
  | value (tr : TRef)
  | stored
  | call (mm : LuaValue) (args : List TRef)

/-! ### Guards -/

namespace IrBuf

/-- Guard `tab.metatable == nil`. -/
def metaGuard (b : IrBuf) (tab : TRef) : IrBuf := (b.emitIns (.new .fload (guarded .nil) tab.ref IRFL_TAB_META)).1

/-- Guard that the metatable is the recorded one; its reference is needed for the guards behind. -/
def pinMeta (b : IrBuf) (tab : TRef) (mt : ℕ) : IrBuf × ℕ :=
  let (b, mtLoad) := b.emitIns (.new .fload (guarded .tab) tab.ref IRFL_TAB_META)
  let (b, mtConst) := b.kgc (.tab mt) .tab
  ((b.emitEq .tab mtLoad mtConst).1, mtLoad)

/-- Guard that a field of the metatable is the recorded metamethod. -/
def pinMethod (b : IrBuf) (mtLoad : ℕ) (name mm : LuaValue) : IrBuf :=
  let (b, key) := b.kgc name .str
  let (b, mmLoad) := b.emitIns (.new .hload (guarded .func) mtLoad key)
  let (b, mmConst) := b.kgc mm .func
  (b.emitEq .func mmLoad mmConst).1

/-- `rec_gcstep`: one check of the collector's debt in a trace. -/
def recGcstep (b : IrBuf) (total threshold : UInt64) : IrBuf :=
  if b.chain .gcstep ≠ 0 then b
  else
    let (b, ktotal) := b.kint64 total
    let (b, kthres) := b.kint64 threshold
    (b.emitIns (.new .gcstep (guarded .nil) ktotal kthres)).1

end IrBuf

/-! ### The recorder -/

/-- What a recorder works with: the global state, whether it can inline the call of a metamethod, and the
addresses of the collector's counters. -/
structure Recorder where
  g : Globals
  inlines : LuaValue → Bool
  total : UInt64
  threshold : UInt64

/-- An integer key inside the array part, and at least `lo`. -/
def inArray (t : LuaTable) (key : TRef) (keyv : LuaValue) (lo : ℤ) : Bool :=
  key.ty = .num && keyv.asInt32Exact.any fun ki => decide (lo ≤ ki ∧ ki.toNat < t.asize)

/-- The load at the end of `rec_tget`, specialised to the type of the value `v`. -/
def recLoad (b : IrBuf) (t : LuaTable) (tab key : TRef) (keyv v : LuaValue) : IrBuf × Recorded :=
  let ty := valueIrt v
  let op := if inArray t key keyv 0 then .aload else .hload
  let (b, r) := b.emitIns (.new op (guarded ty) tab.ref key.ref)
  (b, .value (if irtIspri ty then trefPri ty else ⟨r, ty⟩))

/-- The store at the end of `rec_tset`. -/
def Recorder.recStore (R : Recorder) (b : IrBuf) (t : LuaTable) (tab key val : TRef) (keyv : LuaValue) :
    IrBuf × Recorded :=
  let b := b.recGcstep R.total R.threshold
  let (b, carg) := b.emitIns (.new .carg (plain .nil) key.ref val.ref)
  let op := if inArray t key keyv 1 then .astore else .hstore
  ((b.emitIns (.new op (plain .nil) tab.ref carg)).1, .stored)

/-- The end of the guards of an inlined metamethod call: slot `a` becomes the metamethod. -/
def recCall (b : IrBuf) (mm : LuaValue) (args : List TRef) : IrBuf × Recorded := ((b.kgc mm .func).1, .call mm args)

section
variable (R : Recorder) (w : World Bool) (b : IrBuf) (tabv : LuaValue) (tab : TRef) (keyv : LuaValue) (key : TRef)

/-- `rec_tget`; recording is aborted with `none`. -/
def recTget (inlineMm : Bool) : Option (IrBuf × Recorded) :=
  if tab.ty ≠ .tab then none
  else do
    let a ← tabv.asTable
    let t ← w.tables a
    let v ← tget R.g.hash t keyv
    if v.isNil then
      match t.metatable with
      | some mt => do
        let m ← w.tables mt
        match ← (m.getStr R.g.hash (R.g.mmname .index)).toOption with
        | .tab d => do
          let (b, _) := b.pinMeta tab mt
          let (b, delegated) := b.kgc (.tab d) .tab
          let t ← w.tables d
          let v ← tget R.g.hash t keyv
          some (recLoad b t ⟨delegated, .tab⟩ key keyv v)
        | .func f =>
          if inlineMm && R.inlines (.func f) then
            let (b, mtLoad) := b.pinMeta tab mt
            some (recCall (b.pinMethod mtLoad (R.g.mmname .index) (.func f)) (.func f) [tab, key])
          else none
        | _ => none
      | none => some (recLoad (b.metaGuard tab) t tab key keyv v)
    else some (recLoad b t tab key keyv v)

/-- `rec_tset`. -/
def recTset (val : TRef) (inlineMm : Bool) : Option (IrBuf × Recorded) :=
  if tab.ty ≠ .tab then none
  else do
    let a ← tabv.asTable
    let t ← w.tables a
    if keyv.isNil then none
    else match t.metatable with
      | none => some (R.recStore (b.metaGuard tab) t tab key val keyv)
      | some mt => do
        let m ← w.tables mt
        let mm ← (m.getStr R.g.hash (R.g.mmname .newindex)).toOption
        if mm.isNil then some (R.recStore b t tab key val keyv)
        else if !inlineMm then none
        else do
          let v ← tget R.g.hash t keyv
          -- The guard is the same whether the key is absent or not.
          let (b, _) := b.emitIns (.new .hload (guarded .nil) tab.ref key.ref)
          if !v.isNil then some (R.recStore b t tab key val keyv)
          else match mm with
            | .func f =>
              if R.inlines (.func f) then
                let (b, mtLoad) := b.pinMeta tab mt
                some (recCall (b.pinMethod mtLoad (R.g.mmname .newindex) (.func f)) (.func f) [tab, key, val])
              else none
            | _ => none

end

/-! ### Later runs -/

/-- The runtime of the emitted instructions; the world tells whether a collection is due. -/
def indexRuntime (hash : LuaValue → UInt32) : Runtime Bool where
  hash := hash
  pow x _ := x
  upval _ v := v
  call _ _ w := (w.rest, .nil)
  cnew _ _ h := (h, .nil)
  bufStart _ h := h
  bufAppend _ h := h
  bufStr h := (h, .nil)
  shouldCollect w := w.rest
  fresh n := n

/-- The emitted instructions in order, until one leaves the trace. -/
abbrev runList (hash : LuaValue → UInt32) (b : IrBuf) : List IRIns → Machine Bool → Option (Option (Machine Bool)) :=
  runIns (indexRuntime hash) b

def Recorded.outcome (b : IrBuf) (m : Machine Bool) : Recorded → Option (Access × World Bool)
  | value tr => do
    let v ← readRef b m.env tr.ref
    some (.value v, m.world)
  | stored => some (.stored, m.world)
  | call mm args => do
    let vs ← args.mapM fun tr => readRef b m.env tr.ref
    some (.call mm vs, m.world)

/-- What the instructions that `c` has more than `b` do: leave the trace with `some none`, or the access. -/
def replay (hash : LuaValue → UInt32) (b c : IrBuf) (r : Recorded) (m : Machine Bool) :
    Option (Option (Access × World Bool)) := do
  match ← runList hash c (c.ins.drop b.ins.length) m with
  | none => some none
  | some m => (r.outcome c m).map some

/-- The tables as the runtime keeps them, with negative caches that are right. -/
structure HeapOk (g : Globals) (w : World Bool) : Prop where
  chained : ∀ a t, w.tables a = some t → t.Chained g.hash
  coherent : ∀ a t, w.tables a = some t → ∀ mm : Vm.MM, t.nomm.testBit mm.bit = true → t.value (g.mmname mm) = .nil
  closed : ∀ a t b, w.tables a = some t → t.metatable = some b → (w.tables b).isSome

/-- The tagged reference denotes the value. -/
structure Denotes (b : IrBuf) (env : ℕ → LuaValue) (tr : TRef) (v : LuaValue) : Prop where
  reads : readRef b env tr.ref = some v
  typed : tr.ty = valueIrt v
  emitted : REF_BIAS ≤ tr.ref → ∃ ins, b.ir tr.ref = some ins ∧ ins.t.ty = tr.ty

/-- In every later heap, with whatever table, key and value the operands denote there: the trace is left, or the
recorded access is that of the interpreter. -/
def SoundGet (g : Globals) (b : IrBuf) (tab key : TRef) (c : IrBuf) (r : Recorded) : Prop :=
  ∀ (m : Machine Bool) (a : ℕ) (k : LuaValue), m.r = b.nins → HeapOk g m.world → (m.world.tables a).isSome →
    Denotes b m.env tab (.tab a) → Denotes b m.env key k →
    replay g.hash b c r m = some none ∨ replay g.hash b c r m = (tgetIns g m.world (.tab a) k).map some

def SoundSet (g : Globals) (b : IrBuf) (tab key val : TRef) (c : IrBuf) (r : Recorded) : Prop :=
  ∀ (m : Machine Bool) (a : ℕ) (k v : LuaValue), m.r = b.nins → HeapOk g m.world → (m.world.tables a).isSome →
    Denotes b m.env tab (.tab a) → Denotes b m.env key k → Denotes b m.env val v →
    replay g.hash b c r m = some none ∨ replay g.hash b c r m = (tsetIns g m.world (.tab a) k v).map some

end LuajitRs.Ir
