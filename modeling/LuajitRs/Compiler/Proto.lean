import LuajitRs.Ffi.CType
import LuajitRs.Runtime.Table.Refinement

/-! Function prototypes, the output of the bytecode compiler, as trees: a prototype lists its
collectable constants, and a child prototype is one of them. -/
namespace LuajitRs

/-- A function prototype over the type of its collectable constants. -/
structure ProtoOf (K : Type) where
  /-- Bytecode. -/
  bc : List UInt32
  /-- Absolute source line per instruction. -/
  lines : List UInt32
  kgc : List K
  /-- Number constants. -/
  kn : List F64
  /-- String constants resolved to values, rebuilt from `kgc` on registration. -/
  kstrv : List LuaValue
  /-- Upvalue references. -/
  uv : List UInt16
  /-- Upvalue names for debug info and listings. -/
  uvnames : List String
  /-- Local variables: register slot, start and end of the scope, name. -/
  varnames : List (UInt8 × UInt32 × UInt32 × String)
  flags : UInt16
  numparams : UInt8
  framesize : UInt8
  firstline : UInt32
  numline : UInt32
  /-- Chunk name. -/
  source : Option (List UInt8)

/-- A collectable constant. An interned string is given by its bytes, and a child or template
that was registered in the heap by what its pointer refers to. -/
inductive KGc
  | str (s : List UInt8)
  | proto (p : ProtoOf KGc)
  | table (t : LuaTable)
  | cdata (c : CData)

abbrev Proto := ProtoOf KGc

/-! ### Agreement -/

/-- Everything but the constants that a running or failing program reads of a prototype. -/
structure ProtoOf.SameCode {K : Type} (p q : ProtoOf K) : Prop where
  bc : p.bc = q.bc
  lines : p.lines = q.lines
  kn : p.kn = q.kn
  uv : p.uv = q.uv
  uvnames : p.uvnames = q.uvnames
  varnames : p.varnames = q.varnames
  flags : p.flags = q.flags
  numparams : p.numparams = q.numparams
  framesize : p.framesize = q.framesize
  firstline : p.firstline = q.firstline
  numline : p.numline = q.numline
  source : p.source = q.source

mutual

/-- Equal constants; table templates are compared by what they store. -/
def KGc.Agrees : KGc → KGc → Prop
  | .str s, .str s' => s = s'
  | .proto p, .proto q => Proto.Agrees p q
  | .table t, .table u => ∀ k : NormalKey, t.value k.1 = u.value k.1
  | .cdata c, .cdata d => c = d
  | _, _ => False

/-- Two prototype trees that no program can tell apart. -/
def Proto.Agrees : Proto → Proto → Prop
  | ⟨bc, lines, kgc, kn, kstrv, uv, uvnames, varnames, flags, np, fs, fl, nl, source⟩, q =>
    ProtoOf.SameCode ⟨bc, lines, kgc, kn, kstrv, uv, uvnames, varnames, flags, np, fs, fl, nl, source⟩ q ∧
      agreeAll kgc q.kgc

def agreeAll : List KGc → List KGc → Prop
  | [], [] => True
  | k :: ks, l :: ls => KGc.Agrees k l ∧ agreeAll ks ls
  | _, _ => False

end

theorem Proto.agrees_iff {p q : Proto} :
    Proto.Agrees p q ↔ p.SameCode q ∧ List.Forall₂ KGc.Agrees p.kgc q.kgc := by
  have hall : ∀ ks ls, agreeAll ks ls ↔ List.Forall₂ KGc.Agrees ks ls := by
    intro ks
    induction ks with
    | nil => intro ls; cases ls <;> simp [agreeAll]
    | cons k ks ih => intro ls; cases ls <;> simp [agreeAll, ih]
  cases p
  rw [Proto.Agrees, hall]

end LuajitRs
