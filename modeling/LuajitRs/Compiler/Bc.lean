import Mathlib.Algebra.Group.Nat.Defs
import Mathlib.Data.Int.Notation

/-! Bytecode instructions: the opcodes in their order, the mode of operand A, and the fields of an instruction word. -/
namespace LuajitRs.Bc

/-- Bytecode opcodes. -/
inductive BCOp
  | islt | isge | isle | isgt | iseqv | isnev | iseqs | isnes | iseqn | isnen | iseqp | isnep
  | istc | isfc | ist | isf | istype | isnum
  | mov | not | unm | len
  | addvn | subvn | mulvn | divvn | modvn | addnv | subnv | mulnv | divnv | modnv
  | addvv | subvv | mulvv | divvv | modvv | pow | cat
  | kstr | kcdata | kshort | knum | kpri | knil
  | uget | usetv | usets | usetn | usetp | uclo | fnew
  | tnew | tdup | gget | gset | tgetv | tgets | tgetb | tgetr | tsetv | tsets | tsetb | tsetm | tsetr
  | callm | call | callmt | callt | iterc | itern | varg | isnext
  | retm | ret | ret0 | ret1
  | fori | jfori | forl | iforl | jforl | iterl | iiterl | jiterl | loop | iloop | jloop | jmp
  | bnot | band | bor | bxor | bshl | bshr | bsar
  | funcf | ifuncf | jfuncf | funcv | ifuncv | jfuncv | funcc | funccw
  deriving DecidableEq, Repr

/-- Operand modes, as far as operand A has them. -/
inductive BCMode
  | none | dst | base | var | rbase | uv
  deriving DecidableEq, Repr

namespace BCOp

/-- The opcodes by their numbers. -/
def all : List BCOp :=
  [islt, isge, isle, isgt, iseqv, isnev, iseqs, isnes, iseqn, isnen, iseqp, isnep, istc, isfc, ist, isf, istype, isnum,
    mov, not, unm, len, addvn, subvn, mulvn, divvn, modvn, addnv, subnv, mulnv, divnv, modnv, addvv, subvv, mulvv, divvv,
    modvv, pow, cat, kstr, kcdata, kshort, knum, kpri, knil, uget, usetv, usets, usetn, usetp, uclo, fnew, tnew, tdup,
    gget, gset, tgetv, tgets, tgetb, tgetr, tsetv, tsets, tsetb, tsetm, tsetr, callm, call, callmt, callt, iterc, itern,
    varg, isnext, retm, ret, ret0, ret1, fori, jfori, forl, iforl, jforl, iterl, iiterl, jiterl, loop, iloop, jloop,
    jmp, bnot, band, bor, bxor, bshl, bshr, bsar, funcf, ifuncf, jfuncf, funcv, ifuncv, jfuncv, funcc, funccw]

/-- `bcmode_a`. -/
def modeA : BCOp → BCMode
  | ist | isf => .none
  | islt | isge | isle | isgt | iseqv | isnev | iseqs | isnes | iseqn | isnen | iseqp | isnep | istype | isnum
  | gset | tsetv | tsets | tsetb | tsetr => .var
  | usetv | usets | usetn | usetp => .uv
  | knil | tsetm | callm | call | callmt | callt | iterc | itern | varg | isnext | retm
  | fori | jfori | forl | iforl | jforl | iterl | iiterl | jiterl => .base
  | uclo | ret | ret0 | ret1 | loop | iloop | jloop | jmp
  | funcf | ifuncf | jfuncf | funcv | ifuncv | jfuncv | funcc | funccw => .rbase
  | _ => .dst

end BCOp

abbrev BCIns := UInt32

/-- The opcode of a word; the code of an emitted prototype has no other numbers than those of the opcodes. -/
def bcOp (i : BCIns) : BCOp := BCOp.all.getD (i &&& 0xff).toNat .funccw
def bcA (i : BCIns) : ℕ := ((i >>> 8) &&& 0xff).toNat
def bcB (i : BCIns) : ℕ := (i >>> 24).toNat
def bcC (i : BCIns) : ℕ := ((i >>> 16) &&& 0xff).toNat
def bcD (i : BCIns) : ℕ := (i >>> 16).toNat
/-- A jump, relative to the next instruction. -/
def bcJ (i : BCIns) : ℤ := bcD i - 0x8000

/-- `bcins_abc`. -/
def bcinsAbc (o : BCOp) (a b c : UInt32) : BCIns := .ofNat (BCOp.all.idxOf o) ||| (a <<< 8) ||| (b <<< 24) ||| (c <<< 16)
/-- `bcins_ad`. -/
def bcinsAd (o : BCOp) (a d : UInt32) : BCIns := .ofNat (BCOp.all.idxOf o) ||| (a <<< 8) ||| (d <<< 16)

theorem bcD_lt (i : BCIns) : bcD i < 2^16 := by
  have := i.toNat_lt
  simp [bcD, UInt32.toNat_shiftRight, Nat.shiftRight_eq_div_pow]
  omega

end LuajitRs.Bc
