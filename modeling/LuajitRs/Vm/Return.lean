import LuajitRs.Compiler.Bc
import LuajitRs.Vm.Upvals

/-! Returns from Lua functions. `do_return` finds the caller from the frame links on the stack; the arms of the return
instructions do the same inline where the chain of frames ends in a Lua call and no upvalue is open. The inline way and
the general one come to the same caller with the same results, unless the general one clears slots past the stack. -/
namespace LuajitRs.Vm.Return
open Bc

/-- A slot of the stack holds the word of a value or a frame link. -/
abbrev Word := BitVec 64

def NIL : Word := 0xffffffffffffffff
/-- The word of `false`. -/
def FALSE : Word := 0xffff7fffffffffff

/-! ### Frame links -/

def FRAME_LUA : Word := 0
def FRAME_C : Word := 1
def FRAME_CONT : Word := 2
def FRAME_VARG : Word := 3
def FRAME_TYPE_MASK : Word := 3

def frameType (link : Word) : Word := link &&& FRAME_TYPE_MASK

/-- The bits of a link above its type. -/
def payload (link : Word) : ℕ := (link >>> 3).toNat

/-! ### The state -/

/-- What the interpreter keeps of a prototype: where its code and its constants are, and the line of each instruction. -/
structure Proto where
  bc : ℕ
  kn : ℕ
  kstrv : ℕ
  framesize : ℕ
  lines : List ℕ
  lines_ne : lines ≠ []

/-- The line of an instruction, or of the last one. -/
def Proto.line (pt : Proto) (pc : ℕ) : ℕ :=
  pt.lines.get ⟨min pc (pt.lines.length - 1), by have := List.length_pos_iff.mpr pt.lines_ne; omega⟩

/-- The code in memory, and the prototype of a word that is a Lua function. -/
structure Program where
  ins : ℕ → BCIns
  luaFunc : Word → Option Proto

/-- The interpreter and its thread, whose stack has `len` slots. -/
structure State where
  l : Upvals.Thread Word
  len : ℕ
  base : ℕ
  pc : ℕ
  cl : Word
  bcp : ℕ
  knp : ℕ
  ksp : ℕ
  multres : ℕ
  /-- The saved lines of the callers, the last one first. -/
  hookLines : List ℕ
  hookmaskLine : Bool
  hookLine : ℕ
  top : ℕ
  frameTop : ℕ

/-- The interpreter goes on, a host entry returns a number of results, or there is a panic. -/
inductive Outcome
  | next (s : State)
  | done (n : ℕ) (s : State)
  | panic

/-- Move `n` slots from `src` to `dst`, the lowest first. -/
def copy (st : ℕ → Word) (dst src : ℕ) : ℕ → ℕ → Word
  | 0 => st
  | n + 1 =>
    let st' := copy st dst src n
    Function.update st' (dst + n) (st' (src + n))

/-- Set `k` slots from `lo` on to nil. -/
def fill (st : ℕ → Word) (lo : ℕ) : ℕ → ℕ → Word
  | 0 => st
  | k + 1 => Function.update (fill st lo k) (lo + k) NIL

namespace State
variable (s : State)

def at' (i : ℕ) : Word := s.l.stack i

def setStack (st : ℕ → Word) : State := { s with l := { s.l with stack := st } }

/-- A range of the stack is set to nil; there is a panic if the stack does not have it. -/
def clear (lo hi : ℕ) : Option State :=
  if lo ≤ hi ∧ hi ≤ s.len then some (s.setStack (fill s.l.stack lo (hi - lo))) else none

end State

namespace Program
variable (C : Program) (s : State)

/-- Switch to the function below a frame base. -/
def reloadAt (base : ℕ) : Option State :=
  (C.luaFunc (s.at' (base - 2))).map fun pt =>
    { s with base := base, cl := s.at' (base - 2), bcp := pt.bc, knp := pt.kn, ksp := pt.kstrv,
             frameTop := base + pt.framesize }

/-- The line of the instruction that comes next counts as reported. -/
def skipLine (s : State) : State :=
  if s.hookmaskLine then
    match C.luaFunc s.cl with
    | some pt => { s with hookLine := pt.line s.pc }
    | none => s
  else s

/-! ### The inline way -/

/-- Down the vararg frames from base `bp`, to the base of the call and its link. -/
def vargLoop (st : ℕ → Word) : ℕ → ℕ → ℕ × Word
  | 0, bp => (bp, st (bp - 1))
  | fuel + 1, bp =>
    let link := st (bp - 1)
    if frameType link = FRAME_VARG ∧ payload link ≠ 0 then vargLoop st fuel (bp - payload link) else (bp, link)

/-- The base of the call, the results it wants (`-1` for all), the return address and the register of the call. -/
def retFastN : Option (ℕ × ℤ × ℕ × ℕ) :=
  let r := vargLoop s.l.stack s.base s.base
  if frameType r.2 = FRAME_LUA ∧ s.len ≤ payload r.2 ∧ s.l.openuv = [] then
    let callIns := C.ins (r.2.toNat - 4)
    some (r.1, bcB callIns - 1, r.2.toNat, bcA callIns)
  else none

/-- The number of slots that a call with `n` results fills. -/
def got (want : ℤ) (n : ℕ) : ℕ := if 0 ≤ want then want.toNat else n

/-- The end that the arms share: they resume the caller at the return address. -/
def resume (dst : ℕ) (want : ℤ) (retIp ca n : ℕ) (line : Bool) (s : State) : Outcome :=
  match C.reloadAt { s with multres := n } (dst - ca) with
  | some s =>
    let s := { s with pc := (retIp - s.bcp) / 4 }
    let s := if line then C.skipLine s else s
    .next { s with top := dst + got want n }
  | none => .panic

/-- The return instructions, after the return hook. -/
inductive Ret
  | ret0
  | ret1 (a : ℕ)
  | ret (a d : ℕ)
  | retm (a d : ℕ)

/-- How many results an instruction returns, and from which slot. -/
def count : Ret → ℕ
  | .ret0 => 0
  | .ret1 _ => 1
  | .ret _ d => d - 1
  | .retm _ d => s.multres + d

def source : Ret → ℕ
  | .ret0 => s.base
  | .ret1 a | .ret a _ | .retm a _ => s.base + a

/-- The saved lines that an arm takes off, and whether the last of them becomes the current line. -/
def popLines (k : ℕ) (set : Bool) (s : State) : State :=
  let popped := s.hookLines.take k
  { s with hookLines := s.hookLines.drop k,
           hookLine := if set then popped.getLast?.getD s.hookLine else s.hookLine }

/-- The inline part of an instruction, where it applies. -/
def inlineRet (r : Ret) : Option Outcome :=
  match C.retFastN s with
  | none => none
  | some (wbase, want, retIp, ca) =>
    let dst := wbase - 2
    match r with
    | .ret0 =>
      let s := popLines 1 false s
      let s := s.setStack (fill s.l.stack dst want.toNat)
      some (C.resume dst want retIp ca 0 true s)
    | .ret1 a =>
      let s := popLines 1 false s
      let st := Function.update s.l.stack dst (s.at' (s.base + a))
      let s := s.setStack (fill st (dst + 1) ((max want 1).toNat - 1))
      some (C.resume dst want retIp ca 1 true s)
    | .ret a d =>
      let n := d - 1
      let s := popLines 2 true s
      let s := s.setStack (fill (copy s.l.stack dst (s.base + a) n) (dst + n) (want.toNat - n))
      some (C.resume dst want retIp ca n false s)
    | .retm a d =>
      let n := s.multres + d
      let s := popLines 1 true s
      let s := s.setStack (fill (copy s.l.stack dst (s.base + a) n) (dst + n) (want.toNat - n))
      some (C.resume dst want retIp ca n false s)

/-! ### The general way -/

/-- What the walk over the vararg frames ends with. -/
inductive Walk
  | call (base : ℕ) (link : Word)
  | lost
  | panic

def returnLoop (s : State) : ℕ → ℕ → Word → Walk
  | 0, base, link => .call base link
  | fuel + 1, base, link =>
    if frameType link = FRAME_VARG then
      let sz := payload link
      if sz = 0 ∨ base < sz then .call base link
      else if base - sz < 2 then .call (base - sz) link
      else if s.len ≤ base - sz - 1 then .panic
      else
        let link := s.at' (base - sz - 1)
        if link = NIL then .lost else returnLoop s fuel (base - sz) link
    else .call base link

def isTruthy (v : Word) : Bool := v ≠ NIL && v ≠ FALSE

/-- `cont_dispatch`: the continuation behind a metamethod, by its number, with the register of the instruction. -/
def contDispatch (mmbase : ℕ) (link : Word) (n : ℕ) : Outcome :=
  let delta := payload link
  if delta = 0 ∨ mmbase < delta then .next s
  else
    let callerBase := mmbase - delta
    let cont := ((s.at' (mmbase - 4)) >>> 32).toNat % 256
    let extra := (s.at' (mmbase - 4)).toNat % 2^32
    let savedPc := (s.at' (mmbase - 3)).toNat
    let result := if 0 < n then s.at' (mmbase - 2) else NIL
    match C.reloadAt s callerBase with
    | none => .panic
    | some s =>
      let s := { s with top := s.frameTop }
      let jump (taken : Bool) : ℕ :=
        if taken then ((savedPc + 1 : ℕ) + bcJ (C.ins (s.bcp + 4 * savedPc))).toNat else savedPc + 1
      match cont with
      | 0 => .next { s.setStack (Function.update s.l.stack (callerBase + extra) result) with pc := savedPc }
      | 1 => .next { s with pc := savedPc }
      | 2 => .next { s with pc := jump (isTruthy result) }
      | _ => .next { s with pc := jump (!isTruthy result) }

/-- The return to a host entry, which clears the slots between its results and the top. -/
def returnC (dst n : ℕ) (link : Word) : Outcome :=
  let want := min (((link >>> 3).setWidth 32).toInt - 1) (s.len - dst : ℕ)
  let s := if 0 ≤ want then s.setStack (fill s.l.stack (dst + n) (want.toNat - n)) else s
  let got := got want n
  let clearFrom := min (max (dst + 2) (min (dst + got) s.top)) s.top
  match s.clear clearFrom s.top with
  | some s => .done got { s with top := dst + got }
  | none => .panic

/-- The end of a return to a Lua caller: missing results are nil, and the rest of the callee's frame is cleared. -/
def finish (dst n : ℕ) (want : ℤ) (calleeTop : ℕ) (s : State) : Outcome :=
  let s := if 0 ≤ want then s.setStack (fill s.l.stack (dst + n) (want.toNat - n)) else s
  let keep := dst + got want n
  let clearFrom := max (dst + 2) keep
  match s.clear clearFrom (max calleeTop clearFrom) with
  | some s => .next { s with top := keep }
  | none => .panic

/-- The return to a Lua caller, at the instruction after its call. -/
def returnLua (dst n : ℕ) (link : Word) : Outcome :=
  let callIns := C.ins (link.toNat - 4)
  match C.luaFunc s.cl with
  | none => .panic
  | some callee =>
    match C.reloadAt (popLines 1 false s) (dst - bcA callIns) with
    | none => .panic
    | some s =>
      finish dst n (bcB callIns - 1) (dst + 2 + callee.framesize) (C.skipLine { s with pc := (link.toNat - s.bcp) / 4 })

/-- `do_return` of the `n` results in the slots from `src` on. -/
def doReturn (src n : ℕ) : Outcome :=
  let s := if s.l.openuv = [] then s else { s with l := s.l.closeUpvals s.base }
  if s.base < 2 then .next s
  else if s.len ≤ s.base - 1 then .panic
  else if s.at' (s.base - 1) = NIL then .next s
  else
    match returnLoop s s.base s.base (s.at' (s.base - 1)) with
    | .panic => .panic
    | .lost => .next s
    | .call base link =>
      let dst := base - 2
      let s := { s.setStack (copy s.l.stack dst src n) with multres := n }
      if frameType link = FRAME_CONT then C.contDispatch s base link n
      else if frameType link = FRAME_C then returnC s dst n link
      else if payload link < s.len then .done n { s with top := dst + n }
      else C.returnLua s dst n link

/-! ### Frame chains -/

/-- The frames from base `b` down: any number of vararg frames, and the frame of a Lua call with its link. -/
inductive Chain (s : State) : ℕ → ℕ → Word → Prop
  | lua {b : ℕ} : 2 ≤ b → frameType (s.at' (b - 1)) = FRAME_LUA → s.len ≤ payload (s.at' (b - 1)) →
      Chain s b b (s.at' (b - 1))
  | vararg {b base : ℕ} {link : Word} : frameType (s.at' (b - 1)) = FRAME_VARG → 0 < payload (s.at' (b - 1)) →
      payload (s.at' (b - 1)) + 2 ≤ b → Chain s (b - payload (s.at' (b - 1))) base link → Chain s b base link

section Chain
variable {s : State} {b base fuel : ℕ} {link : Word}

theorem Chain.link_spec (h : Chain s b base link) :
    2 ≤ base ∧ base ≤ b ∧ frameType link = FRAME_LUA ∧ s.len ≤ payload link := by
  induction h with
  | lua hb ht hl => exact ⟨hb, le_rfl, ht, hl⟩
  | vararg ht hpos hle hchain ih => exact ⟨ih.1, by omega, ih.2.2⟩

/-- A link of the chain is not nil: as a vararg link, nil would lead below the stack. -/
theorem Chain.ne_nil (h : Chain s b base link) (hb : b ≤ s.len) : s.at' (b - 1) ≠ NIL := by
  have hlen : s.len ≤ payload link := h.link_spec.2.2.2
  have hlt : payload link < 2^61 := by
    rw [payload, BitVec.toNat_ushiftRight, Nat.shiftRight_eq_div_pow]
    have := link.isLt
    omega
  intro hnil
  cases h with
  | lua hb' ht hl =>
    rw [hnil] at ht
    exact absurd ht (by decide)
  | vararg ht hpos hle hchain =>
    rw [hnil] at hle
    have hpay : payload NIL = 2^61 - 1 := by decide
    omega

theorem vargLoop_eq (h : Chain s b base link) (hfuel : b ≤ fuel) : vargLoop s.l.stack fuel b = (base, link) := by
  induction h generalizing fuel with
  | @lua b hb ht hl =>
    obtain ⟨fuel, rfl⟩ := Nat.exists_eq_succ_of_ne_zero (show fuel ≠ 0 by omega)
    have hne : ¬ (frameType (s.l.stack (b - 1)) = FRAME_VARG ∧ payload (s.l.stack (b - 1)) ≠ 0) := by
      rintro ⟨hv, -⟩
      exact absurd (ht.symm.trans hv) (by decide)
    rw [vargLoop, if_neg hne]
    rfl
  | @vararg b base link ht hpos hle hchain ih =>
    obtain ⟨fuel, rfl⟩ := Nat.exists_eq_succ_of_ne_zero (show fuel ≠ 0 by omega)
    rw [vargLoop, if_pos ⟨ht, by exact hpos.ne'⟩]
    exact ih (by omega)

theorem returnLoop_eq (h : Chain s b base link) (hb : b ≤ s.len) (hfuel : b ≤ fuel) :
    returnLoop s fuel b (s.at' (b - 1)) = .call base link := by
  induction h generalizing fuel with
  | @lua b hb' ht hl =>
    obtain ⟨fuel, rfl⟩ := Nat.exists_eq_succ_of_ne_zero (show fuel ≠ 0 by omega)
    rw [returnLoop, if_neg (by rw [ht]; decide)]
  | @vararg b base link ht hpos hle hchain ih =>
    obtain ⟨fuel, rfl⟩ := Nat.exists_eq_succ_of_ne_zero (show fuel ≠ 0 by omega)
    rw [returnLoop, if_pos ht]
    dsimp only
    rw [if_neg (by omega), if_neg (by omega), if_neg (by omega), if_neg (hchain.ne_nil (by omega))]
    exact ih (by omega) (by omega)

end Chain

/-! ### Slots -/

section Slots
variable {st : ℕ → Word} {dst src lo i : ℕ}

/-- The copy goes upwards, so it reads no slot that it has written. -/
theorem copy_apply (hle : dst ≤ src) (n : ℕ) :
    copy st dst src n i = if dst ≤ i ∧ i < dst + n then st (src + (i - dst)) else st i := by
  induction n generalizing i with
  | zero => rw [copy, if_neg (by omega)]
  | succ n ih =>
    rw [copy]
    by_cases hi : i = dst + n
    · subst hi
      rw [Function.update_self, ih, if_neg (by omega), if_pos (by omega), Nat.add_sub_cancel_left]
    · rw [Function.update_of_ne hi, ih]
      by_cases hin : dst ≤ i ∧ i < dst + n
      · rw [if_pos hin, if_pos (by omega)]
      · rw [if_neg hin, if_neg (by omega)]

theorem fill_apply (k : ℕ) : fill st lo k i = if lo ≤ i ∧ i < lo + k then NIL else st i := by
  induction k with
  | zero => rw [fill, if_neg (by omega)]
  | succ k ih =>
    rw [fill]
    by_cases hi : i = lo + k
    · subst hi
      rw [Function.update_self, if_pos (by omega)]
    · rw [Function.update_of_ne hi, ih]
      by_cases hin : lo ≤ i ∧ i < lo + k
      · rw [if_pos hin, if_pos (by omega)]
      · rw [if_neg hin, if_neg (by omega)]

/-- The slots after a return: those below the results are kept, missing results are nil. -/
def results (st : ℕ → Word) (dst src n i : ℕ) : Word :=
  if i < dst then st i else if i < dst + n then st (src + (i - dst)) else NIL

theorem fill_copy (hle : dst ≤ src) (want : ℤ) (n : ℕ) (hi : i < dst + got want n) :
    fill (copy st dst src n) (dst + n) (want.toNat - n) i = results st dst src n i := by
  have hgot : got want n ≤ max want.toNat n := by
    rw [got]
    split <;> omega
  rw [fill_apply, copy_apply hle, results]
  split_ifs <;> first | rfl | omega

end Slots

/-! ### The caller -/

section Caller
variable {C : Program} {s s₁ s₂ : State} {dst src n base pc retIp ca : ℕ} {want : ℤ} {cl link : Word} {pt callee : Proto}

/-- The caller runs again: its function with code and constants, its base, where it goes on, and how many results
the call had. -/
structure Resumed (s : State) (base pc : ℕ) (cl : Word) (pt : Proto) (n : ℕ) : Prop where
  base : s.base = base
  pc : s.pc = pc
  cl : s.cl = cl
  bcp : s.bcp = pt.bc
  knp : s.knp = pt.kn
  ksp : s.ksp = pt.kstrv
  multres : s.multres = n

theorem skipLine_eq (C : Program) (s : State) : ∃ line, C.skipLine s = { s with hookLine := line } := by
  rw [skipLine]
  split
  · split <;> exact ⟨_, rfl⟩
  · exact ⟨_, rfl⟩

theorem reloadAt_eq (hf : C.luaFunc (s.at' (base - 2)) = some pt) : C.reloadAt s base = some
    { s with base := base, cl := s.at' (base - 2), bcp := pt.bc, knp := pt.kn, ksp := pt.kstrv,
             frameTop := base + pt.framesize } := by
  rw [reloadAt, hf]
  rfl

theorem resume_eq (want : ℤ) (retIp n : ℕ) (line : Bool) (hf : C.luaFunc (s.at' (dst - ca - 2)) = some pt) :
    ∃ s₁, C.resume dst want retIp ca n line s = .next s₁ ∧ s₁.l = s.l ∧
      Resumed s₁ (dst - ca) ((retIp - pt.bc) / 4) (s.at' (dst - ca - 2)) pt n := by
  rw [resume, reloadAt_eq (s := { s with multres := n }) hf]
  dsimp only
  cases line with
  | false => exact ⟨_, rfl, rfl, rfl, rfl, rfl, rfl, rfl, rfl, rfl⟩
  | true =>
    rw [if_pos rfl]
    obtain ⟨l, hl⟩ := skipLine_eq C _
    rw [hl]
    exact ⟨_, rfl, rfl, rfl, rfl, rfl, rfl, rfl, rfl, rfl⟩

theorem finish_panic {calleeTop : ℕ} (h : s.len < max calleeTop (max (dst + 2) (dst + got want n))) :
    finish dst n want calleeTop s = .panic := by
  have hlen : (if 0 ≤ want then s.setStack (fill s.l.stack (dst + n) (want.toNat - n)) else s).len = s.len := by
    split <;> rfl
  rw [finish, State.clear, if_neg (by rw [hlen]; omega)]

theorem finish_eq {calleeTop : ℕ} (h : max calleeTop (max (dst + 2) (dst + got want n)) ≤ s.len) :
    ∃ s₂, finish dst n want calleeTop s = .next s₂ ∧ (Resumed s base pc cl pt src → Resumed s₂ base pc cl pt src) ∧
      ∀ i < dst + got want n, s₂.at' i = fill s.l.stack (dst + n) (want.toNat - n) i := by
  have hst : (if 0 ≤ want then s.setStack (fill s.l.stack (dst + n) (want.toNat - n)) else s) =
      s.setStack (fill s.l.stack (dst + n) (want.toNat - n)) := by
    split
    · rfl
    · rw [show want.toNat - n = 0 by omega]
      rfl
  rw [finish, hst, State.clear, if_pos ⟨by omega, h⟩]
  refine ⟨_, rfl, fun r => ⟨r.1, r.2, r.3, r.4, r.5, r.6, r.7⟩, fun i hi => ?_⟩
  change fill (fill s.l.stack (dst + n) (want.toNat - n)) (max (dst + 2) (dst + got want n)) _ i = _
  rw [fill_apply, if_neg (by omega)]

end Caller

/-! ### The two ways -/

section Agree
variable {C : Program} {s : State} {base : ℕ} {link : Word} {callee : Proto}

/-- A frame at the end of a return: no upvalue is open, and the chain of frames leads to a Lua call whose caller is a
Lua function with the register of the call in its frame. -/
structure Returning (C : Program) (s : State) (base : ℕ) (link : Word) : Prop where
  openuv : s.l.openuv = []
  chain : Chain s s.base base link
  room : bcA (C.ins (link.toNat - 4)) + 4 ≤ base
  caller : ∃ pt, C.luaFunc (s.at' (base - 2 - bcA (C.ins (link.toNat - 4)) - 2)) = some pt

/-- Two returns of `n` results from `src` on: the same caller goes on in the same place, the slots below the results are
what they were, and the wanted results are there, those that are missing as nil. -/
structure Agree (s s₁ s₂ : State) (dst src n : ℕ) (want : ℤ) : Prop where
  base : s₁.base = s₂.base
  pc : s₁.pc = s₂.pc
  cl : s₁.cl = s₂.cl ∧ s₁.bcp = s₂.bcp ∧ s₁.knp = s₂.knp ∧ s₁.ksp = s₂.ksp
  multres : s₁.multres = n ∧ s₂.multres = n
  below : ∀ i < dst, s₁.at' i = s.at' i ∧ s₂.at' i = s.at' i
  results : ∀ i < got want n, i < n → s₁.at' (dst + i) = s.at' (src + i) ∧ s₂.at' (dst + i) = s.at' (src + i)
  missing : ∀ i < got want n, n ≤ i → s₁.at' (dst + i) = NIL ∧ s₂.at' (dst + i) = NIL

theorem agree_of_results {s₁ s₂ : State} {dst src n b pc : ℕ} {want : ℤ} {cl : Word} {pt : Proto}
    (h₁ : Resumed s₁ b pc cl pt n) (h₂ : Resumed s₂ b pc cl pt n)
    (hst₁ : ∀ i < dst + got want n, s₁.at' i = Program.results s.l.stack dst src n i)
    (hst₂ : ∀ i < dst + got want n, s₂.at' i = Program.results s.l.stack dst src n i) :
    Agree s s₁ s₂ dst src n want := by
  have hbelow : ∀ i < dst, Program.results s.l.stack dst src n i = s.at' i := fun i hi => if_pos hi
  have hres : ∀ i < n, Program.results s.l.stack dst src n (dst + i) = s.at' (src + i) := by
    intro i hi
    rw [Program.results, if_neg (by omega), if_pos (by omega), Nat.add_sub_cancel_left]
    rfl
  have hmiss : ∀ i, n ≤ i → Program.results s.l.stack dst src n (dst + i) = NIL := by
    intro i hi
    rw [Program.results, if_neg (by omega), if_neg (by omega)]
  exact ⟨h₁.base.trans h₂.base.symm, h₁.pc.trans h₂.pc.symm,
    ⟨h₁.cl.trans h₂.cl.symm, h₁.bcp.trans h₂.bcp.symm, h₁.knp.trans h₂.knp.symm, h₁.ksp.trans h₂.ksp.symm⟩,
    ⟨h₁.multres, h₂.multres⟩,
    fun i hi => ⟨(hst₁ i (by omega)).trans (hbelow i hi), (hst₂ i (by omega)).trans (hbelow i hi)⟩,
    fun i hi hn => ⟨(hst₁ _ (by omega)).trans (hres i hn), (hst₂ _ (by omega)).trans (hres i hn)⟩,
    fun i hi hn => ⟨(hst₁ _ (by omega)).trans (hmiss i hn), (hst₂ _ (by omega)).trans (hmiss i hn)⟩⟩

theorem retFastN_eq (h : Returning C s base link) : C.retFastN s =
    some (base, (bcB (C.ins (link.toNat - 4)) : ℤ) - 1, link.toNat, bcA (C.ins (link.toNat - 4))) := by
  obtain ⟨-, -, ht, hl⟩ := h.chain.link_spec
  rw [retFastN, vargLoop_eq h.chain le_rfl]
  exact if_pos ⟨ht, hl, h.openuv⟩

/-- Each arm goes to the caller, with the results in place. -/
theorem inlineRet_eq (h : Returning C s base link) (r : Ret) {pt : Proto} {want : ℤ} {ca : ℕ}
    (hwant : bcB (C.ins (link.toNat - 4)) - 1 = want) (hca : bcA (C.ins (link.toNat - 4)) = ca)
    (hf : C.luaFunc (s.at' (base - 2 - ca - 2)) = some pt) :
    ∃ s₁, C.inlineRet s r = some (.next s₁) ∧
      Resumed s₁ (base - 2 - ca) ((link.toNat - pt.bc) / 4) (s.at' (base - 2 - ca - 2)) pt (count s r) ∧
      ∀ i < base - 2 + got want (count s r), s₁.at' i = results s.l.stack (base - 2) (source s r) (count s r) i := by
  have hroom := h.room
  have hbase := h.chain.link_spec
  -- Every arm writes the results and resumes the caller, whose function lies below them.
  have key : ∀ (st : ℕ → Word) (k n src : ℕ) (set line : Bool),
      (∀ i < base - 2 + got want n, st i = results s.l.stack (base - 2) src n i) →
      ∃ s₁, C.resume (base - 2) want link.toNat ca n line ((popLines k set s).setStack st) = .next s₁ ∧
        Resumed s₁ (base - 2 - ca) ((link.toNat - pt.bc) / 4) (s.at' (base - 2 - ca - 2)) pt n ∧
        ∀ i < base - 2 + got want n, s₁.at' i = results s.l.stack (base - 2) src n i := by
    intro st k n src set line hst
    have hfunc : ((popLines k set s).setStack st).at' (base - 2 - ca - 2) = s.at' (base - 2 - ca - 2) := by
      refine (hst _ (by omega)).trans ?_
      rw [results, if_pos (by omega)]
      rfl
    have hf' : C.luaFunc (((popLines k set s).setStack st).at' (base - 2 - ca - 2)) = some pt := hfunc ▸ hf
    obtain ⟨s₁, hrun, hl, hres⟩ := resume_eq want link.toNat n line hf'
    rw [hfunc] at hres
    refine ⟨s₁, hrun, hres, fun i hi => ?_⟩
    rw [State.at', hl]
    exact hst i hi
  rw [inlineRet, retFastN_eq h]
  dsimp only
  rw [hwant, hca]
  cases r with
  | ret0 =>
    have hle : base - 2 ≤ s.base := by omega
    obtain ⟨s₁, hrun, hres⟩ := key (fill s.l.stack (base - 2) want.toNat) 1 0 s.base false true fun i hi =>
      fill_copy hle want 0 hi
    exact ⟨s₁, congrArg some hrun, hres⟩
  | ret1 a =>
    have hle : base - 2 ≤ s.base + a := by omega
    obtain ⟨s₁, hrun, hres⟩ := key
      (fill (Function.update s.l.stack (base - 2) (s.at' (s.base + a))) (base - 2 + 1) ((max want 1).toNat - 1)) 1 1
      (s.base + a) false true fun i hi => by
        rw [show (max want 1).toNat - 1 = want.toNat - 1 by omega]
        exact fill_copy hle want 1 hi
    exact ⟨s₁, congrArg some hrun, hres⟩
  | ret a d =>
    obtain ⟨s₁, hrun, hres⟩ := key _ 2 (d - 1) (s.base + a) true false fun i hi => fill_copy (by omega) want (d - 1) hi
    exact ⟨s₁, congrArg some hrun, hres⟩
  | retm a d =>
    obtain ⟨s₁, hrun, hres⟩ := key _ 1 (s.multres + d) (s.base + a) true false fun i hi =>
      fill_copy (by omega) want (s.multres + d) hi
    exact ⟨s₁, congrArg some hrun, hres⟩

/-- The general way comes to the call with the results copied, unless the running frame is past the stack. -/
theorem doReturn_call (h : Returning C s base link) (src n : ℕ) : C.doReturn s src n = if s.base ≤ s.len then
    C.returnLua { s.setStack (copy s.l.stack (base - 2) src n) with multres := n } (base - 2) n link else .panic := by
  obtain ⟨hb, hle, ht, hl⟩ := h.chain.link_spec
  rw [doReturn, if_pos h.openuv]
  dsimp only
  rw [if_neg (show ¬ s.base < 2 by omega)]
  by_cases hlen : s.base ≤ s.len
  · rw [if_neg (show ¬ s.len ≤ s.base - 1 by omega), if_neg (h.chain.ne_nil hlen), returnLoop_eq h.chain hlen le_rfl,
      if_pos hlen]
    dsimp only
    rw [if_neg (by rw [ht]; decide), if_neg (by rw [ht]; decide)]
    exact if_neg (Nat.not_lt.mpr hl)
  · rw [if_pos (show s.len ≤ s.base - 1 by omega), if_neg hlen]

/-- The general way goes to the caller with the results in place, if what it looks at and clears is on the stack. -/
theorem doReturn_eq (h : Returning C s base link) {src n : ℕ} {pt : Proto} {want : ℤ} {ca : ℕ} (hsrc : base ≤ src)
    (hcallee : C.luaFunc s.cl = some callee)
    (hwant : bcB (C.ins (link.toNat - 4)) - 1 = want) (hca : bcA (C.ins (link.toNat - 4)) = ca)
    (hf : C.luaFunc (s.at' (base - 2 - ca - 2)) = some pt) :
    if s.base ≤ s.len ∧ base + callee.framesize ≤ s.len ∧ base - 2 + got want n ≤ s.len then
      ∃ s₂, C.doReturn s src n = .next s₂ ∧
        Resumed s₂ (base - 2 - ca) ((link.toNat - pt.bc) / 4) (s.at' (base - 2 - ca - 2)) pt n ∧
        ∀ i < base - 2 + got want n, s₂.at' i = results s.l.stack (base - 2) src n i
    else C.doReturn s src n = .panic := by
  have hroom := h.room
  have hbase := h.chain.link_spec
  let t : State := { s.setStack (copy s.l.stack (base - 2) src n) with multres := n }
  have hfunc : (popLines 1 false t).at' (base - 2 - ca - 2) = s.at' (base - 2 - ca - 2) := by
    refine (copy_apply (by omega) n).trans ?_
    rw [if_neg (by omega)]
    rfl
  -- The caller is restored before the results are completed.
  have hlua : ∃ u, C.returnLua t (base - 2) n link = finish (base - 2) n want (base - 2 + 2 + callee.framesize) u ∧
      Resumed u (base - 2 - ca) ((link.toNat - pt.bc) / 4) (s.at' (base - 2 - ca - 2)) pt n ∧ u.l = t.l ∧ u.len = s.len := by
    rw [returnLua, show C.luaFunc t.cl = some callee from hcallee]
    dsimp only
    rw [hca, reloadAt_eq (hfunc ▸ hf), hfunc, hwant]
    dsimp only
    obtain ⟨line, hline⟩ := skipLine_eq C _
    rw [hline]
    exact ⟨_, rfl, ⟨rfl, rfl, rfl, rfl, rfl, rfl, rfl⟩, rfl, rfl⟩
  obtain ⟨u, hrun, hres, hl, hlen⟩ := hlua
  rw [doReturn_call h]
  by_cases hin : s.base ≤ s.len
  · rw [if_pos hin, show C.returnLua _ (base - 2) n link = _ from hrun]
    split_ifs with hcond
    · have hclear : max (base - 2 + 2 + callee.framesize) (max (base - 2 + 2) (base - 2 + got want n)) ≤ u.len := by
        omega
      obtain ⟨s₂, hrun₂, hres₂, hst⟩ := finish_eq hclear
      refine ⟨s₂, hrun₂, hres₂ hres, fun i hi => ?_⟩
      rw [hst i hi, hl]
      exact fill_copy (by omega) want n hi
    · exact finish_panic (by omega)
  · rw [if_neg hin, if_neg (fun hcond => hin hcond.1)]

/-- Where the chain of frames ends in a Lua call and no upvalue is open, the inline return and the general one agree
exactly if the running base, the frame above the call and the wanted results lie on the stack. -/
theorem inlineRet_agrees (h : Returning C s base link) (hcallee : C.luaFunc s.cl = some callee) (r : Ret) :
    (∃ s₁ s₂, C.inlineRet s r = some (.next s₁) ∧ C.doReturn s (source s r) (count s r) = .next s₂ ∧
      Agree s s₁ s₂ (base - 2) (source s r) (count s r) (bcB (C.ins (link.toNat - 4)) - 1)) ↔
    s.base ≤ s.len ∧ base + callee.framesize ≤ s.len ∧
      base - 2 + got (bcB (C.ins (link.toNat - 4)) - 1) (count s r) ≤ s.len := by
  obtain ⟨pt, hf⟩ := h.caller
  have hsrc : base ≤ source s r := by
    have hle := h.chain.link_spec.2.1
    cases r with
    | ret0 => exact hle
    | ret1 | ret | retm => exact Nat.le_add_right_of_le hle
  obtain ⟨s₁, hinline, hres₁, hst₁⟩ := inlineRet_eq h r rfl rfl hf
  have hgeneral := doReturn_eq (n := count s r) h hsrc hcallee rfl rfl hf
  constructor
  · rintro ⟨_, s₂, -, hrun, -⟩
    by_contra hcond
    rw [if_neg hcond, hrun] at hgeneral
    cases hgeneral
  · intro hcond
    rw [if_pos hcond] at hgeneral
    obtain ⟨s₂, hrun, hres₂, hst₂⟩ := hgeneral
    exact ⟨s₁, s₂, hinline, hrun, agree_of_results hres₁ hres₂ hst₁ hst₂⟩

/-! ### Examples -/

/-- The word 1 is a small function that calls, the word 2 one with `framesize` registers. -/
def callProgram (framesize : ℕ) : Program where
  ins _ := bcinsAbc .call 0 2 1
  luaFunc w :=
    if w = 1 then some ⟨0x400000, 0, 0, 5, [1], List.cons_ne_nil 1 []⟩
    else if w = 2 then some ⟨0x500000, 0, 0, framesize, [1], List.cons_ne_nil 1 []⟩
    else none

/-- The second function, called by the first, on a stack of 80 slots. -/
def callState : State where
  l := ⟨fun i => if i = 0 then 1 else if i = 2 then 2 else if i = 3 then 0x400008 else 0, fun _ => .closed 0, 0, [], [], none⟩
  len := 80
  base := 4
  pc := 2
  cl := 2
  bcp := 0x500000
  knp := 0
  ksp := 0
  multres := 0
  hookLines := []
  hookmaskLine := false
  hookLine := 0
  top := 9
  frameTop := 9

theorem callState_returning (framesize : ℕ) : Returning (callProgram framesize) callState 4 0x400008 := by
  have hca : bcA ((callProgram framesize).ins ((0x400008 : Word).toNat - 4)) = 0 :=
    show bcA (bcinsAbc .call 0 2 1) = 0 by decide
  refine ⟨rfl, .lua (by decide) (by decide) (by decide), ?_, ?_⟩
  · rw [hca]
  · rw [hca]
    exact ⟨_, rfl⟩

/-- A frame of five registers returns one value. -/
theorem inlineRet_agrees_small : ∃ s₁ s₂, (callProgram 5).inlineRet callState (.ret1 0) = some (.next s₁) ∧
    (callProgram 5).doReturn callState 4 1 = .next s₂ ∧ Agree callState s₁ s₂ 2 4 1 1 :=
  (inlineRet_agrees (callState_returning 5) rfl (.ret1 0)).mpr (by decide)

/-- A frame of 200 registers, as a tail call can make it, is past the stack, and the general way panics. -/
theorem return_diverges : ¬ ∀ (C : Program) (s : State) base link callee, Returning C s base link →
    C.luaFunc s.cl = some callee → ∀ r, ∃ s₁ s₂, C.inlineRet s r = some (.next s₁) ∧
      C.doReturn s (source s r) (count s r) = .next s₂ ∧
      Agree s s₁ s₂ (base - 2) (source s r) (count s r) (bcB (C.ins (link.toNat - 4)) - 1) := by
  intro hall
  obtain ⟨s₁, s₂, -, hrun, -⟩ := hall _ _ _ _ _ (callState_returning 200) rfl (.ret1 0)
  have hpanic := doReturn_eq (n := 1) (callState_returning 200) (le_refl 4) rfl rfl rfl rfl
  rw [if_neg (by decide)] at hpanic
  rw [show (callProgram 200).doReturn callState (source callState (.ret1 0)) (count callState (.ret1 0)) = .panic
    from hpanic] at hrun
  cases hrun

end Agree

end Program
end LuajitRs.Vm.Return
