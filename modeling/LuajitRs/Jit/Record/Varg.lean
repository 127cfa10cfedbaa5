import LuajitRs.Jit.Record.Replay

/-! Recording `VARG` with a fixed number of results. The varargs lie between the frame and the one below it; a
register that had one at recording time is bound to a call of a helper, every other register to nil. -/
namespace LuajitRs

namespace Vm

abbrev FRAME_TYPE_MASK : ℕ := 3
abbrev FRAME_VARG : ℕ := 3

/-- Writing `n` results, of which the first `nvarg` are copied from `src`. -/
def setVarargs (stack : ℕ → LuaValue) (dst src nvarg n : ℕ) : ℕ → LuaValue :=
  (List.range n).foldl
    (fun s i => Function.update s (dst + i) (if i < nvarg then s (src + i) else .nil)) stack

/-- `op_varg`: the stack, and the number of results if it is open. -/
def opVarg (stack : ℕ → LuaValue) (base : ℕ) (numparams a b : UInt8) : (ℕ → LuaValue) × Option ℕ :=
  let link := (stack (base - 1)).toBits
  if link &&& FRAME_TYPE_MASK ≠ FRAME_VARG then (stack, none)
  else
    let delta := link >>> 3
    if delta < 2 then (stack, some 0)
    else
      let nvarg := delta - 2 - numparams.toNat
      let src := base - delta + numparams.toNat
      if b = 0 then (setVarargs stack (base + a.toNat) src nvarg nvarg, some nvarg)
      else (setVarargs stack (base + a.toNat) src nvarg (b.toNat - 1), none)

end Vm

namespace Ir
open Vm

abbrev IRCALL_VARG : ℕ := 11

/-! ### The helper -/

/-- The memory around the stack, by addresses of words. -/
structure Memory where
  sp : ℕ
  len : ℕ
  /-- Where the heap structure is. -/
  heap : ℕ
  /-- The words that do not belong to the stack. -/
  other : ℕ → LuaValue

def World.word (w : World Memory) (p : ℕ) : LuaValue :=
  if w.rest.sp ≤ p ∧ p < w.rest.sp + w.rest.len then w.stack (p - w.rest.sp) else w.rest.other p

/-- `jit_varg` on the words of its arguments. -/
def jitVarg (word : ℕ → LuaValue) (basePtr frameLink packed : ℕ) : LuaValue :=
  -- The word without a valid link is that of nil.
  if frameLink &&& FRAME_TYPE_MASK ≠ FRAME_VARG then .nil
  else
    let numparams := packed >>> 16
    let index := packed &&& 0xffff
    let base := basePtr / 8
    let link := (word (base - 1)).toBits
    let isCallee := link &&& FRAME_TYPE_MASK = FRAME_VARG
    let delta := if isCallee then link >>> 3 else frameLink >>> 3
    let nvarg := delta - 2 - numparams
    if nvarg ≤ index then .nil
    else if isCallee then word (base - delta + (numparams + index))
    else word (base + (numparams + index))

/-- The dispatch of a helper call of three arguments. -/
def vargCall (w : World Memory) (idx : ℕ) : List LuaValue → LuaValue
  | [base, link, packed] => if idx = IRCALL_VARG then jitVarg w.word base.toBits link.toBits packed.toBits else .nil
  | _ => .nil

/-- The runtime of the emitted calls. -/
def vargRuntime : Runtime Memory where
  hash _ := 0
  pow x _ := x
  upval _ v := v
  call idx args w := (w.rest, vargCall w idx args)
  cnew _ _ h := (h, .nil)
  bufStart _ h := h
  bufAppend _ h := h
  bufStr h := (h, .nil)
  shouldCollect _ := false
  fresh n := n

/-! ### The recorder -/

namespace IrBuf

/-- The first two arguments of the calls: the base pointer and the recorded link. -/
def vargLink (b : IrBuf) (link : UInt64) : IrBuf × ℕ :=
  let (b, klink) := b.kint64 link
  b.emitIns (.new .carg (plain .nil) REF_BIAS klink)

/-- The call that loads vararg `i`. -/
def vargLoad (b : IrBuf) (clink : ℕ) (numparams : UInt8) (i : ℕ) (ty : IRTy) : IrBuf × TRef :=
  let (b, packed) := b.kint64 (UInt64.ofNat (numparams.toNat <<< 16 ||| i))
  let (b, carg) := b.emitIns (.new .carg (plain .nil) clink packed)
  let (b, r) := b.emitIns (.new .calll (guarded ty) carg IRCALL_VARG)
  (b, ⟨r, ty⟩)

end IrBuf

/-- The loop over the wanted results, where `v` are the varargs of the recorded frame. -/
def recVargs (v : ℕ → LuaValue) (clink : ℕ) (numparams : UInt8) (nvarg : ℕ) : List ℕ → IrBuf → IrBuf × List TRef
  | [], b => (b, [])
  | i :: is, b =>
    let (b, tr) := if i < nvarg then b.vargLoad clink numparams i (valueIrt (v i)) else (b, trefPri .nil)
    let (b, trs) := recVargs v clink numparams nvarg is b
    (b, tr :: trs)

section
variable (stack : ℕ → LuaValue) (base : ℕ) (numparams : UInt8)

/-- The link of the frame that is recorded. -/
def frameLink : UInt64 := UInt64.ofNat (stack (base - 1)).toBits

/-- Its number of varargs. -/
def recordedCount : ℕ := (frameLink stack base).toNat >>> 3 - 2 - numparams.toNat

def recordedVararg (i : ℕ) : LuaValue := stack (base + (numparams.toNat + i) - (frameLink stack base).toNat >>> 3)

/-- The `VARG` of `record_ins`: the slots of the results, or an abort. -/
def recVarg (bc : UInt8) (b : IrBuf) : Option (IrBuf × List TRef) :=
  let link := frameLink stack base
  if link.toNat &&& FRAME_TYPE_MASK ≠ FRAME_VARG then none
  else if bc = 0 then none
  else
    let want := bc.toNat - 1
    let (b, clink) := b.vargLink link
    some (recVargs (recordedVararg stack base numparams) clink numparams (recordedCount stack base numparams)
      (List.range want) b)

end

/-! ### Later runs -/

/-- What executes a trace: machine code, or the portable executor. -/
inductive Tier
  | native | portable
  deriving DecidableEq

/-- The word that the reference of the base instruction reads as: machine code has the frame base in a register,
the slot of the portable executor holds the heap. -/
def Tier.basePtr (m : Machine Memory) : Tier → ℕ
  | native => 8 * (m.world.rest.sp + m.cbase)
  | portable => 8 * m.world.rest.heap

/-- A later run at the recorded instruction, in a frame whose link says `delta`. -/
structure Later (tier : Tier) (b : IrBuf) (m : Machine Memory) (delta : ℕ) : Prop where
  r : m.r = b.nins
  started : REF_BIAS < b.nins
  base : m.env REF_BIAS = .num ⟨UInt64.ofNat (tier.basePtr m)⟩
  fits : tier.basePtr m < 2^64
  link : (m.world.stack (m.cbase - 1)).toBits = 8 * delta + FRAME_VARG
  two_le : 2 ≤ delta
  below : delta ≤ m.cbase
  inside : m.cbase ≤ m.world.rest.len

/-- What the replay leaves in the result registers. -/
def replayVarg (b c : IrBuf) (trs : List TRef) (m : Machine Memory) : Option (Option (List LuaValue)) := do
  match ← runIns vargRuntime c (c.ins.drop b.ins.length) m with
  | none => some none
  | some m => (trs.mapM fun tr => readRef c m.env tr.ref).map some

/-- What the interpreter leaves in them. -/
def vargResults (m : Machine Memory) (numparams a bc : UInt8) : List LuaValue :=
  (List.range (bc.toNat - 1)).map fun i =>
    (opVarg m.world.stack m.cbase numparams a bc).1 (m.cbase + a.toNat + i)

/-- The trace is left, or has the results of the interpreter. -/
def VargAgrees (b c : IrBuf) (trs : List TRef) (m : Machine Memory) (numparams a bc : UInt8) : Prop :=
  replayVarg b c trs m = some none ∨ replayVarg b c trs m = some (some (vargResults m numparams a bc))

/-- The vararg of the current frame, or nil. -/
def vararg (m : Machine Memory) (numparams : UInt8) (delta i : ℕ) : LuaValue :=
  if i < delta - 2 - numparams.toNat then m.world.stack (m.cbase - delta + numparams.toNat + i) else .nil

end Ir
end LuajitRs

/-! When recorded varargs are those of the interpreter. Machine code reads the varargs of the current frame, but
takes a register that had none at recording time for nil; the portable executor hands the helper a pointer that
is not the frame base. -/
namespace LuajitRs

namespace Vm
variable {stack : ℕ → LuaValue} {dst src nvarg n p i : ℕ}

theorem setVarargs_succ (stack : ℕ → LuaValue) (dst src nvarg n : ℕ) :
    setVarargs stack dst src nvarg (n + 1) = Function.update (setVarargs stack dst src nvarg n) (dst + n)
      (if n < nvarg then setVarargs stack dst src nvarg n (src + n) else .nil) := by
  rw [setVarargs, List.range_succ, List.foldl_append]
  rfl

/-- Slots below the results stay. -/
theorem setVarargs_below (hp : p < dst) : setVarargs stack dst src nvarg n p = stack p := by
  induction n with
  | zero => rfl
  | succ n ih => rw [setVarargs_succ, Function.update_of_ne (by omega), ih]

theorem setVarargs_result (hsrc : ∀ i < nvarg, src + i < dst) (hi : i < n) :
    setVarargs stack dst src nvarg n (dst + i) = if i < nvarg then stack (src + i) else .nil := by
  induction n with
  | zero => omega
  | succ n ih =>
    rw [setVarargs_succ]
    by_cases hin : i = n
    · subst hin
      rw [Function.update_self]
      split
      · next hv => rw [setVarargs_below (hsrc i hv)]
      · rfl
    · rw [Function.update_of_ne (by omega), ih (by omega)]

end Vm

namespace Ir
open Vm

/-! ### Links and packed arguments -/

theorem and_frameTypeMask (n : ℕ) : n &&& FRAME_TYPE_MASK = n % 4 := Nat.and_two_pow_sub_one_eq_mod n 2

theorem shiftRight_three (n : ℕ) : n >>> 3 = n / 8 := Nat.shiftRight_eq_div_pow n 3

/-- The index and the number of parameters in one word. -/
theorem packed_eq (numparams : UInt8) {i : ℕ} (hi : i < 2^16) :
    let packed := (LuaValue.num ⟨UInt64.ofNat (numparams.toNat <<< 16 ||| i)⟩).toBits
    packed >>> 16 = numparams.toNat ∧ packed &&& 0xffff = i := by
  have hnp : numparams.toNat < 2^8 := numparams.toNat_lt
  have hor : numparams.toNat <<< 16 ||| i = numparams.toNat * 2^16 + i := by
    rw [← Nat.shiftLeft_add_eq_or_of_lt hi, Nat.shiftLeft_eq]
  have hbits : (LuaValue.num ⟨UInt64.ofNat (numparams.toNat <<< 16 ||| i)⟩).toBits = numparams.toNat * 2^16 + i := by
    rw [hor]
    show (UInt64.ofNat (numparams.toNat * 2^16 + i)).toNat = _
    rw [UInt64.toNat_ofNat', Nat.mod_eq_of_lt]
    omega
  dsimp only
  rw [hbits, Nat.shiftRight_eq_div_pow]
  refine ⟨by omega, ?_⟩
  rw [show (0xffff : ℕ) = 2^16 - 1 from rfl, Nat.and_two_pow_sub_one_eq_mod]
  omega

section Frame
variable {tier : Tier} {b : IrBuf} {m : Machine Memory} {delta : ℕ} (hl : Later tier b m delta) (numparams : UInt8)
include hl

theorem Later.mask : (m.world.stack (m.cbase - 1)).toBits &&& FRAME_TYPE_MASK = FRAME_VARG := by
  rw [and_frameTypeMask, hl.link, FRAME_VARG]
  omega

theorem Later.delta_eq : (m.world.stack (m.cbase - 1)).toBits >>> 3 = delta := by
  rw [shiftRight_three, hl.link, FRAME_VARG]
  omega

/-- The interpreter gives the varargs of the frame. -/
theorem Later.results (a bc : UInt8) (hb : bc ≠ 0) :
    vargResults m numparams a bc = (List.range (bc.toNat - 1)).map (vararg m numparams delta) := by
  apply List.map_congr_left
  intro i hi
  have hi := List.mem_range.mp hi
  have htwo := hl.two_le
  have hbelow := hl.below
  simp only [opVarg, hl.mask, hl.delta_eq, not_true, ne_eq, if_false, hb]
  rw [if_neg (by omega), vararg]
  exact setVarargs_result (fun j hj => by omega) hi

/-- Machine code hands the helper the frame base, and the helper finds the same vararg. -/
theorem Later.jitVarg (htier : tier = .native) {link : ℕ} (hlink : link &&& FRAME_TYPE_MASK = FRAME_VARG) {i : ℕ}
    (hi : i < 2^16) :
    Ir.jitVarg m.world.word (m.env REF_BIAS).toBits link
      (LuaValue.num ⟨UInt64.ofNat (numparams.toNat <<< 16 ||| i)⟩).toBits = vararg m numparams delta i := by
  subst htier
  obtain ⟨hnp, hidx⟩ := packed_eq numparams hi
  have htwo := hl.two_le
  have hbelow := hl.below
  have hinside := hl.inside
  have hbase : (m.env REF_BIAS).toBits / 8 = m.world.rest.sp + m.cbase := by
    rw [hl.base]
    show (UInt64.ofNat (Tier.basePtr m .native)).toNat / 8 = _
    rw [UInt64.toNat_ofNat', Nat.mod_eq_of_lt hl.fits, Tier.basePtr]
    omega
  have hword : ∀ j, j < m.cbase → m.world.word (m.world.rest.sp + j) = m.world.stack j := by
    intro j hj
    rw [World.word, if_pos (by omega), Nat.add_sub_cancel_left]
  have hlast : m.world.word (m.world.rest.sp + m.cbase - 1) = m.world.stack (m.cbase - 1) := by
    rw [← hword _ (by omega)]
    congr 1
    omega
  simp only [Ir.jitVarg, hlink, hnp, hidx, hbase, hlast, hl.mask, hl.delta_eq, ne_eq, not_true, if_false, if_true]
  rw [vararg]
  by_cases hv : i < delta - 2 - numparams.toNat
  · rw [if_neg (by omega), if_pos hv, ← hword _ (by omega)]
    congr 1
    omega
  · rw [if_pos (by omega), if_neg hv]

end Frame

/-! ### The emitted calls -/

/-- What the helper gives for a packed index. -/
def helperValue (m : Machine Memory) (link : UInt64) (numparams : UInt8) (i : ℕ) : LuaValue :=
  jitVarg m.world.word (m.env REF_BIAS).toBits link.toNat
    (LuaValue.num ⟨UInt64.ofNat (numparams.toNat <<< 16 ||| i)⟩).toBits

section Emitted
variable {b c : IrBuf} {m m' : Machine Memory} {n : ℕ} {clink kl : ℕ} {link : UInt64} {numparams : UInt8}

theorem helperValue_after (hm : After m m' n) (hr : REF_BIAS < m.r) :
    helperValue m' link numparams = helperValue m link numparams := by
  funext i
  rw [helperValue, helperValue, hm.world, hm.env _ hr]

theorem vargLink_spec (hb : b.Ready (n + 1)) (link : UInt64) :
    (b.vargLink link).1.Ready n ∧ (b.vargLink link).2 = b.nins ∧ ∃ k, k < REF_BIAS ∧
      (b.vargLink link).1.constBits k = some (.num ⟨link⟩) ∧
      b.Grows (b.vargLink link).1 [.new .carg (plain .nil) REF_BIAS k] := by
  have hg : b.Grows (b.kint64 link).1 [] := IrBuf.Grows.intern (n := n) (.inr rfl) hb (.num ⟨link⟩) .i64
  have hr : (b.kint64 link).1.Ready n := IrBuf.Ready.intern (.inr rfl) hb (.num ⟨link⟩) .i64
  obtain ⟨-, -, -, hbits, hlt, -⟩ :=
    IrBuf.intern_spec (.inr rfl) (v := .num ⟨link⟩) hb.consts (by have := hb.room; omega) .i64
  have hcarg := IrBuf.Grows.emitIns (b := (b.kint64 link).1) (.new .carg (plain .nil) REF_BIAS (b.kint64 link).2) rfl
  exact ⟨hr.emitIns rfl, hg.nins, _, hlt, hcarg.keeps _ _ hbits, hg.trans hcarg⟩

theorem vargLoad_spec (hb : b.Ready (n + 1)) (clink : ℕ) (numparams : UInt8) (i : ℕ) (ty : IRTy) :
    let p := b.vargLoad clink numparams i ty
    p.1.Ready n ∧ p.2 = ⟨b.nins + 1, ty⟩ ∧ ∃ k, k < REF_BIAS ∧
      p.1.constBits k = some (.num ⟨UInt64.ofNat (numparams.toNat <<< 16 ||| i)⟩) ∧
      b.Grows p.1 [.new .carg (plain .nil) clink k, .new .calll (guarded ty) b.nins IRCALL_VARG] := by
  let u := UInt64.ofNat (numparams.toNat <<< 16 ||| i)
  have hg : b.Grows (b.kint64 u).1 [] := IrBuf.Grows.intern (n := n) (.inr rfl) hb (.num ⟨u⟩) .i64
  have hr : (b.kint64 u).1.Ready n := IrBuf.Ready.intern (.inr rfl) hb (.num ⟨u⟩) .i64
  obtain ⟨-, -, -, hbits, hlt, -⟩ :=
    IrBuf.intern_spec (.inr rfl) (v := .num ⟨u⟩) hb.consts (by have := hb.room; omega) .i64
  have hnins : (b.kint64 u).1.nins = b.nins := hg.nins
  have hcarg := IrBuf.Grows.emitIns (b := (b.kint64 u).1) (.new .carg (plain .nil) clink (b.kint64 u).2) rfl
  have hpair := hcarg.trans (IrBuf.Grows.emitIns (.new .calll (guarded ty) (b.kint64 u).1.nins IRCALL_VARG) rfl)
  refine ⟨(hr.emitIns rfl).emitIns rfl, ?_, (b.kint64 u).2, hlt, hpair.keeps _ _ hbits, ?_⟩
  · exact congrArg (fun r => TRef.mk r ty) (hcarg.nins.trans (by rw [hnins]; rfl))
  · rw [← hnins]
    exact hg.trans hpair

/-- One call: its value goes to its slot, and it leaves the trace if the type is another one. -/
theorem vargLoad_run (ty : IRTy) (numparams : UInt8) {k i : ℕ} (hr : m.r = b.nins) (hstarted : REF_BIAS < b.nins)
    (hcarg : carg c b.nins = some (clink, k)) (hclink : carg c clink = some (REF_BIAS, kl))
    (hkl : kl < REF_BIAS) (hlink : c.constBits kl = some (.num ⟨link⟩)) (hk : k < REF_BIAS)
    (hpacked : c.constBits k = some (.num ⟨UInt64.ofNat (numparams.toNat <<< 16 ||| i)⟩)) :
    ∃ m', After m m' 2 ∧ m'.env (b.nins + 1) = helperValue m link numparams i ∧ ∀ rest, runIns vargRuntime c
      (.new .carg (plain .nil) clink k :: .new .calll (guarded ty) b.nins IRCALL_VARG :: rest) m =
        if typecheck (helperValue m link numparams i) ty = true then runIns vargRuntime c rest m' else some none := by
  have hskip : evalIns vargRuntime c m (.new .carg (plain .nil) clink k) = some (.skip m.world) := rfl
  obtain ⟨m₁, hm₁, -, hrun₁⟩ := runIns_skip hskip
  let e : Effect Memory := .check m₁.world (helperValue m link numparams i)
    (typecheck (helperValue m link numparams i) ty)
  have hcall : evalIns vargRuntime c m₁ (.new .calll (guarded ty) b.nins IRCALL_VARG) = some e := by
    have hargs : callArgs c m₁ IRCALL_VARG b.nins = some [m.env REF_BIAS, .num ⟨link⟩,
        .num ⟨UInt64.ofNat (numparams.toNat <<< 16 ||| i)⟩] := by
      simp [callArgs, ircallArity, hcarg, hclink, readRef_const hkl hlink, readRef_const hk hpacked,
        readRef_ins (c := c) m₁.env (Nat.le_refl REF_BIAS), hm₁.env REF_BIAS (hr ▸ hstarted)]
    simp [evalIns, IRIns.new, hargs, vargRuntime, vargCall, guarded, IRIns.isGuard, e, hm₁.world, helperValue,
      LuaValue.toBits]
  refine ⟨commit m₁ e, hm₁.trans (after_commit rfl), ?_, fun rest => ?_⟩
  · have henv := commit_env (m := m₁) (e := e) rfl
    rwa [hm₁.r, hr] at henv
  · rw [hrun₁, runIns_cons hcall]
    by_cases hty : typecheck (helperValue m link numparams i) ty = true <;> simp [e, Effect.check, hty]

/-- The emitted calls of the wanted results in `is`. -/
theorem recVargs_run (v : ℕ → LuaValue) (nvarg clink kl : ℕ) (link : UInt64) (numparams : UInt8) (is : List ℕ) (hsmall : ∀ i ∈ is, i < 2^16) (b : IrBuf)
    (hb : b.Ready is.length) (hstarted : REF_BIAS < b.nins) :
    ∃ es, b.Grows (recVargs v clink numparams nvarg is b).1 es ∧ ∀ c es',
      (recVargs v clink numparams nvarg is b).1.Grows c es' → carg c clink = some (REF_BIAS, kl) → kl < REF_BIAS →
      c.constBits kl = some (.num ⟨link⟩) → c.constBits REF_NIL = some .nil → ∀ m : Machine Memory, m.r = b.nins →
      ((∀ i ∈ is, i < nvarg → typecheck (helperValue m link numparams i) (valueIrt (v i)) = true) →
        ∃ m', After m m' es.length ∧ runIns vargRuntime c es m = some (some m') ∧
          (recVargs v clink numparams nvarg is b).2.mapM (fun tr => readRef c m'.env tr.ref) =
            some (is.map fun i => if i < nvarg then helperValue m link numparams i else .nil)) ∧
      ((∃ i ∈ is, i < nvarg ∧ typecheck (helperValue m link numparams i) (valueIrt (v i)) = false) →
        runIns vargRuntime c es m = some none) := by
  induction is generalizing b with
  | nil =>
    refine ⟨[], .refl b, fun c es' hg hclink hkl hlink hnil m hr => ⟨fun _ => ⟨m, .refl m, rfl, rfl⟩, fun h => ?_⟩⟩
    obtain ⟨i, hi, -⟩ := h
    cases hi
  | cons i is ih =>
    have hsmall' : ∀ j ∈ is, j < 2^16 := fun j hj => hsmall j (List.mem_cons_of_mem _ hj)
    by_cases hi : i < nvarg
    · obtain ⟨hr₁, htr, k, hk, hpacked, hg₁⟩ := vargLoad_spec (n := is.length) hb clink numparams i (valueIrt (v i))
      have heq : recVargs v clink numparams nvarg (i :: is) b =
          ((recVargs v clink numparams nvarg is (b.vargLoad clink numparams i (valueIrt (v i))).1).1,
            (b.vargLoad clink numparams i (valueIrt (v i))).2 ::
              (recVargs v clink numparams nvarg is (b.vargLoad clink numparams i (valueIrt (v i))).1).2) := by
        rw [recVargs, if_pos hi]
      rw [heq, htr]
      generalize (b.vargLoad clink numparams i (valueIrt (v i))).1 = b₁ at *
      have hnins : b₁.nins = b.nins + 2 := hg₁.nins
      obtain ⟨es, hg₂, hrun⟩ := ih hsmall' b₁ hr₁ (by omega)
      refine ⟨_, hg₁.trans hg₂, fun c es' hg hclink hkl hlink hnil m hr => ?_⟩
      have hcarg : carg c b.nins = some (clink, k) := IrBuf.Grows.carg [] (hg₁.trans (hg₂.trans hg))
      obtain ⟨m₁, hm₁, henv, hstep⟩ := vargLoad_run (valueIrt (v i)) numparams hr hstarted hcarg
        hclink hkl hlink hk ((hg₂.trans hg).keeps _ _ hpacked)
      obtain ⟨hpass, hfail⟩ := hrun c es' hg hclink hkl hlink hnil m₁ (by rw [hm₁.r, hr, hnins])
      rw [helperValue_after hm₁ (hr ▸ hstarted)] at hpass hfail
      refine ⟨fun hall => ?_, fun hsome => ?_⟩
      · obtain ⟨m₂, hm₂, hrun₂, hread⟩ := hpass fun j hj => hall j (List.mem_cons_of_mem _ hj)
        refine ⟨m₂, List.length_append ▸ hm₁.trans hm₂, ?_, ?_⟩
        · rw [List.cons_append, List.cons_append, List.nil_append, hstep, if_pos (hall i (List.mem_cons_self ..) hi), hrun₂]
        · have hval : readRef c m₂.env (b.nins + 1) = some (helperValue m link numparams i) := by
            rw [readRef_ins _ (by have := b.nins_ge; omega), hm₂.env _ (by rw [hm₁.r, hr]; omega), henv]
          rw [List.mapM_cons, hval, hread, List.map_cons, if_pos hi]
          rfl
      · rw [List.cons_append, List.cons_append, List.nil_append, hstep]
        split
        · next hty =>
          apply hfail
          obtain ⟨j, hj, hjn, hjt⟩ := hsome
          cases List.mem_cons.mp hj with
          | inl heq =>
            rw [heq, hty] at hjt
            cases hjt
          | inr hmem => exact ⟨j, hmem, hjn, hjt⟩
        · rfl
    · have heq : recVargs v clink numparams nvarg (i :: is) b =
          ((recVargs v clink numparams nvarg is b).1, trefPri .nil :: (recVargs v clink numparams nvarg is b).2) := by
        rw [recVargs, if_neg hi]
      obtain ⟨es, hg, hrun⟩ := ih hsmall' b (hb.weaken (Nat.le_succ _)) hstarted
      rw [heq]
      refine ⟨es, hg, fun c es' hg' hclink hkl hlink hnil m hr => ?_⟩
      obtain ⟨hpass, hfail⟩ := hrun c es' hg' hclink hkl hlink hnil m hr
      refine ⟨fun hall => ?_, fun hsome => hfail ?_⟩
      · obtain ⟨m', hm', hrun', hread⟩ := hpass fun j hj => hall j (List.mem_cons_of_mem _ hj)
        refine ⟨m', hm', hrun', ?_⟩
        have hval : readRef c m'.env (trefPri .nil).ref = some .nil := readRef_const (by decide) hnil
        rw [List.mapM_cons, hval, hread, List.map_cons, if_neg hi]
        rfl
      · obtain ⟨j, hj, hjn, hjt⟩ := hsome
        cases List.mem_cons.mp hj with
        | inl heq => exact absurd (heq ▸ hjn) hi
        | inr hmem => exact ⟨j, hmem, hjn, hjt⟩

end Emitted

/-! ### Recorded varargs -/

section Recorded
variable {stack : ℕ → LuaValue} {base : ℕ} {numparams bc : UInt8} {b c : IrBuf} {trs : List TRef} {m : Machine Memory}

/-- The loaded varargs have the types of the recorded ones. -/
def Typed (stack : ℕ → LuaValue) (base : ℕ) (numparams bc : UInt8) (value : ℕ → LuaValue) : Prop :=
  ∀ i < bc.toNat - 1, i < recordedCount stack base numparams →
    typecheck (value i) (valueIrt (recordedVararg stack base numparams i)) = true

theorem recVarg_eq_some (hrec : recVarg stack base numparams bc b = some (c, trs)) :
    (frameLink stack base).toNat &&& FRAME_TYPE_MASK = FRAME_VARG ∧ bc ≠ 0 ∧
      recVargs (recordedVararg stack base numparams) (b.vargLink (frameLink stack base)).2 numparams
        (recordedCount stack base numparams) (List.range (bc.toNat - 1)) (b.vargLink (frameLink stack base)).1 =
          (c, trs) := by
  by_cases hmask : (frameLink stack base).toNat &&& FRAME_TYPE_MASK = FRAME_VARG
  · by_cases hbc : bc = 0
    · rw [recVarg, if_neg (not_not.mpr hmask), if_pos hbc] at hrec
      cases hrec
    · rw [recVarg, if_neg (not_not.mpr hmask), if_neg hbc] at hrec
      exact ⟨hmask, hbc, Option.some.inj hrec⟩
  · rw [recVarg, if_pos hmask] at hrec
    cases hrec

theorem recVarg_replay (hrec : recVarg stack base numparams bc b = some (c, trs)) (hb : b.Ready bc.toNat)
    (hstarted : REF_BIAS < b.nins) :
    bc ≠ 0 ∧ (frameLink stack base).toNat &&& FRAME_TYPE_MASK = FRAME_VARG ∧ ∀ m : Machine Memory, m.r = b.nins →
      (Typed stack base numparams bc (helperValue m (frameLink stack base) numparams) →
        replayVarg b c trs m = some (some ((List.range (bc.toNat - 1)).map fun i =>
          if i < recordedCount stack base numparams then helperValue m (frameLink stack base) numparams i
          else .nil))) ∧
      (¬ Typed stack base numparams bc (helperValue m (frameLink stack base) numparams) →
        replayVarg b c trs m = some none) := by
  obtain ⟨hmask, hbc, hp⟩ := recVarg_eq_some hrec
  refine ⟨hbc, hmask, fun m hr => ?_⟩
  have hpos : 0 < bc.toNat := Nat.pos_of_ne_zero fun h => hbc (UInt8.toNat_inj.mp h)
  have hlt : bc.toNat < 2^8 := bc.toNat_lt
  obtain ⟨hr₁, hclink, kl, hkl, hlink, hg₁⟩ := vargLink_spec (n := bc.toNat - 1)
    (by rwa [Nat.sub_add_cancel hpos]) (frameLink stack base)
  generalize b.vargLink (frameLink stack base) = p₁ at *
  have hnins : p₁.1.nins = b.nins + 1 := hg₁.nins
  obtain ⟨es, hg₂, hrun⟩ := recVargs_run (recordedVararg stack base numparams) (recordedCount stack base numparams)
    p₁.2 kl (frameLink stack base) numparams (List.range (bc.toNat - 1)) (fun i hi => by have := List.mem_range.mp hi; omega) p₁.1 (by simpa using hr₁)
    (by omega)
  rw [hp] at hg₂ hrun
  have hg := hg₁.trans hg₂
  have hcarg : carg c p₁.2 = some (REF_BIAS, kl) := hclink ▸ IrBuf.Grows.carg [] hg
  have hskip : evalIns vargRuntime c m (.new .carg (plain .nil) REF_BIAS kl) = some (.skip m.world) := rfl
  obtain ⟨m₁, hm₁, -, hstep⟩ := runIns_skip hskip
  obtain ⟨hpass, hfail⟩ := hrun c [] (.refl c) hcarg hkl (hg₂.keeps _ _ hlink) (hg.keeps _ _ hb.consts.nil) m₁
    (by rw [hm₁.r, hr, hnins])
  rw [helperValue_after hm₁ (hr ▸ hstarted)] at hpass hfail
  rw [replayVarg, runIns_grows hg, List.singleton_append, hstep]
  refine ⟨fun hty => ?_, fun hty => ?_⟩
  · obtain ⟨m₂, -, hrun₂, hread⟩ := hpass fun i hi hn => hty i (List.mem_range.mp hi) hn
    rw [hrun₂]
    simp only [Option.bind_eq_bind, Option.bind_some, hread, Option.map_some]
  · rw [hfail]
    · rfl
    · simp only [Typed, not_forall, Bool.not_eq_true] at hty
      obtain ⟨i, hi, hn, hi'⟩ := hty
      exact ⟨i, List.mem_range.mpr hi, hn, hi'⟩

/-- Machine code in a frame with `delta`: a guard leaves, or the registers that are taken for nil are nil. -/
def NativeHolds (stack : ℕ → LuaValue) (base : ℕ) (numparams bc : UInt8) (m : Machine Memory) (delta : ℕ) : Prop :=
  ¬ Typed stack base numparams bc (vararg m numparams delta) ∨
    ∀ i < bc.toNat - 1, recordedCount stack base numparams ≤ i → vararg m numparams delta i = .nil

theorem native_agrees_iff (hrec : recVarg stack base numparams bc b = some (c, trs)) (hb : b.Ready bc.toNat)
    (a : UInt8) {delta : ℕ} (hl : Later .native b m delta) :
    VargAgrees b c trs m numparams a bc ↔ NativeHolds stack base numparams bc m delta := by
  obtain ⟨hbc, hmask, hreplay⟩ := recVarg_replay hrec hb hl.started
  obtain ⟨hpass, hfail⟩ := hreplay m hl.r
  have hlt : bc.toNat < 2^8 := bc.toNat_lt
  have hvalue : ∀ i < bc.toNat - 1, helperValue m (frameLink stack base) numparams i = vararg m numparams delta i :=
    fun i hi => hl.jitVarg numparams rfl hmask (by omega)
  have htyped : Typed stack base numparams bc (helperValue m (frameLink stack base) numparams) ↔
      Typed stack base numparams bc (vararg m numparams delta) := by
    unfold Typed
    refine forall_congr' fun i => forall_congr' fun hi => ?_
    rw [hvalue i hi]
  unfold VargAgrees NativeHolds
  rw [hl.results numparams a bc hbc]
  by_cases hty : Typed stack base numparams bc (vararg m numparams delta)
  · rw [hpass (htyped.mpr hty)]
    simp only [Option.some.injEq, reduceCtorEq, false_or, hty, not_true]
    rw [List.map_inj_left]
    refine forall_congr' fun i => ?_
    rw [List.mem_range]
    refine forall_congr' fun hi => ?_
    by_cases hn : i < recordedCount stack base numparams
    · simp [hn, hvalue i hi]
    · rw [if_neg hn, eq_comm]
      exact ⟨fun h _ => h, fun h => h (Nat.le_of_not_lt hn)⟩
  · rw [hfail fun h => hty (htyped.mp h)]
    simp [hty]

/-! ### The portable executor -/

/-- A frame with the only vararg `x`, and a heap in which the helper finds the recorded varargs. -/
def misled (stack : ℕ → LuaValue) (base : ℕ) (numparams : UInt8) (b : IrBuf) (x : LuaValue) : Machine Memory where
  r := b.nins
  env _ := .num ⟨8⟩
  world :=
    { stack := fun p => if p = numparams.toNat + 2 then .num ⟨UInt64.ofNat (8 * (numparams.toNat + 3) + FRAME_VARG)⟩
        else x
      tables := fun _ => none
      rest :=
        { sp := 2^16, len := numparams.toNat + 3, heap := 1
          other := fun p => if p = 0 then .num ⟨0⟩
            else recordedVararg stack base numparams (p - 1 - numparams.toNat) } }
  cbase := numparams.toNat + 3
  clock := 0

theorem later_misled (stack : ℕ → LuaValue) (base : ℕ) (numparams : UInt8) (hstarted : REF_BIAS < b.nins)
    (x : LuaValue) :
    Later .portable b (misled stack base numparams b x) (numparams.toNat + 3) := by
  have hnp : numparams.toNat < 2^8 := numparams.toNat_lt
  refine ⟨rfl, hstarted, rfl, show 8 * 1 < 2^64 by decide, ?_, by omega, Nat.le_refl _, Nat.le_refl _⟩
  simp only [misled, Nat.add_succ_sub_one, if_true]
  show (UInt64.ofNat _).toNat = _
  rw [UInt64.toNat_ofNat', Nat.mod_eq_of_lt]
  rw [FRAME_VARG]
  omega

theorem helperValue_misled (x : LuaValue) (hmask : (frameLink stack base).toNat &&& FRAME_TYPE_MASK = FRAME_VARG)
    {i : ℕ} (hi : i < 2^8) (hn : i < recordedCount stack base numparams) :
    helperValue (misled stack base numparams b x) (frameLink stack base) numparams i =
      recordedVararg stack base numparams i := by
  have hnp : numparams.toNat < 2^8 := numparams.toNat_lt
  obtain ⟨hpar, hidx⟩ := packed_eq numparams (i := i) (by omega)
  have hword : ∀ p < 2^16, (misled stack base numparams b x).world.word p =
      if p = 0 then .num ⟨0⟩ else recordedVararg stack base numparams (p - 1 - numparams.toNat) := by
    intro p hp
    rw [World.word, if_neg (by simp only [misled]; omega)]
    rfl
  have hbase : ((misled stack base numparams b x).env REF_BIAS).toBits / 8 = 1 := by
    show (8 : UInt64).toNat / 8 = 1
    decide
  have hzero : (LuaValue.num ⟨0⟩).toBits &&& FRAME_TYPE_MASK ≠ FRAME_VARG := by decide
  rw [recordedCount] at hn
  simp only [helperValue, Ir.jitVarg, hmask, hpar, hidx, hbase, ne_eq, not_true, if_false, hword 0 (by decide),
    Nat.sub_self, if_true, hzero]
  rw [if_neg (by omega), hword _ (by omega), if_neg (by omega)]
  congr 1
  omega

theorem portable_agrees_iff (hrec : recVarg stack base numparams bc b = some (c, trs)) (hb : b.Ready bc.toNat)
    (hstarted : REF_BIAS < b.nins) (a : UInt8) :
    (∀ m delta, Later .portable b m delta → VargAgrees b c trs m numparams a bc) ↔ bc = 1 := by
  obtain ⟨hbc, hmask, hreplay⟩ := recVarg_replay hrec hb hstarted
  have hlt : bc.toNat < 2^8 := bc.toNat_lt
  refine ⟨fun hall => ?_, fun hone m delta hl => ?_⟩
  · by_contra hone
    have hwant : 0 < bc.toNat - 1 := by
      have h0 : bc.toNat ≠ 0 := fun h => hbc (UInt8.toNat_inj.mp h)
      have h1 : bc.toNat ≠ 1 := fun h => hone (UInt8.toNat_inj.mp h)
      omega
    -- The first register of the trace, and another value for the first vararg of the frame.
    let y : LuaValue := if 0 < recordedCount stack base numparams then recordedVararg stack base numparams 0 else .nil
    let x : LuaValue := if y = .bool true then .bool false else .bool true
    have hxy : x ≠ y := by
      show (if y = .bool true then LuaValue.bool false else .bool true) ≠ y
      split
      · next hy => simp [hy]
      · next hy => exact fun h => hy h.symm
    have hl := later_misled stack base numparams hstarted x
    have hval : ∀ i, i < bc.toNat - 1 → i < recordedCount stack base numparams →
        helperValue (misled stack base numparams b x) (frameLink stack base) numparams i =
          recordedVararg stack base numparams i := fun i hi hn => helperValue_misled x hmask (by omega) hn
    have hrun := (hreplay _ hl.r).1 fun i hi hn => by rw [hval i hi hn, typecheck_valueIrt]
    have hagrees := hall _ _ hl
    rw [VargAgrees, hrun, hl.results numparams a bc hbc] at hagrees
    simp only [Option.some.injEq, reduceCtorEq, false_or] at hagrees
    have hfirst := List.map_inj_left.mp hagrees 0 (List.mem_range.mpr hwant)
    have hx : vararg (misled stack base numparams b x) numparams (numparams.toNat + 3) 0 = x := by
      rw [vararg, if_pos (by omega)]
      simp only [misled]
      rw [if_neg (by omega)]
    rw [hx] at hfirst
    apply hxy
    rw [← hfirst]
    show _ = if 0 < recordedCount stack base numparams then recordedVararg stack base numparams 0 else LuaValue.nil
    split
    · next hn => exact hval 0 hwant hn
    · rfl
  · subst hone
    have hrun := (hreplay m hl.r).1 fun i hi => by cases hi
    exact .inr (by rw [hrun, hl.results numparams a 1 (by decide)]; rfl)

/-- Machine code agrees in exactly the frames where a guard leaves or the missing varargs are nil; the portable
executor agrees in all frames only if nothing is asked for. -/
theorem recordedVarg_agrees_iff (hrec : recVarg stack base numparams bc b = some (c, trs)) (hb : b.Ready bc.toNat)
    (hstarted : REF_BIAS < b.nins) (a : UInt8) :
    (∀ m delta, Later .native b m delta →
      (VargAgrees b c trs m numparams a bc ↔ NativeHolds stack base numparams bc m delta)) ∧
    ((∀ m delta, Later .portable b m delta → VargAgrees b c trs m numparams a bc) ↔ bc = 1) :=
  ⟨fun _ _ hl => native_agrees_iff hrec hb a hl, portable_agrees_iff hrec hb hstarted a⟩

end Recorded

namespace MoreVarargs

/-- One result of a frame without varargs. -/
def stack : ℕ → LuaValue := fun _ => .num ⟨8 * 2 + 3⟩

/-- The frame of a later call with the vararg true. -/
def later : Machine Memory where
  r := (IrBuf.new 0 0).nins
  env _ := .num ⟨8 * (16 + 5)⟩
  world :=
    { stack := fun p => if p = 4 then .num ⟨8 * 3 + 3⟩ else .bool true
      tables := fun _ => none
      rest := { sp := 16, len := 5, heap := 1, other := fun _ => .nil } }
  cbase := 5
  clock := 0

theorem later_native : Later .native (IrBuf.new 0 0) later 3 := by
  refine ⟨rfl, by decide, rfl, ?_, rfl, by decide, by decide, by decide⟩
  show 8 * (16 + 5) < 2^64
  decide

theorem exists_recVarg : ∃ c trs, recVarg stack 4 0 2 (IrBuf.new 0 0) = some (c, trs) := ⟨_, _, rfl⟩

theorem not_holds : ¬ NativeHolds stack 4 0 2 later 3 := by
  intro h
  cases h with
  | inl hty => exact hty fun i hi hn => absurd hn (Nat.not_lt_zero i)
  | inr hnil => exact absurd (hnil 0 (by decide) (Nat.le_refl 0)) (by decide)

theorem recordedVarg_agrees_more : ∃ c trs, recVarg stack 4 0 2 (IrBuf.new 0 0) = some (c, trs) ∧
    (VargAgrees (IrBuf.new 0 0) c trs later 0 0 2 ↔ NativeHolds stack 4 0 2 later 3) := by
  obtain ⟨c, trs, hrec⟩ := exists_recVarg
  exact ⟨c, trs, hrec, (recordedVarg_agrees_iff hrec (.new 0 0 (by decide)) (by decide) 0).1 later 3 later_native⟩

/-- The trace goes on with nil where the interpreter has true. -/
theorem missing_vararg_is_nil : ∃ c trs, recVarg stack 4 0 2 (IrBuf.new 0 0) = some (c, trs) ∧
    Later .native (IrBuf.new 0 0) later 3 ∧ ¬ VargAgrees (IrBuf.new 0 0) c trs later 0 0 2 := by
  obtain ⟨c, trs, hrec⟩ := exists_recVarg
  exact ⟨c, trs, hrec, later_native, fun h =>
    not_holds ((native_agrees_iff hrec (.new 0 0 (by decide)) 0 later_native).mp h)⟩

end MoreVarargs
end Ir
end LuajitRs
