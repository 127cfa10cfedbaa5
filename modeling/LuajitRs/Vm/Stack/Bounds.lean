import LuajitRs.Vm.Stack
import Mathlib.Logic.Relation

/-! Every frame lies on the stack as long as no request reaches the maximum and no tail call outgrows the
length. -/
namespace LuajitRs.Vm
open Relation (ReflTransGen)

namespace Thread
variable {t t' : Thread} {f : Frame} {rest : List Frame} {pt : Proto} {funcSlot nargs need : ℕ}

/-- What holds between two steps of a thread. -/
structure Fits (t : Thread) : Prop where
  len_le : t.len ≤ t.max
  asked : t.asked < t.len
  filled : t.filled < t.len
  frames : ∀ f ∈ t.frames, f.base + f.pt.framesize ≤ t.len
  callbase : ∀ f ∈ t.frames, 2 ≤ f.callbase

theorem new_fits (isMain : Bool) : (new isMain).Fits := by
  cases isMain <;> exact ⟨by decide, by decide, by decide, nofun, nofun⟩

/-! ### Requests and writes -/

theorem le_grow (need : ℕ) {len max : ℕ} (h : len ≤ max) : len ≤ grow len max need ∧ grow len max need ≤ max := by
  unfold grow
  split
  · simp only [Nat.min_def, Nat.max_def]
    split <;> split <;> omega
  · exact ⟨Nat.le_refl _, h⟩

/-- A request is met exactly when it is below the maximum. -/
theorem lt_grow_iff {len max : ℕ} (h : len ≤ max) : need < grow len max need ↔ need < max := by
  unfold grow
  split
  · simp only [Nat.min_def, Nat.max_def]
    split <;> split <;> omega
  · omega

theorem Fits.stackEnsure (h : t.Fits) (hneed : need < t.max) :
    (t.stackEnsure need).Fits ∧ need < (t.stackEnsure need).len ∧ t.len ≤ (t.stackEnsure need).len := by
  obtain ⟨hlen, hasked, hfilled, hframes, hcall⟩ := h
  obtain ⟨hge, hle⟩ := le_grow need hlen
  have hlt := (lt_grow_iff hlen).mpr hneed
  refine ⟨⟨hle, ?_, ?_, ?_, hcall⟩, hlt, hge⟩
  · exact Nat.max_lt.mpr ⟨Nat.lt_of_lt_of_le hasked hge, hlt⟩
  · exact Nat.lt_of_lt_of_le hfilled hge
  · exact fun f hf => Nat.le_trans (hframes f hf) hge

theorem Fits.ensureIf (h : t.Fits) (hroom : need ≤ t.len ∨ need < t.max) :
    (t.ensureIf need).Fits ∧ need ≤ (t.ensureIf need).len ∧ t.len ≤ (t.ensureIf need).len := by
  unfold Thread.ensureIf
  split
  next hlen =>
    obtain ⟨hfits, hlt, hle⟩ := h.stackEnsure (hroom.resolve_left (Nat.not_le.mpr hlen))
    exact ⟨hfits, Nat.le_of_lt hlt, hle⟩
  next hlen => exact ⟨h, Nat.not_lt.mp hlen, Nat.le_refl _⟩

theorem write_ok {lo hi : ℕ} (h : hi ≤ t.len) : t.write lo hi = .ok () := if_pos (.inr h)

theorem write_bind {α : Type} {lo hi : ℕ} (h : hi ≤ t.len) (k : Except Fault α) :
    (t.write lo hi >>= fun _ => k) = k := by
  rw [write_ok h]
  rfl

theorem Fits.push (h : t.Fits) (hbase : f.base + f.pt.framesize ≤ t.len) (hcall : 2 ≤ f.callbase) :
    (t.push f).Fits := by
  refine ⟨h.len_le, h.asked, Nat.zero_lt_of_lt h.filled, ?_, ?_⟩
  · intro g hg
    cases List.mem_cons.mp hg with
    | inl he => exact he ▸ hbase
    | inr hmem => exact h.frames g hmem
  · intro g hg
    cases List.mem_cons.mp hg with
    | inl he => exact he ▸ hcall
    | inr hmem => exact h.callbase g hmem

theorem Fits.fill (h : t.Fits) {n : ℕ} (hn : n < t.len) : ({ t with filled := n } : Thread).Fits :=
  ⟨h.len_le, h.asked, hn, h.frames, h.callbase⟩

theorem Fits.sublist (h : t.Fits) {fs : List Frame} (hfs : ∀ f ∈ fs, f ∈ t.frames) :
    ({ t with frames := fs } : Thread).Fits :=
  ⟨h.len_le, h.asked, h.filled, fun f hf => h.frames f (hfs f hf), fun f hf => h.callbase f (hfs f hf)⟩

/-! ### Lua functions -/

/-- The end of what a call of a Lua function writes, and of its frame. -/
def entryEnd (pt : Proto) (funcSlot nargs : ℕ) : ℕ :=
  if pt.vararg then funcSlot + 2 + nargs + 2 + pt.numparams + pt.framesize + 1 else funcSlot + 2 + pt.framesize

theorem Fits.enterLuaSansEnsure (h : t.Fits) (hend : entryEnd pt funcSlot nargs ≤ t.len) :
    ∃ t', t.enterLuaSansEnsure pt funcSlot nargs = .ok t' ∧ t'.Fits ∧ t'.len = t.len := by
  have hparams := pt.numparams_le
  unfold entryEnd at hend
  unfold Thread.enterLuaSansEnsure
  dsimp only
  rw [write_bind (by split at hend <;> omega)]
  split
  next hv =>
    rw [if_pos hv] at hend
    rw [write_bind (by omega), write_bind (by omega), write_bind (by omega), write_bind (by omega)]
    refine ⟨_, rfl, h.push ?_ ?_, rfl⟩
    · show funcSlot + 2 + nargs + 2 + pt.framesize ≤ t.len
      omega
    · show 2 ≤ funcSlot + 2 + nargs + 2 - (nargs + 2)
      omega
  next hv =>
    rw [if_neg hv] at hend
    rw [write_bind (by omega)]
    refine ⟨_, rfl, h.push hend ?_, rfl⟩
    show 2 ≤ funcSlot + 2 - 0
    omega

theorem entryEnd_lt_enterLuaNeed : entryEnd pt funcSlot nargs < enterLuaNeed pt funcSlot nargs := by
  unfold entryEnd enterLuaNeed
  split <;> omega

theorem entryEnd_lt_callNeed (pt : Proto) (funcSlot nargs : ℕ) : entryEnd pt funcSlot nargs < callNeed pt funcSlot nargs := by
  unfold entryEnd callNeed
  split <;> omega

theorem Fits.enterLua (h : t.Fits) (hneed : enterLuaNeed pt funcSlot nargs < t.max) :
    ∃ t', t.enterLua pt funcSlot nargs = .ok t' ∧ t'.Fits := by
  obtain ⟨hfits, hlt, -⟩ := h.stackEnsure hneed
  obtain ⟨t', ht, hfits', -⟩ := hfits.enterLuaSansEnsure
    (Nat.le_of_lt (Nat.lt_trans entryEnd_lt_enterLuaNeed hlt))
  exact ⟨t', ht, hfits'⟩

/-- The checked path: a frame that fits, or the error when the maximum is exceeded. -/
theorem Fits.callLuaFast (h : t.Fits) (hroom : callNeed pt funcSlot nargs ≤ t.len ∨ callNeed pt funcSlot nargs ≠ t.max) :
    (callNeed pt funcSlot nargs ≤ t.max ∧ ∃ t', t.callLuaFast pt funcSlot nargs = .ok t' ∧ t'.Fits) ∨
      (t.max < callNeed pt funcSlot nargs ∧ t.callLuaFast pt funcSlot nargs = .error .stackOverflow) := by
  have hend := entryEnd_lt_callNeed pt funcSlot nargs
  unfold Thread.callLuaFast
  dsimp only
  split
  next hmax => exact .inr ⟨hmax, rfl⟩
  next hmax =>
    obtain ⟨hfits, hlen, -⟩ := h.ensureIf (show callNeed pt funcSlot nargs ≤ t.len ∨ callNeed pt funcSlot nargs < t.max by omega)
    obtain ⟨t', ht, hfits', -⟩ := hfits.enterLuaSansEnsure (Nat.le_trans (Nat.le_of_lt hend) hlen)
    exact .inl ⟨Nat.not_lt.mp hmax, t', ht, hfits'⟩

theorem metaCall_bind {α : Type} (h : funcSlot + 2 + nargs < t.len) (k : Except Fault α) :
    (t.metaCall funcSlot nargs >>= fun _ => k) = k := write_bind (by omega) k

theorem Fits.execute (h : t.Fits) (hsafe : funcSlot + nargs + STACK_SAFETY < t.max)
    (hneed : enterLuaNeed pt funcSlot nargs < t.max) : ∃ t', t.execute pt funcSlot nargs = .ok t' ∧ t'.Fits :=
  (h.stackEnsure hsafe).1.enterLua hneed

theorem Fits.executeMeta (h : t.Fits) (hsafe : funcSlot + nargs + STACK_SAFETY < t.max)
    (hneed : enterLuaNeed pt funcSlot (nargs + 1) < t.max) :
    ∃ t', t.executeMeta pt funcSlot nargs = .ok t' ∧ t'.Fits := by
  obtain ⟨hfits, hlt, -⟩ := h.stackEnsure hsafe
  unfold Thread.executeMeta
  dsimp only
  have hsafety : STACK_SAFETY = 64 := rfl
  rw [metaCall_bind (by omega)]
  exact hfits.enterLua hneed

theorem Fits.mmcallCont (h : t.Fits)
    (hneed : Max.max (f.base + f.pt.framesize + 2 + 2 + nargs + 16)
      (enterLuaNeed pt (f.base + f.pt.framesize + 2) nargs) < t.max) :
    ∃ t', t.mmcallCont f pt nargs = .ok t' ∧ t'.Fits := by
  obtain ⟨hfits, hlt, -⟩ := h.stackEnsure hneed
  obtain ⟨hlt₁, hlt₂⟩ := Nat.max_lt.mp hlt
  unfold Thread.mmcallCont
  dsimp only
  rw [write_bind (by omega), write_bind (by omega)]
  obtain ⟨t', ht, hfits', -⟩ := hfits.enterLuaSansEnsure (Nat.le_of_lt (Nat.lt_trans entryEnd_lt_enterLuaNeed hlt₂))
  exact ⟨t', ht, hfits'⟩

/-! ### C functions and returns -/

/-- The requests of a call of a C function. -/
def CallCRoomy (t : Thread) (funcSlot nargs own n : ℕ) : Prop :=
  funcSlot + 2 + nargs + 8 < t.max ∧ own < t.max ∧ funcSlot + n + 8 < t.max

theorem Fits.callC {own n : ℕ} (h : t.Fits) (hroom : t.CallCRoomy funcSlot nargs own n) :
    ∃ t', t.callC funcSlot nargs own n = .ok t' ∧ t'.Fits ∧ t'.filled = funcSlot + n ∧ t'.frames = t.frames := by
  obtain ⟨hargs, hown, hres⟩ := hroom
  obtain ⟨hfits₁, hlt₁, -⟩ := h.stackEnsure hargs
  obtain ⟨hfits₂, -, -⟩ := hfits₁.stackEnsure hown
  obtain ⟨hfits₃, hlt₃, -⟩ := hfits₂.stackEnsure (Nat.max_lt.mpr ⟨hres, hargs⟩)
  obtain ⟨hlt₃, -⟩ := Nat.max_lt.mp hlt₃
  unfold Thread.callC
  dsimp only
  rw [write_bind (by omega), write_bind (by omega)]
  exact ⟨_, rfl, hfits₃.fill (by omega), rfl, rfl⟩

theorem Fits.executeC {own n : ℕ} (h : t.Fits) (hsafe : funcSlot + nargs + STACK_SAFETY < t.max)
    (hroom : t.CallCRoomy funcSlot nargs own n) : ∃ t', t.executeC funcSlot nargs own n = .ok t' ∧ t'.Fits := by
  obtain ⟨t', ht, hfits, -⟩ := (h.stackEnsure hsafe).1.callC hroom
  exact ⟨t', ht, hfits⟩

theorem Fits.executeCMeta {own n : ℕ} (h : t.Fits) (hsafe : funcSlot + nargs + STACK_SAFETY < t.max)
    (hroom : t.CallCRoomy funcSlot (nargs + 1) own n) :
    ∃ t', t.executeCMeta funcSlot nargs own n = .ok t' ∧ t'.Fits := by
  obtain ⟨hfits, hlt, -⟩ := h.stackEnsure hsafe
  have hsafety : STACK_SAFETY = 64 := rfl
  unfold Thread.executeCMeta
  dsimp only
  rw [metaCall_bind (by omega)]
  obtain ⟨t', ht, hfits', -⟩ := hfits.callC hroom
  exact ⟨t', ht, hfits'⟩

theorem Fits.doReturn {src n : ℕ} (h : t.Fits) (hfs : ∀ g ∈ rest, g ∈ t.frames) (hcall : 2 ≤ f.callbase)
    (hsrc : f.callbase ≤ src) (hn : src + n ≤ t.len) : ∃ t', t.doReturn f rest n = .ok t' ∧ t'.Fits := by
  unfold Thread.doReturn
  dsimp only
  rw [write_bind (by omega)]
  exact ⟨_, rfl, (h.sublist hfs).fill (by show f.callbase - 2 + n < t.len; omega)⟩

/-! ### Tail calls -/

theorem Fits.replace (h : t.Fits) {g : Frame} (hfs : ∀ g ∈ rest, g ∈ t.frames)
    (hbase : g.base + g.pt.framesize ≤ t.len) (hcall : 2 ≤ g.callbase) :
    ({ t with frames := g :: rest, filled := 0 } : Thread).Fits :=
  (h.sublist hfs).push hbase hcall

theorem Fits.tailFast {a : ℕ} (h : t.Fits) (hf : f ∈ t.frames) (hfs : ∀ g ∈ rest, g ∈ t.frames)
    (hdelta : f.delta = none)
    (hroom : f.base + Max.max a nargs + pt.framesize + 8 ≤ t.len ∨
      f.base + Max.max a nargs + pt.framesize + 8 < t.max) :
    ∃ t', t.tailFast f rest pt a nargs = .ok t' ∧ t'.Fits := by
  have hparams := pt.numparams_le
  have hcall : 2 ≤ f.base := by simpa [Frame.callbase, hdelta] using h.callbase f hf
  obtain ⟨hfits, hlen, -⟩ := h.ensureIf hroom
  unfold Thread.tailFast
  dsimp only
  rw [write_bind (by omega), write_bind (by omega), write_bind (by omega)]
  refine ⟨_, rfl, hfits.replace (fun g hg => ?_) (show f.base + pt.framesize ≤ _ by omega) hcall⟩
  unfold Thread.ensureIf
  split <;> exact hfs g hg

/-- A tail call that takes the slow route fits when its frame does. -/
def TailRoomy (t : Thread) (f : Frame) (pt : Proto) (nargs : ℕ) : Prop :=
  if pt.vararg then enterLuaNeed pt (f.callbase - 2) nargs < t.max else f.callbase + pt.framesize ≤ t.len

theorem Fits.doTailcall (h : t.Fits) (hf : f ∈ t.frames) (hfs : ∀ g ∈ rest, g ∈ t.frames)
    (hargs : f.callbase + nargs ≤ t.len) (hroom : t.TailRoomy f pt nargs) :
    ∃ t', t.doTailcall f rest pt nargs = .ok t' ∧ t'.Fits := by
  have hparams := pt.numparams_le
  have hcall := h.callbase f hf
  unfold TailRoomy at hroom
  unfold Thread.doTailcall
  dsimp only
  rw [write_bind hargs, write_bind (by omega)]
  split
  next hv =>
    rw [if_pos hv] at hroom
    exact (h.sublist hfs).enterLua hroom
  next hv =>
    rw [if_neg hv] at hroom
    rw [write_bind (by omega)]
    exact ⟨_, rfl, h.replace hfs hroom hcall⟩

/-! ### Varargs and resumes -/

def VargRoomy (t : Thread) (f : Frame) (a : ℕ) : Prop :=
  ∀ delta, f.delta = some delta → (vargNeed f delta a).1 ≤ t.len ∨ (vargNeed f delta a).1 < t.max

theorem Fits.opVarg {a b : ℕ} (h : t.Fits) (hf : f ∈ t.frames) (hb : b ≠ 0 → a + (b - 1) ≤ f.pt.framesize)
    (hroom : t.VargRoomy f a) : ∃ t', t.opVarg f a b = .ok t' ∧ t'.Fits := by
  have hframe := h.frames f hf
  have hpos := Nat.zero_lt_of_lt h.filled
  unfold Thread.opVarg
  split
  · exact ⟨t, rfl, h⟩
  next delta hdelta =>
    split
    · exact ⟨_, rfl, h.fill hpos⟩
    obtain ⟨hfits, hlen, hle⟩ := h.ensureIf (hroom delta hdelta)
    simp only [vargNeed] at hlen
    dsimp only [vargNeed] at hfits hle ⊢
    split
    · rw [write_bind (by omega)]
      exact ⟨_, rfl, hfits.fill (by omega)⟩
    next hb' =>
      have hb := hb hb'
      rw [write_bind (by omega)]
      exact ⟨_, rfl, hfits⟩

theorem Fits.resumeStart {entry : Thread → Except Fault Thread} (h : t.Fits) (hargs : nargs + 16 < t.max)
    (hentry : ∀ u : Thread, u.Fits → u.max = t.max → ∃ t', entry u = .ok t' ∧ t'.Fits) :
    ∃ t', t.resumeStart entry nargs = .ok t' ∧ t'.Fits := by
  obtain ⟨hfits, hlt, -⟩ := h.stackEnsure hargs
  unfold Thread.resumeStart
  dsimp only
  rw [write_bind (by omega), write_bind (by omega)]
  exact hentry _ hfits rfl

theorem Fits.resumeCall {slot : ℕ} {want : Option ℕ} {isProtected : Bool} (h : t.Fits)
    (hwant : isProtected = false → ∀ w ∈ want, slot + w ≤ t.len) (hroom : slot + 2 + nargs < t.max) :
    ∃ t', t.resumeCall slot want isProtected nargs = .ok t' ∧ t'.Fits := by
  obtain ⟨hfits, hlt, hle⟩ := h.stackEnsure hroom
  unfold Thread.resumeCall
  dsimp only
  rw [write_bind (by omega)]
  split
  · rw [write_bind (by omega)]
    exact ⟨_, rfl, hfits.fill (by omega)⟩
  next hprot =>
    cases want with
    | some w =>
      have := hwant (by simpa using hprot) w rfl
      dsimp only
      rw [write_bind (by omega)]
      exact ⟨_, rfl, hfits⟩
    | none =>
      dsimp only
      rw [write_bind (by omega)]
      exact ⟨_, rfl, hfits.fill (by omega)⟩

theorem Fits.resumeReturn {slot : ℕ} (h : t.Fits) (hf : f ∈ t.frames) (hfs : ∀ g ∈ rest, g ∈ t.frames)
    (hslot : f.callbase ≤ slot) (hroom : slot + 2 + nargs < t.max) :
    ∃ t', t.resumeReturn f rest slot nargs = .ok t' ∧ t'.Fits := by
  obtain ⟨hfits, hlt, -⟩ := h.stackEnsure hroom
  unfold Thread.resumeReturn
  dsimp only
  rw [write_bind (by omega), write_bind (by omega)]
  exact hfits.doReturn hfs (h.callbase f hf) hslot (show slot + nargs ≤ _ by omega)

/-! ### Steps -/

/-- The end of the slots of the frame, and of open results above it. -/
def extent (t : Thread) (f : Frame) : ℕ := Max.max (f.base + f.pt.framesize) t.filled

/-- The arguments of a call instruction lie in the frame or among open results. -/
def ArgsPlaced (t : Thread) (f : Frame) (a nargs : ℕ) : Prop := f.base + a + 2 + nargs ≤ t.extent f

/-- What the compiled code and the host see to: where arguments and results lie. -/
def Enabled (t : Thread) : Action → Prop
  | .call _ a nargs | .callMeta _ a nargs | .callC a nargs _ _ | .callCMeta a nargs _ _
  | .tail _ a nargs | .tailMeta _ a nargs | .tailC a nargs _ _ | .tailCMeta a nargs _ _ =>
    ∃ f rest, t.frames = f :: rest ∧ t.ArgsPlaced f a nargs
  | .tailFast _ a nargs => ∃ f rest, t.frames = f :: rest ∧ t.ArgsPlaced f a nargs ∧ f.delta = none
  | .varg a b => ∃ f rest, t.frames = f :: rest ∧ (b ≠ 0 → a + (b - 1) ≤ f.pt.framesize)
  | .mmcall _ _ => t.frames ≠ []
  | .execute _ funcSlot nargs | .executeMeta _ funcSlot nargs | .executeC funcSlot nargs _ _
  | .executeCMeta funcSlot nargs _ _ => funcSlot + 2 + nargs ≤ t.len
  | .start _ _ | .startC _ _ _ => t.frames = []
  | .resumeCall slot want isProtected _ =>
    ∃ f rest, t.frames = f :: rest ∧ (isProtected = false → ∀ w ∈ want, slot + w ≤ f.base + f.pt.framesize)
  | .resumeReturn slot _ => ∃ f rest, t.frames = f :: rest ∧ f.base ≤ slot
  | .ret src n => ∃ f rest, t.frames = f :: rest ∧ f.base ≤ src ∧ src + n ≤ t.extent f
  | .unwind _ => t.frames ≠ []

/-- The step stays below the maximum, and what it adds without a request fits into the length. -/
def Roomy (t : Thread) : Action → Prop
  | .call pt a nargs =>
    callNeed pt (t.cur.base + a) nargs ≤ t.len ∨ callNeed pt (t.cur.base + a) nargs ≠ t.max
  | .callMeta pt a nargs =>
    t.cur.base + a + 2 + nargs < t.len ∧ enterLuaNeed pt (t.cur.base + a) (nargs + 1) < t.max
  | .callC a nargs own n | .tailC a nargs own n => t.CallCRoomy (t.cur.base + a) nargs own n
  | .callCMeta a nargs own n | .tailCMeta a nargs own n =>
    t.cur.base + a + 2 + nargs < t.len ∧ t.CallCRoomy (t.cur.base + a) (nargs + 1) own n
  | .tailFast pt a nargs =>
    t.cur.base + Max.max a nargs + pt.framesize + 8 ≤ t.len ∨
      t.cur.base + Max.max a nargs + pt.framesize + 8 < t.max
  | .tail pt _ nargs => t.TailRoomy t.cur pt nargs
  | .tailMeta pt a nargs => t.cur.base + a + 2 + nargs < t.len ∧ t.TailRoomy t.cur pt (nargs + 1)
  | .varg a _ => t.VargRoomy t.cur a
  | .mmcall pt nargs =>
    Max.max (t.cur.base + t.cur.pt.framesize + 2 + 2 + nargs + 16)
      (enterLuaNeed pt (t.cur.base + t.cur.pt.framesize + 2) nargs) < t.max
  | .resumeCall slot _ _ nargs | .resumeReturn slot nargs => slot + 2 + nargs < t.max
  | .execute pt funcSlot nargs =>
    funcSlot + nargs + STACK_SAFETY < t.max ∧ enterLuaNeed pt funcSlot nargs < t.max
  | .executeMeta pt funcSlot nargs =>
    funcSlot + nargs + STACK_SAFETY < t.max ∧ enterLuaNeed pt funcSlot (nargs + 1) < t.max
  | .executeC funcSlot nargs own n =>
    funcSlot + nargs + STACK_SAFETY < t.max ∧ t.CallCRoomy funcSlot nargs own n
  | .executeCMeta funcSlot nargs own n =>
    funcSlot + nargs + STACK_SAFETY < t.max ∧ t.CallCRoomy funcSlot (nargs + 1) own n
  | .start pt nargs =>
    nargs + 16 < t.max ∧ 0 + nargs + STACK_SAFETY < t.max ∧ enterLuaNeed pt 0 nargs < t.max
  | .startC nargs own n =>
    nargs + 16 < t.max ∧ 0 + nargs + STACK_SAFETY < t.max ∧ t.CallCRoomy 0 nargs own n
  | .ret _ _ | .unwind _ => True

theorem Fits.stepHost {a : Action} (h : t.Fits) (hroom : t.Roomy a) : ∃ t', t.stepHost a = .ok t' ∧ t'.Fits := by
  cases a with
  | execute pt funcSlot nargs => exact h.execute hroom.1 hroom.2
  | executeMeta pt funcSlot nargs => exact h.executeMeta hroom.1 hroom.2
  | executeC funcSlot nargs own n => exact h.executeC hroom.1 hroom.2
  | executeCMeta funcSlot nargs own n => exact h.executeCMeta hroom.1 hroom.2
  | start pt nargs =>
    show ∃ t', t.resumeStart (·.execute pt 0 nargs) nargs = .ok t' ∧ t'.Fits
    refine h.resumeStart hroom.1 fun u hu hmax => ?_
    exact hu.execute (hmax ▸ hroom.2.1) (hmax ▸ hroom.2.2)
  | startC nargs own n =>
    show ∃ t', t.resumeStart (·.executeC 0 nargs own n) nargs = .ok t' ∧ t'.Fits
    refine h.resumeStart hroom.1 fun u hu hmax => hu.executeC (hmax ▸ hroom.2.1) ?_
    unfold CallCRoomy
    rw [hmax]
    exact hroom.2.2
  | _ => exact ⟨t, rfl, h⟩

theorem Fits.extent_le (h : t.Fits) (hf : f ∈ t.frames) : t.extent f ≤ t.len :=
  Nat.max_le.mpr ⟨h.frames f hf, Nat.le_of_lt h.filled⟩

theorem callbase_le (f : Frame) : f.callbase ≤ f.base := Nat.sub_le _ _

/-- What a roomy step comes to: it fits again, or it is a call that exceeds the maximum and is refused. -/
theorem Fits.step {a : Action} (h : t.Fits) (hen : t.Enabled a) (hroom : t.Roomy a) :
    (∃ t', t.step a = .ok t' ∧ t'.Fits) ∨
      ∃ pt r nargs, a = .call pt r nargs ∧ t.max < callNeed pt (t.cur.base + r) nargs ∧
        t.step a = .error .stackOverflow := by
  cases hfs : t.frames with
  | nil =>
    have hstep : t.step a = t.stepHost a := by simp only [Thread.step, hfs]
    rw [hstep]
    cases a with
    | mmcall | unwind => exact absurd hfs hen
    | execute | executeMeta | executeC | executeCMeta | start | startC => exact .inl (h.stepHost hroom)
    | _ =>
      obtain ⟨f, rest, hf, -⟩ := hen
      rw [hfs] at hf
      cases hf
  | cons f rest =>
    have hcur : t.cur = f := by simp [cur, hfs]
    have hf : f ∈ t.frames := by simp [hfs]
    have hrest : ∀ g ∈ rest, g ∈ t.frames := fun g hg => by simp [hfs, hg]
    have hext := h.extent_le hf
    have hbase := callbase_le f
    have hplaced : ∀ r nargs, (∃ f rest, t.frames = f :: rest ∧ t.ArgsPlaced f r nargs) →
        f.base + r + 2 + nargs ≤ t.len := by
      intro r nargs hargs
      obtain ⟨g, rest', hg, hargs⟩ := hargs
      obtain ⟨rfl, -⟩ := List.cons.inj (hfs.symm.trans hg)
      exact Nat.le_trans hargs hext
    have hstep : t.step a = t.stepIn f rest a := by simp only [Thread.step, hfs]
    rw [hstep]
    have hhost := hroom
    unfold Roomy at hroom
    cases a with
    | call pt r nargs =>
      rw [hcur] at hroom ⊢
      cases h.callLuaFast hroom with
      | inl hok => exact .inl hok.2
      | inr herr => exact .inr ⟨pt, r, nargs, rfl, herr⟩
    | callMeta pt r nargs =>
      rw [hcur] at hroom
      left
      dsimp only [stepIn]
      rw [metaCall_bind hroom.1]
      exact h.enterLua hroom.2
    | callC r nargs own n =>
      rw [hcur] at hroom
      obtain ⟨t', ht, hfits, -⟩ := h.callC hroom
      exact .inl ⟨t', ht, hfits⟩
    | callCMeta r nargs own n =>
      rw [hcur] at hroom
      left
      dsimp only [stepIn]
      rw [metaCall_bind hroom.1]
      obtain ⟨t', ht, hfits, -⟩ := h.callC hroom.2
      exact ⟨t', ht, hfits⟩
    | tailFast pt r nargs =>
      rw [hcur] at hroom
      obtain ⟨g, rest', hg, -, hdelta⟩ := hen
      obtain ⟨rfl, -⟩ := List.cons.inj (hfs.symm.trans hg)
      exact .inl (h.tailFast hf hrest hdelta hroom)
    | tail pt r nargs =>
      rw [hcur] at hroom
      have := hplaced r nargs hen
      exact .inl (h.doTailcall hf hrest (by omega) hroom)
    | tailMeta pt r nargs =>
      rw [hcur] at hroom
      left
      dsimp only [stepIn]
      rw [metaCall_bind hroom.1]
      exact h.doTailcall hf hrest (by omega) hroom.2
    | tailC r nargs own n =>
      rw [hcur] at hroom
      left
      obtain ⟨t', ht, hfits, hfilled, hframes⟩ := h.callC hroom
      have hlt := hfits.filled
      dsimp only [stepIn]
      rw [ht]
      exact hfits.doReturn (hframes ▸ hrest) (h.callbase f hf) (show f.callbase ≤ f.base + r by omega)
        (by omega)
    | tailCMeta r nargs own n =>
      rw [hcur] at hroom
      left
      obtain ⟨t', ht, hfits, hfilled, hframes⟩ := h.callC hroom.2
      have hlt := hfits.filled
      dsimp only [stepIn]
      rw [metaCall_bind hroom.1, ht]
      exact hfits.doReturn (hframes ▸ hrest) (h.callbase f hf) (show f.callbase ≤ f.base + r by omega)
        (by omega)
    | varg r b =>
      rw [hcur] at hroom
      obtain ⟨g, rest', hg, hb⟩ := hen
      obtain ⟨rfl, -⟩ := List.cons.inj (hfs.symm.trans hg)
      exact .inl (h.opVarg hf hb hroom)
    | mmcall pt nargs =>
      rw [hcur] at hroom
      exact .inl (h.mmcallCont hroom)
    | execute | executeMeta | executeC | executeCMeta | start | startC => exact .inl (h.stepHost hhost)
    | resumeCall slot want isProtected nargs =>
      obtain ⟨g, rest', hg, hwant⟩ := hen
      obtain ⟨rfl, -⟩ := List.cons.inj (hfs.symm.trans hg)
      exact .inl (h.resumeCall (fun hp w hw => Nat.le_trans (hwant hp w hw) (h.frames f hf)) hroom)
    | resumeReturn slot nargs =>
      obtain ⟨g, rest', hg, hslot⟩ := hen
      obtain ⟨rfl, -⟩ := List.cons.inj (hfs.symm.trans hg)
      exact .inl (h.resumeReturn hf hrest (Nat.le_trans hbase hslot) hroom)
    | ret src n =>
      obtain ⟨g, rest', hg, hsrc, hn⟩ := hen
      obtain ⟨rfl, -⟩ := List.cons.inj (hfs.symm.trans hg)
      exact .inl (h.doReturn hrest (h.callbase f hf) (Nat.le_trans hbase hsrc) (Nat.le_trans hn hext))
    | unwind k =>
      exact .inl ⟨_, rfl, (h.sublist fun g hg => List.mem_of_mem_drop hg).fill (Nat.zero_lt_of_lt h.filled)⟩

/-! ### Runs -/

/-- A step that the code may take, stays below the maximum and is not refused. -/
def RoomyStep (t t' : Thread) : Prop := ∃ a, t.Enabled a ∧ t.Roomy a ∧ t.step a = .ok t'

theorem Fits.run (h : t.Fits) (hr : ReflTransGen RoomyStep t t') : t'.Fits := by
  induction hr with
  | refl => exact h
  | tail _ hstep ih =>
    obtain ⟨a, hen, hroom, hstep⟩ := hstep
    cases ih.step hen hroom with
    | inl hok =>
      obtain ⟨u, hu, hfits⟩ := hok
      obtain rfl := Except.ok.inj (hu.symm.trans hstep)
      exact hfits
    | inr herr =>
      obtain ⟨pt, r, nargs, -, -, herr⟩ := herr
      cases herr.symm.trans hstep

/-- In every run of roomy steps the frames lie on the stack and every request was met; the next roomy step
writes no slot outside, and it is refused exactly when it is a call that would exceed the maximum. -/
theorem stack_bounds {isMain : Bool} (hr : ReflTransGen RoomyStep (new isMain) t) :
    (∀ f ∈ t.frames, f.base + f.pt.framesize ≤ t.len) ∧ t.asked < t.len ∧ t.len ≤ t.max ∧
    ∀ a, t.Enabled a → t.Roomy a →
      t.step a ≠ .error .outOfBounds ∧
      (t.step a = .error .stackOverflow ↔
        ∃ pt r nargs, a = .call pt r nargs ∧ t.max < callNeed pt (t.cur.base + r) nargs) := by
  have h := (new_fits isMain).run hr
  refine ⟨h.frames, h.asked, h.len_le, fun a hen hroom => ?_⟩
  cases h.step hen hroom with
  | inl hok =>
    obtain ⟨t', ht, -⟩ := hok
    refine ⟨by simp [ht], iff_of_false (by simp [ht]) fun hcall => ?_⟩
    obtain ⟨pt, r, nargs, rfl, hmax⟩ := hcall
    obtain ⟨f, rest, hfs, -⟩ := hen
    have hcur : t.cur = f := by simp [cur, hfs]
    rw [hcur] at hmax
    simp [Thread.step, hfs, stepIn, Thread.callLuaFast, hmax] at ht
  | inr herr =>
    obtain ⟨pt, r, nargs, ha, hmax, herr⟩ := herr
    exact ⟨by simp [herr], iff_of_true herr ⟨pt, r, nargs, ha, hmax⟩⟩

def smallProto : Proto := ⟨4, 0, false, Nat.zero_le _⟩
def largeProto : Proto := ⟨200, 0, false, Nat.zero_le _⟩

/-- A coroutine whose entry function calls a large one: the frame lies on the grown stack. -/
theorem stack_bounds_call : ∃ t, ReflTransGen RoomyStep (new false) t ∧
    t.frames.map Frame.base = [4, 2] ∧ t.asked < t.len ∧ t.len = 228 := by
  have hstart : RoomyStep (new false) ⟨80, CO_STACK_MAX, [⟨2, smallProto, none⟩], 0, 64⟩ :=
    ⟨.start smallProto 0, rfl, ⟨by decide, by decide, by decide⟩, rfl⟩
  have hcall : RoomyStep ⟨80, CO_STACK_MAX, [⟨2, smallProto, none⟩], 0, 64⟩
      ⟨228, CO_STACK_MAX, [⟨4, largeProto, none⟩, ⟨2, smallProto, none⟩], 0, 212⟩ :=
    ⟨.call largeProto 0 0, ⟨_, _, rfl, by unfold ArgsPlaced extent; decide⟩, .inr (by decide), rfl⟩
  have hrun := ReflTransGen.refl.tail hstart |>.tail hcall
  exact ⟨_, hrun, rfl, (stack_bounds hrun).2.1, rfl⟩

/-- When it calls the large one by the slow route of a tail call, the frame reaches past the stack. -/
theorem tail_call_outgrows : ∃ t₁ t₂, (new false).Enabled (.start smallProto 0) ∧
    (new false).step (.start smallProto 0) = .ok t₁ ∧ t₁.Enabled (.tail largeProto 0 0) ∧
    t₁.step (.tail largeProto 0 0) = .ok t₂ ∧ t₂.len = 80 ∧
    t₂.frames.map (fun f => f.base + f.pt.framesize) = [202] :=
  ⟨_, _, rfl, rfl, ⟨_, _, rfl, by unfold ArgsPlaced extent; decide⟩, rfl, rfl, rfl⟩

end Thread
end LuajitRs.Vm
