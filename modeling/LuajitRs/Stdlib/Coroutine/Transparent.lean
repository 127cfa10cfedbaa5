import LuajitRs.Stdlib.Coroutine.Body

/-! Transparency of a suspension. In the reference semantics a yield keeps all layers of the host stack, and a
resume is the ordinary return of the yield function with the resume's arguments as results. The results of
a call land at its slot, adjusted to the number wanted; what lies above them is not specified. -/
namespace LuajitRs.Coroutine.Body

/-! ### The reference semantics -/

def adjust (want : ℤ) (vs : List LuaValue) : List LuaValue :=
  if want < 0 then vs else vs.take want.toNat ++ List.replicate (want.toNat - vs.length) .nil

/-- Values land at a slot, and nothing below it changes. -/
structure Lands (s s' : Slots) (dst : ℕ) (vs : List LuaValue) : Prop where
  below : ∀ x < dst, s' x = s x
  values : ∀ i (h : i < vs.length), s' (dst + i) = vs[i]

/-- The results of a call arrive in the Lua frame that made it. -/
def Arrives (s : Slots) (slot : ℕ) (want : ℤ) (vs : List LuaValue) (host : List Layer) (o : Outcome) : Prop :=
  ∃ s' mr, o = .running ⟨s', mr, host⟩ ∧ Lands s s' slot (adjust want vs) ∧ (want < 0 → mr = vs.length)

/-- They arrive in the C function that made a protected call. -/
def ArrivesC (s : Slots) (slot : ℕ) (vs : List LuaValue) (f : CFunction) (ps pn : ℕ) (via : Via)
    (below : List Layer) (o : Outcome) : Prop :=
  ∃ s' mr, o = .running ⟨s', mr, .cfun f ps pn via (some vs.length) :: below⟩ ∧ Lands s s' slot vs

/-- The frame `fr` returns. -/
def FrameReturn (s : Slots) (fr : CallFrame) (callers : List CallFrame) (rest : List Layer)
    (vs : List LuaValue) (o : Outcome) : Prop :=
  match callers, rest with
  | g :: gs, _ => Arrives s fr.slot fr.want vs (.interp (g :: gs) :: rest) o
  | [], [] => o = .finished (adjust fr.want vs)
  | [], .cfun f ps pn via _ :: below => ArrivesC s fr.slot (adjust fr.want vs) f ps pn via below o
  | [], .interp _ :: _ => False

/-- A C function returns. -/
def Delivered (s : Slots) (funcSlot : ℕ) (via : Via) (rest : List Layer) (vs : List LuaValue)
    (o : Outcome) : Prop :=
  match via, rest with
  | .call want, _ => Arrives s funcSlot want vs rest o
  | .tail, .interp (fr :: callers) :: below => FrameReturn s fr callers below vs o
  | .host, .cfun f ps pn via _ :: below => ArrivesC s funcSlot vs f ps pn via below o
  | _, _ => False

/-- An instruction; the returns are the ones above. -/
def Exec (t : Thread) (i : Instr) (o : Outcome) : Prop :=
  match i, t.host with
  | .ret r n _, .interp (fr :: callers) :: rest =>
    FrameReturn t.stack fr callers rest (readAll t.stack (fr.base + r) n) o
  | .retC n _, .cfun _ fs _ via none :: rest => Delivered t.stack fs via rest (readAll t.stack (fs + 2) n) o
  | .protectedRet _, .cfun f fs _ via (some n) :: rest =>
    isProtecting f ∧ Delivered t.stack fs via rest (.bool true :: readAll t.stack (fs + 2) n) o
  | .raise v _, _ :: below => match catching below with
    | .cfun _ fs _ via _ :: rest => Delivered t.stack fs via rest [.bool false, v] o
    | _ => o = .failed v
  | .ret _ _ _, _ | .retC _ _, _ | .protectedRet _, _ | .raise _ _, _ => False
  | i, _ => t.exec i = some o

/-- A coroutine in the reference semantics. -/
inductive Ref
  | fresh
  | running (t : Thread)
  | suspended (t : Thread)
  | dead

namespace Ref

def after : Outcome → Ref × List Event
  | .running t => (.running t, [])
  | .finished vs => (.dead, [.finished vs])
  | .failed v => (.dead, [.failed v])

inductive Step : Ref → Act → List Event → Ref → Prop
  | instr {t i o} (h : Exec t i o) : Step (.running t) (.instr i) (after o).2 (after o).1
  | yield {t ys ny via r rest} (h : t.host = .cfun .yield ys ny via r :: rest) :
    Step (.running t) .yield [.yielded (readAll t.stack (ys + 2) ny)] (.suspended t)
  | start {args base hi} (room : 0 + 2 ≤ base) :
    Step .fresh (.resume args base hi) [.resumed args]
      (.running ⟨putAll (fun _ => .nil) 2 args, 0, [.interp [⟨base, 1, 0, -1, room⟩]]⟩)
  | resume {t ys ny via r rest args base hi o} (h : t.host = .cfun .yield ys ny via r :: rest)
    (ho : Delivered t.stack ys via rest args o) :
    Step (.suspended t) (.resume args base hi) (.resumed args :: (after o).2) (after o).1

/-- A run with the actions taken and the events seen. -/
inductive Run : Ref → List Act → List Event → Ref → Prop
  | refl (r : Ref) : Run r [] [] r
  | head {r a es u acts es' v} (hs : Step r a es u) (h : Run u acts es' v) : Run r (a :: acts) (es ++ es') v

end Ref

/-! ### Copying -/

theorem moveDown_apply (s : Slots) {dst src : ℕ} (h : dst ≤ src) (n x : ℕ) :
    moveDown s dst src n x = if dst ≤ x ∧ x < dst + n then s (x - dst + src) else s x := by
  induction n generalizing x with
  | zero => rw [moveDown, if_neg (by omega)]
  | succ n ih =>
    rw [moveDown, Function.update_apply, ih, ih]
    by_cases hx : x = dst + n
    · rw [if_pos hx, if_neg (by omega), if_pos (by omega)]
      congr 1
      omega
    · rw [if_neg hx]
      by_cases hin : dst ≤ x ∧ x < dst + n
      · rw [if_pos hin, if_pos (by omega)]
      · rw [if_neg hin, if_neg (by omega)]

theorem moveUp_apply (s : Slots) (src n x : ℕ) :
    moveUp s src n x = if src < x ∧ x ≤ src + n then s (x - 1) else s x := by
  induction n generalizing s with
  | zero => rw [moveUp, if_neg (by omega)]
  | succ n ih =>
    rw [moveUp, ih]
    by_cases hin : src < x ∧ x ≤ src + n
    · rw [if_pos hin, if_pos (by omega), Function.update_of_ne (by omega)]
    · rw [if_neg hin, Function.update_apply]
      by_cases hx : x = src + n + 1
      · rw [if_pos hx, if_pos (by omega), hx]
        rfl
      · rw [if_neg hx, if_neg (by omega)]

@[simp] theorem length_readAll (s : Slots) (src n : ℕ) : (readAll s src n).length = n := by simp [readAll]

theorem getElem_readAll (s : Slots) (src n i : ℕ) (h : i < (readAll s src n).length) :
    (readAll s src n)[i] = s (src + i) := by simp [readAll]

theorem readAll_congr {s s' : Slots} {src src' n : ℕ} (h : ∀ i < n, s (src + i) = s' (src' + i)) :
    readAll s src n = readAll s' src' n := by
  apply List.map_congr_left
  intro i hi
  exact h i (List.mem_range.mp hi)

theorem readAll_moveDown (s : Slots) {dst src : ℕ} (h : dst ≤ src) (n : ℕ) :
    readAll (moveDown s dst src n) dst n = readAll s src n := by
  apply readAll_congr
  intro i hi
  rw [moveDown_apply s h, if_pos (by omega)]
  congr 1
  omega

theorem putAll_below (s : Slots) (vs : List LuaValue) {dst x : ℕ} (h : x < dst) : putAll s dst vs x = s x := by
  rw [putAll, if_neg (by omega)]

theorem putAll_value (s : Slots) (dst : ℕ) (vs : List LuaValue) (i : ℕ) (h : i < vs.length) :
    putAll s dst vs (dst + i) = vs[i] := by
  simp [putAll, h]

/-! ### Landing -/

theorem length_adjust (want : ℤ) (vs : List LuaValue) :
    (adjust want vs).length = if 0 ≤ want then want.toNat else vs.length := by
  by_cases h : want < 0
  · rw [adjust, if_pos h, if_neg (by omega)]
  · rw [adjust, if_neg h, if_pos (by omega), List.length_append, List.length_take, List.length_replicate]
    omega

theorem Lands.congr {s s' : Slots} {dst : ℕ} {vs : List LuaValue} (h : Lands s s' dst vs) {s₀ : Slots}
    (hs : ∀ x < dst, s x = s₀ x) : Lands s₀ s' dst vs :=
  ⟨fun x hx => (h.below x hx).trans (hs x hx), h.values⟩

theorem lands_moveDown (s : Slots) {dst src : ℕ} (h : dst ≤ src) (n : ℕ) :
    Lands s (moveDown s dst src n) dst (readAll s src n) := by
  refine ⟨fun x hx => ?_, fun i hi => ?_⟩
  · rw [moveDown_apply s h, if_neg (by omega)]
  · rw [length_readAll] at hi
    rw [moveDown_apply s h, if_pos (by omega), getElem_readAll]
    congr 1
    omega

/-- Missing results are filled with nil. -/
theorem Lands.adjust {s s' : Slots} {dst : ℕ} {vs : List LuaValue} (h : Lands s s' dst vs) (want : ℤ) :
    Lands s (if 0 ≤ want then fillNil s' (dst + vs.length) (dst + want.toNat) else s') dst (adjust want vs) := by
  by_cases hw : want < 0
  · rw [if_neg (by omega), Body.adjust, if_pos hw]
    exact h
  · rw [if_pos (by omega)]
    refine ⟨fun x hx => ?_, fun i hi => ?_⟩
    · rw [fillNil, if_neg (by omega)]
      exact h.below x hx
    · rw [length_adjust, if_pos (by omega)] at hi
      simp only [Body.adjust, if_neg hw]
      by_cases hv : i < vs.length
      · rw [fillNil, if_neg (by omega), h.values i hv]
        simp [hv, hi]
      · rw [fillNil, if_pos (by omega), List.getElem_append_right (by simp; omega)]
        simp

theorem Lands.clear {s s' : Slots} {dst lo : ℕ} {vs : List LuaValue} (h : Lands s s' dst vs)
    (hlo : dst + vs.length ≤ lo) (hi : ℕ) : Lands s (fillNil s' lo hi) dst vs := by
  refine ⟨fun x hx => ?_, fun i hl => ?_⟩
  · rw [fillNil, if_neg (by omega)]
    exact h.below x hx
  · rw [fillNil, if_neg (by omega)]
    exact h.values i hl

theorem Lands.readAll {s s' : Slots} {dst n : ℕ} {vs : List LuaValue} (h : Lands s s' dst vs)
    (hn : vs.length = n) : readAll s' dst n = vs := by
  apply List.ext_getElem (by simp [hn])
  intro i hi hv
  rw [getElem_readAll]
  exact h.values i hv

/-! ### The code's returns are those of the reference -/

/-- The reference looks at the slots below the frame only. -/
theorem FrameReturn.congr {s s₀ : Slots} {fr : CallFrame} {callers : List CallFrame} {rest : List Layer}
    {vs : List LuaValue} {o : Outcome} (h : FrameReturn s fr callers rest vs o)
    (hs : ∀ x < fr.slot, s x = s₀ x) : FrameReturn s₀ fr callers rest vs o := by
  cases callers with
  | cons g gs =>
    obtain ⟨s', mr, ho, hl, hw⟩ := h
    exact ⟨s', mr, ho, hl.congr hs, hw⟩
  | nil =>
    cases rest with
    | nil => exact h
    | cons a below =>
      cases a with
      | interp frames => exact h
      | cfun f ps pn via r =>
        obtain ⟨s', mr, ho, hl⟩ := h
        exact ⟨s', mr, ho, hl.congr hs⟩

theorem doReturn_frameReturn {s : Slots} {mr src n hi : ℕ} {fr : CallFrame} {callers : List CallFrame}
    {rest : List Layer} {o : Outcome} (hsrc : fr.slot ≤ src)
    (h : doReturn s mr fr callers rest src n hi = some o) :
    FrameReturn s fr callers rest (readAll s src n) o := by
  have hlands := (lands_moveDown s hsrc n).adjust fr.want
  have hlen := length_adjust fr.want (readAll s src n)
  rw [length_readAll] at hlands hlen
  have hle : fr.slot + (adjust fr.want (readAll s src n)).length ≤
      max (fr.slot + 2) (fr.slot + if 0 ≤ fr.want then fr.want.toNat else n) := hlen ▸ Nat.le_max_right _ _
  have hclear := hlands.clear hle hi
  unfold doReturn at h
  cases callers with
  | cons g gs =>
    obtain rfl := Option.some.inj h
    exact ⟨_, n, rfl, hclear, fun _ => (length_readAll s src n).symm⟩
  | nil =>
    cases rest with
    | nil =>
      obtain rfl := Option.some.inj h
      exact congrArg Outcome.finished (hclear.readAll hlen)
    | cons a below =>
      cases a with
      | interp frames => cases h
      | cfun f ps pn via r =>
        obtain rfl := Option.some.inj h
        refine ⟨_, mr, ?_, hclear⟩
        rw [hlen]

/-- A tail call leaves its frame below it, and a C function called by another one lies at its base. -/
def Chained : List Layer → Prop
  | [] => True
  | .interp _ :: rest => Chained rest
  | .cfun _ _ _ (.call _) _ :: rest => Chained rest
  | .cfun _ _ _ .metamethod _ :: rest => Chained rest
  | .cfun _ fs _ .tail _ :: rest =>
    (∃ fr callers below, rest = .interp (fr :: callers) :: below ∧ fr.slot ≤ fs) ∧ Chained rest
  | .cfun _ fs _ .host _ :: rest =>
    (∃ f ps pn via r below, rest = .cfun f ps pn via r :: below ∧ fs = ps + 2) ∧ Chained rest

theorem leaveC_delivered {s : Slots} {mr fs n hi : ℕ} {f : CFunction} {nargs : ℕ} {via : Via} {r : Option ℕ}
    {rest : List Layer} {o : Outcome} (hc : Chained (.cfun f fs nargs via r :: rest))
    (h : leaveC s mr fs n hi via rest = some o) : Delivered s fs via rest (readAll s (fs + 2) n) o := by
  have hlands := lands_moveDown s (Nat.le_add_right fs 2) n
  unfold leaveC at h
  cases via with
  | call want =>
    have hadjust := hlands.adjust want
    rw [length_readAll] at hadjust
    dsimp only at h
    split at h
    · next hw =>
      rw [if_pos hw] at hadjust
      obtain rfl := Option.some.inj h
      exact ⟨_, mr, rfl, hadjust, fun hneg => absurd hw (by omega)⟩
    · next hw =>
      rw [if_neg hw] at hadjust
      obtain rfl := Option.some.inj h
      exact ⟨_, n, rfl, hadjust, fun _ => (length_readAll s _ n).symm⟩
  | tail =>
    obtain ⟨⟨fr, callers, below, rfl, hle⟩, -⟩ := hc
    have hret := doReturn_frameReturn hle h
    rw [readAll_moveDown s (Nat.le_add_right fs 2)] at hret
    exact hret.congr fun x hx => hlands.below x (hx.trans_le hle)
  | host =>
    obtain ⟨⟨f', ps, pn, via, r', below, rfl, -⟩, -⟩ := hc
    obtain rfl := Option.some.inj h
    refine ⟨_, mr, ?_, hlands⟩
    rw [length_readAll]
  | metamethod => cases rest <;> cases h

theorem Delivered.congr {s s₀ : Slots} {fs : ℕ} {f : CFunction} {nargs : ℕ} {via : Via} {r : Option ℕ}
    {rest : List Layer} {vs : List LuaValue} {o : Outcome} (hc : Chained (.cfun f fs nargs via r :: rest))
    (h : Delivered s fs via rest vs o) (hs : ∀ x < fs, s x = s₀ x) : Delivered s₀ fs via rest vs o := by
  cases via with
  | call want =>
    obtain ⟨s', mr, ho, hl, hw⟩ := h
    exact ⟨s', mr, ho, hl.congr hs, hw⟩
  | tail =>
    obtain ⟨⟨fr, callers, below, rfl, hle⟩, -⟩ := hc
    exact FrameReturn.congr h fun x hx => hs x (hx.trans_le hle)
  | host =>
    obtain ⟨⟨f', ps, pn, via, r', below, rfl, -⟩, -⟩ := hc
    obtain ⟨s', mr, ho, hl⟩ := h
    exact ⟨s', mr, ho, hl.congr hs⟩
  | metamethod => cases rest <;> cases h

theorem Chained.tail {a : Layer} {rest : List Layer} (h : Chained (a :: rest)) : Chained rest := by
  cases a with
  | interp frames => exact h
  | cfun f fs n via r =>
    cases via with
    | call | metamethod => exact h
    | tail | host => exact h.2

theorem Chained.catching {host : List Layer} (h : Chained host) : Chained (catching host) := by
  induction host with
  | nil => exact h
  | cons a rest ih =>
    cases a with
    | interp frames => exact ih h.tail
    | cfun f fs n via r =>
      rw [Body.catching]
      split
      · exact h
      · exact ih h.tail

theorem readAll_protectedOk (s : Slots) (fs n : ℕ) :
    readAll (protectedOk s fs n) (fs + 2) (n + 1) = .bool true :: readAll s (fs + 2) n := by
  apply List.ext_getElem (by simp)
  intro i hi hv
  rw [getElem_readAll, protectedOk]
  cases i with
  | zero => simp
  | succ i =>
    have hin : i < n := by simpa using hv
    rw [Function.update_of_ne (by omega), moveUp_apply, if_pos (by omega), List.getElem_cons_succ, getElem_readAll]
    congr 1

theorem protectedOk_below (s : Slots) (fs n : ℕ) {x : ℕ} (hx : x < fs) : protectedOk s fs n x = s x := by
  rw [protectedOk, Function.update_of_ne (by omega), moveUp_apply, if_neg (by omega)]

/-- Every instruction of the code is one of the reference. -/
theorem exec_exec {t : Thread} {i : Instr} {o : Outcome} (hc : Chained t.host) (h : t.exec i = some o) :
    Exec t i o := by
  obtain ⟨s, mr, host⟩ := t
  dsimp only at hc
  cases i with
  | set | call | tailcall | callC | tailcallC | protectLua | protectC | setC => exact h
  | ret r n hi =>
    simp only [Thread.exec] at h
    split at h
    · next fr callers rest =>
      exact doReturn_frameReturn ((Nat.le_add_right _ 2).trans (fr.room.trans (Nat.le_add_right _ r))) h
    · cases h
  | retC n hi =>
    simp only [Thread.exec] at h
    split at h
    · exact leaveC_delivered hc h
    · cases h
  | protectedRet hi =>
    simp only [Thread.exec] at h
    split at h
    · next f fs nargs via n rest =>
      split at h
      · next hf =>
        have hd := leaveC_delivered hc h
        rw [readAll_protectedOk] at hd
        exact ⟨hf, hd.congr hc fun x hx => protectedOk_below s fs n hx⟩
      · cases h
    · cases h
  | raise v hi =>
    cases host with
    | nil => cases h
    | cons a below =>
      simp only [Thread.exec] at h
      simp only [Exec]
      have hcatch := hc.tail.catching
      cases hb : catching below with
      | nil =>
        rw [hb] at h
        exact (Option.some.inj h).symm
      | cons b rest =>
        rw [hb] at h hcatch
        cases b with
        | interp frames => exact (Option.some.inj h).symm
        | cfun f fs nargs via r =>
          have hd := leaveC_delivered hcatch h
          have hvs : readAll (Function.update (Function.update s (fs + 2) (.bool false)) (fs + 3) v) (fs + 2) 2 =
              [.bool false, v] := by simp [readAll, List.range_succ]
          rw [hvs] at hd
          refine hd.congr hcatch fun x hx => ?_
          rw [Function.update_of_ne (by omega), Function.update_of_ne (by omega)]

theorem FrameReturn.chained {s : Slots} {fr : CallFrame} {callers : List CallFrame} {rest : List Layer}
    {vs : List LuaValue} {t : Thread} (h : FrameReturn s fr callers rest vs (.running t)) (hc : Chained rest) :
    Chained t.host := by
  cases callers with
  | cons g gs =>
    obtain ⟨s', mr, ho, -⟩ := h
    cases ho
    exact hc
  | nil =>
    cases rest with
    | nil => cases h
    | cons a below =>
      cases a with
      | interp frames => cases h
      | cfun f ps pn via r =>
        obtain ⟨s', mr, ho, -⟩ := h
        cases ho
        cases via <;> exact hc

theorem Delivered.chained {s : Slots} {fs : ℕ} {via : Via} {rest : List Layer} {vs : List LuaValue} {t : Thread}
    (h : Delivered s fs via rest vs (.running t)) (hc : Chained rest) : Chained t.host := by
  unfold Delivered at h
  split at h
  · obtain ⟨s', mr, ho, -⟩ := h
    cases ho
    exact hc
  · exact FrameReturn.chained h hc
  · next f ps pn via r below =>
    obtain ⟨s', mr, ho, -⟩ := h
    cases ho
    cases via <;> exact hc
  · cases h

theorem Chained.exec {t t' : Thread} {i : Instr} (hc : Chained t.host) (h : t.exec i = some (.running t')) :
    Chained t'.host := by
  have he := exec_exec hc h
  obtain ⟨s, mr, host⟩ := t
  dsimp only at hc
  cases i with
  | ret r n hi =>
    simp only [Thread.exec] at h
    split at h
    · exact FrameReturn.chained he hc
    · cases h
  | retC n hi =>
    simp only [Thread.exec] at h
    split at h
    · exact Delivered.chained he hc.tail
    · cases h
  | protectedRet hi =>
    simp only [Thread.exec] at h
    split at h
    · exact Delivered.chained he.2 hc.tail
    · cases h
  | raise v hi =>
    cases host with
    | nil => cases h
    | cons a below =>
      simp only [Exec] at he
      have hcatch := hc.tail.catching
      cases hb : Body.catching below with
      | nil =>
        rw [hb] at he
        cases he
      | cons b rest =>
        rw [hb] at he hcatch
        cases b with
        | interp frames => cases he
        | cfun f fs nargs via r => exact Delivered.chained he hcatch.tail
  | protectLua base =>
    simp only [Thread.exec, Thread.goesOn] at h
    repeat' split at h
    · cases h
      exact hc
    all_goals cases h
  | protectC g nargs =>
    simp only [Thread.exec, Thread.goesOn] at h
    repeat' split at h
    · next f fs n via r rest _ =>
      cases h
      exact ⟨⟨f, fs, n, via, r, rest, rfl, rfl⟩, hc⟩
    all_goals cases h
  | tailcallC g r nargs =>
    simp only [Thread.exec, Thread.goesOn] at h
    split at h
    · next fr callers rest =>
      cases h
      exact ⟨⟨fr, callers, rest, rfl, (Nat.le_add_right _ 2).trans (fr.room.trans (Nat.le_add_right _ r))⟩, hc⟩
    · cases h
  | callC g pc r nargs want =>
    simp only [Thread.exec, Thread.goesOn] at h
    split at h
    · cases h
      exact hc
    · cases h
  | set | call | tailcall | setC =>
    simp only [Thread.exec, Thread.goesOn] at h
    repeat' split at h
    all_goals first
      | cases h; exact hc
      | cases h

/-! ### Suspension and resumption -/

/-- The yields that leave the coroutine where the reference does: one called by a Lua frame outside of every protected
call, or tail called by one with at most two values, or called by a `pcall` of such a frame. -/
def DirectYield : List Layer → Prop
  | [.cfun .yield _ _ (.call _) _, .interp _] => True
  | [.cfun .yield _ ny .tail _, .interp _] => ny ≤ 2
  | [.cfun .yield _ _ .host _, .cfun .pcall _ _ (.call _) _, .interp _] => True
  | _ => False

/-- A resume into a `pcall` gives enough arguments for the results that the call wants. -/
def EnoughArgs : Suspend → List LuaValue → Prop
  | .call p, args => p.isProtected → p.want ≤ args.length + 1
  | _, _ => True

/-- A suspended coroutine of the code and the thread of the reference. -/
inductive Suspended (s : Slots) : Thread → Suspend → List CallFrame → Prop
  | call {t ys ny want r frames} (h : t.host = [.cfun .yield ys ny (.call want) r, .interp frames])
    (hs : ∀ x < ys, s x = t.stack x) : Suspended s t (.call ⟨ys, want, false, ys⟩) frames
  | tail {t ys ny r fr callers} (h : t.host = [.cfun .yield ys ny .tail r, .interp (fr :: callers)])
    (hle : fr.slot ≤ ys) (hs : ∀ x < ys, s x = t.stack x) : Suspended s t (.ret ys) (fr :: callers)
  | pcall {t ps ny pn want r r' frames}
    (h : t.host = [.cfun .yield (ps + 2) ny .host r, .cfun .pcall ps pn (.call want) r', .interp frames])
    (hs : ∀ x < ps, s x = t.stack x) : Suspended s t (.call ⟨ps, want, true, ps⟩) frames

theorem moveDown_below (s : Slots) {dst src : ℕ} (h : dst ≤ src) (n : ℕ) {x : ℕ} (hx : x < dst) :
    moveDown s dst src n x = s x := by
  rw [moveDown_apply s h, if_neg (by omega)]

/-- A direct yield gives its arguments to the resumer. -/
theorem suspended_of_direct {t : Thread} {s' : Impl} {es : List Event} (hc : Chained t.host)
    (hd : DirectYield t.host) (h : Impl.yieldTop t = some (s', es)) :
    ∃ s susp saved, s' = .suspended s susp saved ∧ Suspended s t susp saved ∧
      ∃ ys ny via r rest, t.host = .cfun .yield ys ny via r :: rest ∧
        es = [.yielded (readAll t.stack (ys + 2) ny)] := by
  obtain ⟨st, mr, host⟩ := t
  dsimp only at hc hd
  unfold DirectYield at hd
  split at hd
  · next ys ny want r frames =>
    obtain ⟨rfl, rfl⟩ := Prod.mk.inj (Option.some.inj h)
    have hle : ys ≤ ys + 2 := Nat.le_add_right ys 2
    refine ⟨moveDown st ys (ys + 2) ny, _, _, rfl, .call rfl fun x hx => moveDown_below st hle ny hx,
      _, _, _, _, _, rfl, ?_⟩
    exact congrArg (fun vs => [Event.yielded vs]) (readAll_moveDown st hle ny)
  · next ys ny r frames =>
    obtain ⟨⟨fr, callers, below, hframes, hslot⟩, -⟩ := hc
    cases hframes
    obtain ⟨rfl, rfl⟩ := Prod.mk.inj (Option.some.inj h)
    have hle : ys ≤ ys + 2 := Nat.le_add_right ys 2
    refine ⟨moveDown (moveDown st ys (ys + 2) ny) ys (ys + 2) ny, _, _, rfl, .tail rfl hslot fun x hx => ?_,
      _, _, _, _, _, rfl, ?_⟩
    · rw [moveDown_below _ hle ny hx, moveDown_below st hle ny hx]
    · -- The second copy reads behind what the first one wrote.
      refine congrArg (fun vs => [Event.yielded vs]) ((readAll_moveDown _ hle ny).trans ?_)
      apply readAll_congr
      intro i hi
      change moveDown st ys (ys + 2) ny (ys + 2 + i) = st (ys + 2 + i)
      rw [moveDown_apply st hle, if_neg (by omega)]
  · next ys ny r ps pn want r' frames =>
    obtain ⟨⟨f, ps', pn', via, r'', below, hrest, hys⟩, -⟩ := hc
    obtain ⟨hps, -⟩ := List.cons.inj hrest
    cases hps
    subst hys
    obtain ⟨rfl, rfl⟩ := Prod.mk.inj (Option.some.inj h)
    have hle : ps ≤ ps + 2 := Nat.le_add_right ps 2
    have hle' : ps + 2 ≤ ps + 2 + 2 := Nat.le_add_right _ 2
    refine ⟨moveDown (moveDown st (ps + 2) (ps + 2 + 2) ny) ps (ps + 2) ny, _, _, rfl, .pcall rfl fun x hx => ?_,
      _, _, _, _, _, rfl, ?_⟩
    · rw [moveDown_below _ hle ny hx, moveDown_below st hle' ny (by omega)]
    · exact congrArg (fun vs => [Event.yielded vs])
        ((readAll_moveDown _ hle ny).trans (readAll_moveDown st hle' ny))
  · cases hd

theorem readAll_putAll (s : Slots) (dst : ℕ) (args : List LuaValue) (n : ℕ) (hn : n ≤ args.length) :
    readAll (putAll s dst args) dst n = args.take n := by
  apply List.ext_getElem (by simpa using hn)
  intro i hi hv
  rw [getElem_readAll, putAll_value s dst args i (by simp at hv; omega), List.getElem_take]

/-- The arguments of a resume, copied down to the slot of the call. -/
theorem lands_args (s : Slots) (slot : ℕ) (args : List LuaValue) (n : ℕ) (hn : n ≤ args.length) :
    Lands s (moveDown (putAll s (slot + 2) args) slot (slot + 2) n) slot (args.take n) := by
  have h := lands_moveDown (putAll s (slot + 2) args) (Nat.le_add_right slot 2) n
  rw [readAll_putAll s _ args n hn] at h
  exact h.congr fun x hx => putAll_below s args (by omega)

theorem lands_allArgs (s : Slots) (slot : ℕ) (args : List LuaValue) :
    Lands s (moveDown (putAll s (slot + 2) args) slot (slot + 2) args.length) slot args := by
  have h := lands_args s slot args args.length le_rfl
  rwa [List.take_length] at h

theorem adjust_take {want : ℤ} (h : 0 ≤ want) (vs : List LuaValue) :
    adjust want (vs.take (min vs.length want.toNat)) = adjust want vs := by
  rw [adjust, if_neg (by omega), adjust, if_neg (by omega), List.take_take, List.length_take,
    show want.toNat - min (min vs.length want.toNat) vs.length = want.toNat - vs.length by omega]
  congr 1
  rw [List.take_eq_take_iff]
  omega

theorem goOn_call {s st : Slots} {ys : ℕ} {want : ℤ} {frames : List CallFrame} {args : List LuaValue}
    {base hi : ℕ} {o : Outcome} (hs : ∀ x < ys, s x = st x)
    (h : goOn s (.call ⟨ys, want, false, ys⟩) frames args base hi = some o) :
    Delivered st ys (.call want) [.interp frames] args o := by
  obtain rfl := Option.some.inj h
  refine ⟨_, _, rfl, ?_, fun hw => by simp [hw]⟩
  by_cases hw : 0 ≤ want
  · have hlands := (lands_args s ys args (min args.length want.toNat) (Nat.min_le_left _ _)).adjust want
    rw [adjust_take hw, if_pos hw, List.length_take, min_eq_left (Nat.min_le_left _ _)] at hlands
    simp only [if_pos hw]
    exact hlands.congr hs
  · have hneg : want < 0 := by omega
    simp only [if_neg hw, adjust, if_pos hneg]
    exact (lands_allArgs s ys args).congr hs

theorem goOn_tail {s st : Slots} {ys : ℕ} {fr : CallFrame} {callers : List CallFrame} {args : List LuaValue}
    {base hi : ℕ} {o : Outcome} (hle : fr.slot ≤ ys) (hs : ∀ x < ys, s x = st x)
    (h : goOn s (.ret ys) (fr :: callers) args base hi = some o) :
    Delivered st ys .tail [.interp (fr :: callers)] args o := by
  have hret := doReturn_frameReturn hle h
  have hlands := lands_allArgs s ys args
  rw [hlands.readAll rfl] at hret
  exact FrameReturn.congr hret fun x hx => (hlands.below x (hx.trans_le hle)).trans (hs x (hx.trans_le hle))

/-- Behind a protected call's `true`, the values lie one slot higher. -/
theorem lands_true (s : Slots) (slot : ℕ) (args : List LuaValue) :
    Lands s (moveDown (Function.update (putAll s (slot + 2) args) slot (.bool true)) (slot + 1) (slot + 2)
      args.length) slot (.bool true :: args) := by
  have hle : slot + 1 ≤ slot + 2 := Nat.le_succ _
  refine ⟨fun x hx => ?_, fun i hi => ?_⟩
  · rw [moveDown_below _ hle _ (by omega), Function.update_of_ne (by omega), putAll_below s args (by omega)]
  · cases i with
    | zero =>
      rw [moveDown_below _ hle _ (by omega)]
      exact Function.update_self slot _ _
    | succ i =>
      have hlt : i < args.length := by simpa using hi
      rw [moveDown_apply _ hle, if_pos (by omega), Function.update_of_ne (by omega), List.getElem_cons_succ,
        show slot + (i + 1) - (slot + 1) + (slot + 2) = slot + 2 + i by omega, putAll_value s _ args i hlt]

/-- With enough values, none is missing. -/
theorem Lands.adjust_of_le {s s' : Slots} {dst : ℕ} {vs : List LuaValue} (h : Lands s s' dst vs) {want : ℤ}
    (hw : want ≤ vs.length) : Lands s s' dst (Body.adjust want vs) := by
  rw [Body.adjust]
  split
  · exact h
  · rw [Nat.sub_eq_zero_of_le (by omega), List.replicate_zero, List.append_nil]
    refine ⟨h.below, fun i hi => ?_⟩
    rw [h.values i (by simp at hi; omega), List.getElem_take]

/-- Into a `pcall` the values arrive behind `true`. -/
theorem goOn_protected {s st : Slots} {ps : ℕ} {want : ℤ} {frames : List CallFrame} {args : List LuaValue}
    {base hi : ℕ} {o : Outcome} (hs : ∀ x < ps, s x = st x) (henough : want ≤ args.length + 1)
    (h : goOn s (.call ⟨ps, want, true, ps⟩) frames args base hi = some o) :
    Delivered st ps (.call want) [.interp frames] (.bool true :: args) o := by
  obtain rfl := Option.some.inj h
  refine ⟨_, _, rfl, ?_, fun hw => by simp [hw]⟩
  exact ((lands_true s ps args).congr hs).adjust_of_le (by simpa using henough)

end LuajitRs.Coroutine.Body
