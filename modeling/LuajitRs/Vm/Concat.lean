import LuajitRs.Runtime.Interner.Concat
import LuajitRs.Runtime.Meta

/-! Concatenation in the interpreter, from the right over a row of registers. Strings and numbers next to each other are
joined at once, any other pair goes to its metamethod, and each result takes the register of its first operand. The
loop is the right fold of the concatenation of two operands: a run that is joined at once stands for as many joins of
two texts, and a joined text is an object before a metamethod sees it. -/
namespace LuajitRs.Vm.Concat
open Lib

/-- What a concatenation works on: the strings, and whatever else a metamethod can see or change. -/
structure World (ω : Type) where
  heap : CatHeap
  rest : ω

abbrev CatM (ω ε α : Type) := EStateM ε (World ω) α

/-- The interpreter around a concatenation. The frame of a metamethod lies above the registers of its caller. -/
structure Host (ω ε : Type) where
  /-- The field of the metatable of a value, or nil. -/
  metaLookup : World ω → LuaValue → MM → LuaValue
  /-- Run a function to its first result. -/
  call : LuaValue → List LuaValue → CatM ω ε LuaValue
  /-- The address for the next string. -/
  fresh : World ω → ℕ
  /-- The kind and the name of a register at the current instruction. -/
  slotname : World ω → ℕ → Option (String × String)
  runtimeError : String → World ω → ε
  panic : Fault → ε

def LJ_MAX_STR : ℕ := 0xfffffe00

def concatOk : LuaValue → Bool
  | .str _ | .num _ => true
  | _ => false

def isFunc : LuaValue → Bool
  | .func _ => true
  | _ => false

def luaTypename : LuaValue → String
  | .nil => "nil"
  | .bool _ => "boolean"
  | .num _ => "number"
  | .str _ => "string"
  | .tab _ => "table"
  | .func _ => "function"
  | .thread _ => "thread"
  | .udata _ => "userdata"
  | _ => "value"

/-- The first register of the run of strings and numbers that ends before `o`. -/
def runStart (slots : ℕ → LuaValue) (bottom : ℕ) : ℕ → ℕ
  | 0 => 0
  | o + 1 => if bottom < o + 1 && concatOk (slots o) then runStart slots bottom o else o + 1

/-- The values of the registers from `o` up to, but not including, `top`. -/
def operands (slots : ℕ → LuaValue) (o top : ℕ) : List LuaValue := (List.range' o (top - o)).map slots

namespace Host
variable {ω ε : Type} (m : Host ω ε)

/-! ### The operations -/

/-- A step that may panic. -/
def fallible {α : Type} : Except Fault α → CatM ω ε α
  | .ok a => pure a
  | .error f => throw (m.panic f)

def resolveCallableFrom (s : World ω) : ℕ → LuaValue → Option LuaValue
  | 0, _ => none
  | n + 1, mo =>
    if isFunc mo then some mo
    else if mo.isNil then none
    else resolveCallableFrom s n (m.metaLookup s mo .call)

/-- The function behind a chain of at most four `__call` metamethods. -/
def resolveCallable (s : World ω) (v : LuaValue) : Option LuaValue :=
  m.resolveCallableFrom s 4 (m.metaLookup s v .call)

/-- The error for a pair without a metamethod names the first operand that is no string or number. -/
def operandError (s : World ω) (slot : ℕ) (o1 o2 : LuaValue) : ε :=
  let badSlot := if !concatOk o1 then slot else slot + 1
  let bad := luaTypename (if !concatOk o1 then o1 else o2)
  match m.slotname s badSlot with
  | some (kind, name) => m.runtimeError s!"attempt to concatenate {kind} '{name}' (a {bad} value)" s
  | none => m.runtimeError "attempt to concatenate a non-string value" s

/-- The metamethod of a pair in the registers `slot` and `slot + 1`, of the first operand before the second. -/
def callConcat (slot : ℕ) (o1 o2 : LuaValue) : CatM ω ε LuaValue := do
  let s ← get
  let mo1 := m.metaLookup s o1 .concat
  let mo := if mo1.isNil then m.metaLookup s o2 .concat else mo1
  if mo.isNil then throw (m.operandError s slot o1 o2)
  else if isFunc mo then m.call mo [o1, o2]
  else
    match m.resolveCallable s mo with
    | some mo2 => m.call mo2 [mo, o1, o2]
    | none => throw (m.runtimeError "attempt to concatenate a non-string value" s)

/-- Intern a text with the hash of a stream state, and remember it as the last concatenation. -/
def intern (buf : List UInt8) (state : UInt64) : CatM ω ε LuaValue := do
  let s ← get
  let r ← m.fallible (s.heap.internCat buf state (m.fresh s))
  let p ← m.fallible (r.1.lookupPtr r.2)
  set { s with heap := r.1 }
  pure (.str p)

/-- Join a run of strings and numbers. -/
def join (vs : List LuaValue) : CatM ω ε LuaValue := do
  let s ← get
  let texts ← m.fallible (vs.mapM s.heap.textById)
  if LJ_MAX_STR < texts.flatten.length then throw (m.runtimeError "string length overflow" s)
  else
    let state ← m.fallible (s.heap.segmentState vs texts.flatten)
    m.intern texts.flatten state

/-- One turn of the loop, to the register of its result and the registers with it. -/
def turn (bottom : ℕ) (slots : ℕ → LuaValue) (top : ℕ) : CatM ω ε (ℕ × (ℕ → LuaValue)) :=
  if concatOk (slots (top - 1)) && concatOk (slots top) then do
    let o := runStart slots bottom (top - 1)
    let v ← m.join (operands slots o (top + 1))
    pure (o, Function.update slots o v)
  else do
    let v ← m.callConcat (top - 1) (slots (top - 1)) (slots top)
    pure (top - 1, Function.update slots (top - 1) v)

def loop (bottom : ℕ) : ℕ → (ℕ → LuaValue) → ℕ → CatM ω ε LuaValue
  | 0, _, _ => throw (m.panic .diverge)
  | fuel + 1, slots, top => do
    let r ← m.turn bottom slots top
    if r.1 ≤ bottom then pure (r.2 bottom) else loop bottom fuel r.2 r.1

/-- Concatenate the registers `b` to `c`; every turn lowers the top. -/
def metaCat (slots : ℕ → LuaValue) (b c : ℕ) : CatM ω ε LuaValue := m.loop b c slots c

/-! ### The fold -/

/-- An operand of the fold: a value, or a joined text that is no object yet. -/
inductive Operand
  | val (v : LuaValue)
  | text (t : List UInt8)

def Operand.bytes (h : CatHeap) : Operand → Option (List UInt8)
  | val v => h.text v
  | text t => some t

/-- The value of an operand: a text becomes an object with its own hash. -/
def reify : Operand → CatM ω ε LuaValue
  | .val v => pure v
  | .text t => m.intern t (fnv1aState t)

/-- The concatenation of two operands. Only a metamethod sees the second as an object. -/
def cat (slot : ℕ) (a : LuaValue) (x : Operand) : CatM ω ε Operand := do
  let s ← get
  match s.heap.text a, x.bytes s.heap with
  | some t, some u =>
    if LJ_MAX_STR < (t ++ u).length then throw (m.runtimeError "string length overflow" s) else pure (.text (t ++ u))
  | _, _ =>
    let o2 ← m.reify x
    let v ← m.callConcat slot a o2
    pure (.val v)

/-- `v₁ .. (v₂ .. (… .. x))` -/
def foldCat : ℕ → List LuaValue → Operand → CatM ω ε Operand
  | _, [], x => pure x
  | slot, v :: vs, x => do
    let y ← foldCat (slot + 1) vs x
    m.cat slot v y

/-- The right fold over the registers `b` to `c`. -/
def foldConcat (slots : ℕ → LuaValue) (b c : ℕ) : CatM ω ε LuaValue := do
  let x ← m.foldCat b (operands slots b c) (.val (slots c))
  m.reify x

/-! ### Runs -/

/-- What a turn may rely on, with string operations that satisfy `ok`: the allocator has an address for a join; a
metamethod leaves the strings in a state that such operations lead to, and keeps its result and the other operands. -/
def Admits (ok : CatHeap → CatHeap.Op → Prop) (bottom : ℕ) (slots : ℕ → LuaValue) (top : ℕ) (s : World ω) : Prop :=
  if concatOk (slots (top - 1)) && concatOk (slots top) then
    s.heap.it.pool.Available (m.fresh s) ∧
      ok s.heap (.interp (operands slots (runStart slots bottom (top - 1)) (top + 1)) (m.fresh s))
  else
    ∀ v s', m.callConcat (top - 1) (slots (top - 1)) (slots top) s = .ok v s' →
      (∀ e, CatHeap.Reached ok e s.heap → CatHeap.Reached ok e s'.heap) ∧ s'.heap.Live v ∧
        ∀ i, bottom ≤ i → i < top - 1 → s.heap.Live (slots i) → s'.heap.Live (slots i)

/-- Every turn of a concatenation admits its operations. -/
inductive Kept (ok : CatHeap → CatHeap.Op → Prop) (bottom : ℕ) : (ℕ → LuaValue) → ℕ → World ω → Prop
  | turn {slots : ℕ → LuaValue} {top : ℕ} {s : World ω} : m.Admits ok bottom slots top s →
      (∀ r s', m.turn bottom slots top s = .ok r s' → bottom < r.1 → Kept ok bottom r.2 r.1 s') →
      Kept ok bottom slots top s

end Host
variable {ω ε α β : Type} {s : World ω} {slots : ℕ → LuaValue} {b o top : ℕ} {v : LuaValue}

theorem bind_apply (x : CatM ω ε α) (f : α → CatM ω ε β) (s : World ω) :
    (x >>= f) s = match x s with
      | .ok a s' => f a s'
      | .error e s' => .error e s' := by
  change EStateM.bind x f s = _
  rw [EStateM.bind]
  cases x s <;> rfl

/-! ### Registers -/

theorem operands_self (slots : ℕ → LuaValue) (o : ℕ) : operands slots o o = [] := by
  rw [operands, Nat.sub_self]
  rfl

theorem operands_split (slots : ℕ → LuaValue) {b o top : ℕ} (hb : b ≤ o) (ht : o ≤ top) :
    operands slots b top = operands slots b o ++ operands slots o top := by
  obtain ⟨m, rfl⟩ := Nat.exists_eq_add_of_le hb
  obtain ⟨n, rfl⟩ := Nat.exists_eq_add_of_le ht
  simp only [operands, ← List.map_append, Nat.add_sub_cancel_left]
  rw [show b + m + n - b = m + n by omega, ← List.range'_append_1]

theorem operands_succ (slots : ℕ → LuaValue) (o : ℕ) : operands slots o (o + 1) = [slots o] := by
  rw [operands, Nat.add_sub_cancel_left]
  rfl

theorem operands_snoc (slots : ℕ → LuaValue) (ht : o ≤ top) :
    operands slots o (top + 1) = operands slots o top ++ [slots top] := by
  rw [operands_split slots ht (Nat.le_succ top), operands_succ]

theorem mem_operands : v ∈ operands slots o top ↔ ∃ i, o ≤ i ∧ i < top ∧ slots i = v := by
  simp only [operands, List.mem_map, List.mem_range'_1]
  constructor
  · rintro ⟨i, hi, hv⟩
    exact ⟨i, hi.1, by omega, hv⟩
  · rintro ⟨i, hlo, hhi, hv⟩
    exact ⟨i, ⟨hlo, by omega⟩, hv⟩

/-- The result of a turn is in no register below it. -/
theorem operands_update (slots : ℕ → LuaValue) (v : LuaValue) (b o : ℕ) :
    operands (Function.update slots o v) b o = operands slots b o := by
  apply List.map_congr_left
  intro i hi
  have hne : i ≠ o := by
    have hlt := List.mem_range'_1.mp hi
    omega
  exact Function.update_of_ne hne v slots

/-- A run goes as far as it can. -/
theorem runStart_spec (slots : ℕ → LuaValue) (hb : b ≤ o) :
    b ≤ runStart slots b o ∧ runStart slots b o ≤ o ∧
      (∀ i, runStart slots b o ≤ i → i < o → concatOk (slots i) = true) ∧
      (b < runStart slots b o → concatOk (slots (runStart slots b o - 1)) = false) := by
  induction o with
  | zero => exact ⟨hb, le_refl 0, fun i hi hlt => absurd hlt (by omega), fun h => absurd h (by rw [runStart]; omega)⟩
  | succ o ih =>
    rw [runStart]
    split
    · next hok =>
      simp only [Bool.and_eq_true, decide_eq_true_eq] at hok
      obtain ⟨hlo, hle, hrun, hstop⟩ := ih (by omega)
      refine ⟨hlo, by omega, fun i hi hlt => ?_, hstop⟩
      rcases Nat.lt_succ_iff_lt_or_eq.mp hlt with hlt | rfl
      · exact hrun i hi hlt
      · exact hok.2
    · next hok =>
      refine ⟨hb, le_refl _, fun i hi hlt => absurd hlt (by omega), fun hlt => ?_⟩
      simpa [hlt] using hok

/-! ### Texts -/

theorem text_of_not_ok (h : CatHeap) (hv : concatOk v = false) : h.text v = none := by
  cases v <;> first | rfl | cases hv

theorem exists_text {h : CatHeap} {e : ℕ} (I : h.Inv e) (hv : h.Live v) (hok : concatOk v = true) :
    ∃ t, h.text v = some t := by
  cases v with
  | str p =>
    obtain ⟨str, hstr⟩ := I.strings.wf.pool.exists_get (hv p rfl)
    exact ⟨str.bytes, by rw [CatHeap.text, hstr]; rfl⟩
  | num x => exact ⟨_, rfl⟩
  | nil | bool | thread | func | cdata | tab | udata => cases hok

/-- The texts of strings and numbers, one after the other. -/
def textOf (h : CatHeap) (vs : List LuaValue) : List UInt8 := (vs.map fun v => (h.text v).getD []).flatten

theorem textOf_append (h : CatHeap) (vs ws : List LuaValue) : textOf h (vs ++ ws) = textOf h vs ++ textOf h ws := by
  simp only [textOf, List.map_append, List.flatten_append]

theorem textOf_cons {h : CatHeap} {t : List UInt8} (ht : h.text v = some t) (vs : List LuaValue) :
    textOf h (v :: vs) = t ++ textOf h vs := by
  rw [textOf, List.map_cons, List.flatten_cons, ht]
  rfl

namespace Host
variable {m : Host ω ε} {slot : ℕ} {vs ws : List LuaValue} {x : Operand}

/-! ### The fold -/

theorem foldCat_append (slot : ℕ) (vs ws : List LuaValue) (x : Operand) :
    m.foldCat slot (vs ++ ws) x = m.foldCat (slot + vs.length) ws x >>= m.foldCat slot vs := by
  induction vs generalizing slot with
  | nil =>
    funext s
    rw [bind_apply]
    cases hrun : m.foldCat (slot + ([] : List LuaValue).length) ws x s <;> exact hrun
  | cons v vs ih =>
    funext s
    rw [List.cons_append, foldCat, ih, List.length_cons, show slot + 1 + vs.length = slot + (vs.length + 1) by omega]
    simp only [bind_apply, foldCat]
    cases m.foldCat (slot + (vs.length + 1)) ws x s <;> rfl

/-- Two texts are joined. -/
theorem cat_texts {t u : List UInt8} (ht : s.heap.text v = some t) (hu : x.bytes s.heap = some u) :
    m.cat slot v x s = if LJ_MAX_STR < (t ++ u).length then .error (m.runtimeError "string length overflow" s) s
      else .ok (.text (t ++ u)) s := by
  have hstep : m.cat slot v x s = (match s.heap.text v, x.bytes s.heap with
    | some t, some u =>
      if LJ_MAX_STR < (t ++ u).length then throw (m.runtimeError "string length overflow" s) else pure (.text (t ++ u))
    | _, _ => m.reify x >>= fun o2 => m.callConcat slot v o2 >>= fun w => pure (.val w) : CatM ω ε Operand) s := rfl
  rw [hstep, ht, hu]
  dsimp only
  split_ifs <;> rfl

/-- Any other pair goes to the metamethod. -/
theorem cat_of_not_texts (hn : s.heap.text v = none ∨ x.bytes s.heap = none) :
    m.cat slot v x s = (m.reify x >>= fun o2 => m.callConcat slot v o2 >>= fun w => pure (.val w)) s := by
  have hstep : m.cat slot v x s = (match s.heap.text v, x.bytes s.heap with
    | some t, some u =>
      if LJ_MAX_STR < (t ++ u).length then throw (m.runtimeError "string length overflow" s) else pure (.text (t ++ u))
    | _, _ => m.reify x >>= fun o2 => m.callConcat slot v o2 >>= fun w => pure (.val w) : CatM ω ε Operand) s := rfl
  rw [hstep]
  rcases hn with hn | hn
  · rw [hn]
  · rw [hn]
    cases s.heap.text v <;> rfl

/-- The fold over a run of texts is their text, or the overflow error. -/
theorem foldCat_texts {u : List UInt8} (slot : ℕ) (hvs : ∀ v ∈ vs, ∃ t, s.heap.text v = some t) (hne : vs ≠ [])
    (hx : x.bytes s.heap = some u) :
    m.foldCat slot vs x s = if LJ_MAX_STR < (textOf s.heap vs ++ u).length then
      .error (m.runtimeError "string length overflow" s) s else .ok (.text (textOf s.heap vs ++ u)) s := by
  induction vs generalizing slot with
  | nil => exact absurd rfl hne
  | cons v vs ih =>
    obtain ⟨t, ht⟩ := hvs v (by simp)
    rw [foldCat, bind_apply, textOf_cons ht, List.append_assoc]
    rcases List.eq_nil_or_concat vs with rfl | ⟨_, _, hcons⟩
    · exact cat_texts ht hx
    · have hvs' : vs ≠ [] := by simp [hcons]
      rw [ih (slot + 1) (fun w hw => hvs w (List.mem_cons_of_mem v hw)) hvs']
      by_cases hlong : LJ_MAX_STR < (textOf s.heap vs ++ u).length
      · have hlong' : LJ_MAX_STR < (t ++ (textOf s.heap vs ++ u)).length := by
          rw [List.length_append]
          omega
        rw [if_pos hlong, if_pos hlong']
      · rw [if_neg hlong]
        exact cat_texts ht rfl

/-- A text before an operand that is neither string nor number is made an object first. -/
theorem foldCat_reify {t : List UInt8} {s₁ : World ω} (hlast : vs = [] ∨ ∃ ws w, vs = ws ++ [w] ∧ concatOk w = false)
    (hr : m.reify (.text t) s = .ok v s₁) :
    (m.foldCat slot vs (.text t) >>= m.reify) s = (m.foldCat slot vs (.val v) >>= m.reify) s₁ := by
  rcases hlast with rfl | ⟨ws, w, rfl, hw⟩
  · exact hr
  · have hcat : m.foldCat (slot + ws.length) [w] (.text t) s = m.foldCat (slot + ws.length) [w] (.val v) s₁ := by
      change m.cat (slot + ws.length) w (.text t) s = m.cat (slot + ws.length) w (.val v) s₁
      rw [cat_of_not_texts (.inl (text_of_not_ok _ hw)), cat_of_not_texts (.inl (text_of_not_ok _ hw)), bind_apply, hr]
      rfl
    rw [foldCat_append, foldCat_append]
    simp only [bind_apply, hcat]

/-! ### Joins -/

section Join
variable {e : ℕ}

theorem fallible_ok (a : α) (s : World ω) : m.fallible (.ok a) s = .ok a s := rfl

theorem intern_apply (buf : List UInt8) (state : UInt64) (s : World ω) :
    m.intern buf state s = (m.fallible (s.heap.internCat buf state (m.fresh s)) >>= fun r =>
      m.fallible (r.1.lookupPtr r.2) >>= fun p => set { s with heap := r.1 } >>= fun _ => pure (.str p)) s := rfl

/-- A text is interned with its own hash, and nothing is freed. -/
theorem intern_eq (I : s.heap.Inv e) (hf : s.heap.it.pool.Available (m.fresh s)) (t : List UInt8) :
    ∃ h' sid p, s.heap.internCat t (fnv1aState t) (m.fresh s) = .ok (h', sid) ∧
      m.intern t (fnv1aState t) s = .ok (.str p) { s with heap := h' } ∧ h'.Live (.str p) ∧
      ∀ w, s.heap.Live w → h'.Live w := by
  obtain ⟨h', sid, p, hcat, hlook, huniq, hsub, -⟩ := I.internCat (s := t) hf
  refine ⟨h', sid, p, hcat, ?_, ?_, fun w hw q hq => hsub (hw q hq)⟩
  · rw [intern_apply, hcat, bind_apply, fallible_ok]
    dsimp only
    rw [hlook]
    rfl
  · rintro q ⟨⟩
    exact ((huniq p).mp rfl).1

theorem join_apply (vs : List LuaValue) (s : World ω) :
    m.join vs s = (m.fallible (vs.mapM s.heap.textById) >>= fun texts =>
      if LJ_MAX_STR < texts.flatten.length then throw (m.runtimeError "string length overflow" s)
      else m.fallible (s.heap.segmentState vs texts.flatten) >>= m.intern texts.flatten) s := rfl

/-- A run is interned as its whole text, with the hash of the whole. -/
theorem join_eq (I : s.heap.Inv e) (hvs : ∀ v ∈ vs, s.heap.Live v) :
    m.join vs s = if LJ_MAX_STR < (textOf s.heap vs).length then .error (m.runtimeError "string length overflow" s) s
      else m.intern (textOf s.heap vs) (fnv1aState (textOf s.heap vs)) s := by
  rw [join_apply, I.mapM_textById hvs, bind_apply, fallible_ok]
  change (if LJ_MAX_STR < (textOf s.heap vs).length then _ else _ : CatM ω ε LuaValue) s = _
  split_ifs with hlong
  · rfl
  · rw [bind_apply, I.segmentState_eq hvs, fallible_ok]
    rfl

/-- The join of a run is a step of the strings. -/
theorem step_interp {fresh : ℕ} {h' : CatHeap} {sid : UInt32} (I : s.heap.Inv e) (hvs : ∀ v ∈ vs, s.heap.Live v)
    (hlong : ¬ LJ_MAX_STR < (textOf s.heap vs).length)
    (hcat : s.heap.internCat (textOf s.heap vs) (fnv1aState (textOf s.heap vs)) fresh = .ok (h', sid)) :
    s.heap.step (.interp vs fresh) = .ok h' := by
  change s.heap.metaCat vs fresh = .ok h'
  rw [CatHeap.metaCat, I.mapM_textById hvs, ok_bind]
  dsimp only
  split_ifs with hlong'
  · exact absurd hlong' hlong
  · rw [I.segmentState_eq hvs, ok_bind]
    change (s.heap.internCat (textOf s.heap vs) (fnv1aState (textOf s.heap vs)) fresh >>= _) = _
    rw [hcat]
    rfl

end Join

/-! ### The loop -/

section Loop
variable {e : ℕ}

theorem turn_join (hok : (concatOk (slots (top - 1)) && concatOk (slots top)) = true) :
    m.turn b slots top = m.join (operands slots (runStart slots b (top - 1)) (top + 1)) >>= fun v =>
      pure (runStart slots b (top - 1), Function.update slots (runStart slots b (top - 1)) v) := by
  rw [turn, if_pos hok]

theorem turn_call (hok : ¬ (concatOk (slots (top - 1)) && concatOk (slots top)) = true) :
    m.turn b slots top = m.callConcat (top - 1) (slots (top - 1)) (slots top) >>= fun v =>
      pure (top - 1, Function.update slots (top - 1) v) := by
  rw [turn, if_neg hok]

/-- What a turn leaves to do: it returned the register `r.1` of its result and the registers `r.2`. -/
structure Rest (m : Host ω ε) (b : ℕ) (slots : ℕ → LuaValue) (top : ℕ) (s : World ω) (e : ℕ) (r : ℕ × (ℕ → LuaValue))
    (s' : World ω) : Prop where
  lower : b ≤ r.1 ∧ r.1 < top
  fold : (m.foldCat b (operands slots b top) (.val (slots top)) >>= m.reify) s =
    (m.foldCat b (operands r.2 b r.1) (.val (r.2 r.1)) >>= m.reify) s'
  reached : CatHeap.Reached CatHeap.IdFree e s'.heap
  live : ∀ i, b ≤ i → i ≤ r.1 → s'.heap.Live (r.2 i)

/-- One turn: it fails where the fold fails, or leaves the fold over the registers that are left. -/
theorem turn_spec (he : Pool.InRange e) (hb : b < top) (hr : CatHeap.Reached CatHeap.IdFree e s.heap)
    (hlive : ∀ i, b ≤ i → i ≤ top → s.heap.Live (slots i)) (ha : m.Admits CatHeap.IdFree b slots top s) :
    (∃ err s', m.turn b slots top s = .error err s' ∧
      (m.foldCat b (operands slots b top) (.val (slots top)) >>= m.reify) s = .error err s') ∨
    ∃ r s', m.turn b slots top s = .ok r s' ∧ Rest m b slots top s e r s' := by
  have I := hr.inv he
  by_cases hok : (concatOk (slots (top - 1)) && concatOk (slots top)) = true
  · rw [Admits, if_pos hok] at ha
    rw [turn_join hok]
    obtain ⟨hlo, hle, hrun, hstop⟩ := runStart_spec slots (show b ≤ top - 1 by omega)
    generalize runStart slots b (top - 1) = o at *
    simp only [Bool.and_eq_true] at hok
    obtain ⟨u, hu⟩ := exists_text I (hlive top (by omega) le_rfl) hok.2
    -- The run and the operand at the top are all texts.
    have htexts : ∀ v ∈ operands slots o top, ∃ t, s.heap.text v = some t := by
      intro v hv
      obtain ⟨i, hi, hlt, rfl⟩ := mem_operands.mp hv
      refine exists_text I (hlive i (by omega) (by omega)) ?_
      rcases Nat.lt_or_ge i (top - 1) with h | h
      · exact hrun i hi h
      · rw [show i = top - 1 by omega]
        exact hok.1
    have hne : operands slots o top ≠ [] := by
      intro hnil
      have hmem : slots o ∈ operands slots o top := mem_operands.mpr ⟨o, le_rfl, by omega, rfl⟩
      rw [hnil] at hmem
      cases hmem
    have hwhole : textOf s.heap (operands slots o (top + 1)) = textOf s.heap (operands slots o top) ++ u := by
      rw [operands_snoc slots (by omega), textOf_append, textOf_cons hu]
      exact congrArg _ (List.append_nil u)
    have hvs : ∀ v ∈ operands slots o (top + 1), s.heap.Live v := by
      intro v hv
      obtain ⟨i, hi, hlt, rfl⟩ := mem_operands.mp hv
      exact hlive i (by omega) (by omega)
    have hfold := foldCat_texts (m := m) (x := .val (slots top)) (b + (operands slots b o).length) htexts hne hu
    rw [← hwhole] at hfold
    rw [operands_split slots hlo (show o ≤ top by omega), foldCat_append]
    by_cases hlong : LJ_MAX_STR < (textOf s.heap (operands slots o (top + 1))).length
    · rw [if_pos hlong] at hfold
      refine .inl ⟨m.runtimeError "string length overflow" s, s, ?_, ?_⟩
      · rw [bind_apply, join_eq I hvs, if_pos hlong]
      · rw [bind_apply, bind_apply, hfold]
    · obtain ⟨h', sid, p, hcat, hintern, hp, hkeep⟩ :=
        intern_eq (m := m) I ha.1 (textOf s.heap (operands slots o (top + 1)))
      have hstep := step_interp I hvs hlong hcat
      refine .inr ⟨(o, Function.update slots o (.str p)), { s with heap := h' }, ?_, ⟨hlo, by dsimp only; omega⟩, ?_,
        .step (.interp _ _) hr ⟨hvs, ha.1⟩ ha.2 hstep, fun i hi hlt => ?_⟩
      · rw [bind_apply, join_eq I hvs, if_neg hlong, hintern]
        rfl
      · have hlast : operands slots b o = [] ∨ ∃ ws w, operands slots b o = ws ++ [w] ∧ concatOk w = false := by
          rcases Nat.eq_or_lt_of_le hlo with rfl | hlt
          · exact .inl (operands_self slots b)
          · refine .inr ⟨operands slots b (o - 1), slots (o - 1), ?_, hstop hlt⟩
            rw [← operands_snoc slots (by omega), Nat.sub_add_cancel (by omega)]
        dsimp only
        rw [operands_update, Function.update_self, ← foldCat_reify hlast hintern]
        rw [operands_split slots hlo (show o ≤ top by omega), foldCat_append]
        simp only [bind_apply, hfold, if_neg hlong]
      · dsimp only at hlt ⊢
        rcases Nat.lt_or_eq_of_le hlt with hlt | rfl
        · rw [Function.update_of_ne (by omega)]
          exact hkeep _ (hlive i hi (by omega))
        · rw [Function.update_self]
          exact hp
  · rw [Admits, if_neg hok] at ha
    rw [turn_call hok]
    have hlen : b + (operands slots b (top - 1)).length = top - 1 := by
      simp only [operands, List.length_map, List.length_range']
      omega
    have hsplit : operands slots b top = operands slots b (top - 1) ++ [slots (top - 1)] := by
      rw [← operands_snoc slots (by omega), Nat.sub_add_cancel (by omega)]
    have hnot : s.heap.text (slots (top - 1)) = none ∨ (Operand.val (slots top)).bytes s.heap = none := by
      simp only [Bool.and_eq_true, not_and_or, Bool.not_eq_true] at hok
      exact hok.imp (text_of_not_ok _) (text_of_not_ok _)
    have hcat : m.foldCat (top - 1) [slots (top - 1)] (.val (slots top)) s =
        (m.callConcat (top - 1) (slots (top - 1)) (slots top) >>= fun w => pure (.val w)) s := by
      change m.cat (top - 1) (slots (top - 1)) (.val (slots top)) s = _
      rw [cat_of_not_texts hnot]
      rfl
    rw [hsplit, foldCat_append, hlen]
    cases hcall : m.callConcat (top - 1) (slots (top - 1)) (slots top) s with
    | error err s' =>
      refine .inl ⟨err, s', ?_, ?_⟩
      · rw [bind_apply, hcall]
      · rw [bind_apply, bind_apply, hcat, bind_apply, hcall]
    | ok v s' =>
      obtain ⟨hreach, hv, hkeep⟩ := ha v s' hcall
      refine .inr ⟨(top - 1, Function.update slots (top - 1) v), s', ?_, ⟨by dsimp only; omega, by dsimp only; omega⟩, ?_,
        hreach e hr, fun i hi hlt => ?_⟩
      · rw [bind_apply, hcall]
        rfl
      · dsimp only
        rw [operands_update, Function.update_self]
        rw [hsplit, foldCat_append, hlen]
        simp only [bind_apply, hcat, hcall]
        rfl
      · dsimp only at hlt ⊢
        rcases Nat.lt_or_eq_of_le hlt with hlt | rfl
        · rw [Function.update_of_ne (by omega)]
          exact hkeep i hi hlt (hlive i hi (by omega))
        · rw [Function.update_self]
          exact hv

theorem loop_apply (fuel : ℕ) : m.loop b (fuel + 1) slots top s = match m.turn b slots top s with
    | .ok r s' => if r.1 ≤ b then .ok (r.2 b) s' else m.loop b fuel r.2 r.1 s'
    | .error e s' => .error e s' := by
  rw [loop, bind_apply]
  cases m.turn b slots top s with
  | error err s' => rfl
  | ok r s' =>
    dsimp only
    split_ifs <;> rfl

/-- The loop is the fold over the registers up to the top, and its result is live. -/
theorem loop_spec (he : Pool.InRange e) (fuel : ℕ) (hfuel : top - b ≤ fuel) (hb : b < top)
    (hr : CatHeap.Reached CatHeap.IdFree e s.heap) (hlive : ∀ i, b ≤ i → i ≤ top → s.heap.Live (slots i))
    (hk : m.Kept CatHeap.IdFree b slots top s) :
    m.loop b fuel slots top s = (m.foldCat b (operands slots b top) (.val (slots top)) >>= m.reify) s ∧
      ∀ v s', m.loop b fuel slots top s = .ok v s' → CatHeap.Reached CatHeap.IdFree e s'.heap ∧ s'.heap.Live v := by
  induction fuel generalizing slots top s with
  | zero => omega
  | succ fuel ih =>
    obtain ⟨ha, hnext⟩ := hk
    rw [loop_apply]
    rcases turn_spec he hb hr hlive ha with ⟨err, s', hturn, hfold⟩ | ⟨r, s', hturn, hrest⟩
    · rw [hturn]
      exact ⟨hfold.symm, nofun⟩
    · rw [hturn, hrest.fold]
      dsimp only
      obtain ⟨hlo, hlt⟩ := hrest.lower
      split_ifs with hdone
      · have hr1 : r.1 = b := by omega
        rw [hr1, operands_self]
        refine ⟨rfl, ?_⟩
        rintro v s' ⟨⟩
        exact ⟨hrest.reached, hrest.live b le_rfl hlo⟩
      · exact ih (by omega) (by omega) hrest.reached hrest.live (hnext r s' hturn (by omega))

/-- In a run in which no string takes the id of a live string or of the last concatenation, `meta_cat` is the right fold,
with its metamethods, its errors and its result; and a string that results has the hash of its bytes. -/
theorem metaCat_foldConcat {c : ℕ} (he : Pool.InRange e) (hb : b < c) (hr : CatHeap.Reached CatHeap.IdFree e s.heap)
    (hlive : ∀ i, b ≤ i → i ≤ c → s.heap.Live (slots i)) (hk : m.Kept CatHeap.IdFree b slots c s) :
    m.metaCat slots b c s = m.foldConcat slots b c s ∧
      ∀ p s', m.metaCat slots b c s = .ok (.str p) s' →
        ∃ str, s'.heap.it.pool.get p = some str ∧ str.hash = strHash str.bytes := by
  obtain ⟨hfold, hres⟩ := loop_spec he c (Nat.sub_le c b) hb hr hlive hk
  refine ⟨hfold, fun p s' hrun => ?_⟩
  obtain ⟨hr', hp⟩ := hres _ _ hrun
  have W := (hr'.inv he).strings.wf
  obtain ⟨str, hstr⟩ := W.pool.exists_get (hp p rfl)
  exact ⟨str, hstr, W.hashed p str (hp p rfl) hstr⟩

/-- A join of all registers is the last turn. -/
theorem kept_join {ok : CatHeap → CatHeap.Op → Prop} (hok : (concatOk (slots (top - 1)) && concatOk (slots top)) = true)
    (hlast : runStart slots b (top - 1) = b) (ha : m.Admits ok b slots top s) : m.Kept ok b slots top s := by
  refine .turn ha fun r s' hturn hlt => ?_
  rw [turn_join hok, bind_apply, hlast] at hturn
  split at hturn
  · cases hturn
    exact absurd hlt (lt_irrefl b)
  · cases hturn

theorem loop_join (fuel : ℕ) (hok : (concatOk (slots (top - 1)) && concatOk (slots top)) = true)
    (hlast : runStart slots b (top - 1) = b) :
    m.loop b (fuel + 1) slots top s = m.join (operands slots b (top + 1)) s := by
  rw [loop_apply, turn_join hok, bind_apply, hlast]
  cases m.join (operands slots b (top + 1)) s with
  | error err s' => rfl
  | ok v s' =>
    change (if b ≤ b then _ else _) = _
    rw [if_pos le_rfl]
    dsimp only
    rw [Function.update_self]

/-- The stream state of a new string is remembered. -/
theorem catHash_intern {buf : List UInt8} {state : UInt64} {s' : World ω} (hrun : m.intern buf state s = .ok v s') :
    s'.heap.catHash.map Prod.snd = some state := by
  rw [intern_apply, bind_apply] at hrun
  cases hi : s.heap.it.internWithHash buf (fnv1aFold state) (m.fresh s) with
  | error f =>
    rw [CatHeap.internCat, hi] at hrun
    cases hrun
  | ok r =>
    rw [CatHeap.internCat, hi] at hrun
    change (m.fallible (CatHeap.lookupPtr ⟨r.1, some (r.2, state)⟩ r.2) >>= fun p => _) s = _ at hrun
    rw [bind_apply] at hrun
    split at hrun
    · cases hrun
      rfl
    · cases hrun

/-! ### Examples -/

/-- A host with one function, the `__concat` of tables, which returns zero. -/
def zeroHost (fresh : ℕ) : Host Unit Unit where
  metaLookup _ v mm :=
    match v, mm with
    | .tab _, .concat => .func 0
    | _, _ => .nil
  call _ _ := pure (.num .zero)
  fresh _ := fresh
  slotname _ _ := none
  runtimeError _ _ := ()
  panic _ := ()

/-- Two operands, and a third that is a table. -/
def zeroSlots (a : LuaValue) : ℕ → LuaValue
  | 0 => a
  | 1 => .num .zero
  | _ => .tab 0

/-- `0 .. 0 .. t`, where the metamethod of `t` returns zero. -/
theorem metaCat_foldConcat_zeros : ∃ s, (zeroHost 12288).metaCat (zeroSlots (.num .zero)) 0 2 s =
    (zeroHost 12288).foldConcat (zeroSlots (.num .zero)) 0 2 s := by
  have he : Pool.InRange 8192 := by simp [Pool.InRange, ADDR_MAX]
  have hf : Pool.InRange 12288 := by simp [Pool.InRange, ADDR_MAX]
  obtain ⟨it, hnew, I, -, hobj, hlen⟩ := Interner.new_spec he
  have havail : it.pool.Available 12288 := fun _ => ⟨hf, by simp [hobj]⟩
  have hfree : ∀ t, (⟨it, none⟩ : CatHeap).NextIdFree t := by
    refine fun t => .inr fun a str ha ht => ?_
    obtain rfl : a = 8192 := by simpa [hobj] using ha
    obtain rfl := Option.some.inj (I.get.symm.trans ht)
    rw [CatHeap.newId_eq I.wf, hlen]
    decide
  have hlive : ∀ i, 0 ≤ i → i ≤ 2 → (⟨it, none⟩ : CatHeap).Live (zeroSlots (.num .zero) i) := by
    rintro (_ | _ | _) - -
    · rintro q ⟨⟩
    · rintro q ⟨⟩
    · rintro q ⟨⟩
  refine ⟨⟨⟨it, none⟩, ()⟩, (metaCat_foldConcat he (by decide) (.new hnew) hlive ?_).1⟩
  -- The metamethod is called on the last pair, and the zeros that are left are joined.
  refine .turn ?_ fun r s' hturn hlt => ?_
  · rintro v s' ⟨⟩
    exact ⟨fun e h => h, by rintro _ ⟨⟩, fun i _ _ h => h⟩
  · cases hturn
    exact kept_join rfl rfl ⟨havail, fun texts _ => hfree texts.flatten⟩

/-- After `2^32` strings the empty string has the id of `00`, and before a zero it reads as `00`. -/
theorem metaCat_wrapped : ¬ ∀ (m : Host Unit Unit) slots b c s, b < c →
    CatHeap.Reached (fun _ _ => True) 8192 s.heap → (∀ i, b ≤ i → i ≤ c → s.heap.Live (slots i)) →
    m.Kept (fun _ _ => True) b slots c s → m.metaCat slots b c s = m.foldConcat slots b c s := by
  intro hall
  obtain ⟨it, fresh, hr, W, havail, hmem, hget, hnone, p, hlook, hp⟩ := CatHeap.exists_wrapped
  obtain ⟨it', sid, hrun, -, hins⟩ := W.intern_new hnone havail
  let s : World Unit := ⟨⟨it, some (0, fnv1aState [48, 48])⟩, ()⟩
  have hlive : ∀ i, 0 ≤ i → i ≤ 1 → s.heap.Live (zeroSlots (.str 8192) i) := by
    rintro (_ | _ | _) - hi
    · rintro q ⟨⟩
      exact hmem
    · rintro q ⟨⟩
    · rintro q ⟨⟩
  have hkept : (zeroHost fresh).Kept (fun _ _ => True) 0 (zeroSlots (.str 8192)) 1 s := kept_join rfl rfl ⟨havail, trivial⟩
  have heq := hall (zeroHost fresh) (zeroSlots (.str 8192)) 0 1 s (by decide) hr hlive hkept
  have hid : s.heap.stringId (.str 8192) = some 0 := by
    change (it.pool.get 8192).map LuaString.sid = _
    rw [hget]
    rfl
  have hstatic : s.heap.strStatic 0 = .ok [48, 48] :=
    (CatHeap.strStatic_of_get (h := s.heap) hlook hp :)
  have htexts : [LuaValue.str 8192, .num .zero].mapM s.heap.textById = .ok [[48, 48], [48]] := by
    have hfirst : s.heap.textById (.str 8192) = .ok [48, 48] := by rw [CatHeap.textById, hid]; exact hstatic
    rw [List.mapM_cons, hfirst]
    rfl
  have hstate : s.heap.segmentState [.str 8192, .num .zero] [48, 48, 48] =
      .ok (fnv1aCont (fnv1aState [48, 48]) [48]) := by
    rw [CatHeap.segmentState, hid]
    dsimp only
    rw [hstatic]
    rfl
  have hloop : (zeroHost fresh).metaCat (zeroSlots (.str 8192)) 0 1 s =
      (zeroHost fresh).intern [48, 48, 48] (fnv1aCont (fnv1aState [48, 48]) [48]) s := by
    have hjoin : (zeroHost fresh).metaCat (zeroSlots (.str 8192)) 0 1 s =
        (zeroHost fresh).join [.str 8192, .num .zero] s := loop_join 0 rfl rfl
    rw [hjoin, join_apply, htexts, bind_apply, fallible_ok]
    dsimp only
    rw [if_neg (by decide), bind_apply, show ([[48, 48], [48]] : List (List UInt8)).flatten = [48, 48, 48] from rfl,
      hstate, fallible_ok]
  have hfold : (zeroHost fresh).foldConcat (zeroSlots (.str 8192)) 0 1 s =
      (zeroHost fresh).intern [48] (fnv1aState [48]) s := by
    have htext : s.heap.text (.str 8192) = some [] := by
      change (it.pool.get 8192).map LuaString.bytes = _
      rw [hget]
      rfl
    have hcat : (zeroHost fresh).cat 0 (.str 8192) (.val (.num .zero)) s = .ok (.text [48]) s := by
      rw [cat_texts (u := [48]) htext rfl]
      rfl
    change ((zeroHost fresh).cat 0 (.str 8192) (.val (.num .zero)) >>= (zeroHost fresh).reify) s = _
    rw [bind_apply, hcat]
    rfl
  rw [hloop, hfold] at heq
  cases hi : (zeroHost fresh).intern [48] (fnv1aState [48]) s with
  | ok v s' =>
    have hstates := (catHash_intern (heq.trans hi)).symm.trans (catHash_intern hi)
    have hmismatch : fnv1aCont (fnv1aState [48, 48]) [48] ≠ fnv1aState [48] := by decide
    exact hmismatch (Option.some.inj hstates)
  | error e s' =>
    have hcat : s.heap.internCat [48] (fnv1aState [48]) fresh = .ok (⟨it', some (sid, fnv1aState [48])⟩, sid) := by
      rw [CatHeap.internCat, show s.heap.it.internWithHash [48] (fnv1aFold (fnv1aState [48])) fresh = _ from hrun]
      rfl
    have hptr : CatHeap.lookupPtr ⟨it', some (sid, fnv1aState [48])⟩ sid = .ok (it.pool.nextAddr fresh) := by
      rw [CatHeap.lookupPtr, CatHeap.tryLookup_inserted hins]
      rfl
    rw [intern_apply, show (zeroHost fresh).fresh s = fresh from rfl, hcat, bind_apply, fallible_ok] at hi
    dsimp only at hi
    rw [hptr] at hi
    cases hi

end Loop

end Host
end LuajitRs.Vm.Concat
