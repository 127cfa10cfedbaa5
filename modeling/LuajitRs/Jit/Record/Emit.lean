import LuajitRs.Jit.Exec

/-! What the recorder emits: tagged references, interned constants, and instructions that go to the end of the
buffer. Constants that are there already keep their references and their values. -/
namespace LuajitRs.Ir

/-- A tagged reference. -/
structure TRef where
  ref : ℕ
  ty : IRTy
  deriving DecidableEq, Repr

/-- The IR type of a value. -/
def valueIrt : LuaValue → IRTy
  | .nil => .nil
  | .bool false => .false
  | .bool true => .true
  | .str _ => .str
  | .thread _ => .thread
  | .func _ => .func
  | .cdata _ => .cdata
  | .tab _ => .tab
  | .udata _ => .udata
  | .num _ => .num

theorem typecheck_valueIrt (v w : LuaValue) : typecheck v (valueIrt w) = true ↔ valueIrt v = valueIrt w := by
  cases v with
  | bool b => cases b <;> cases w with
    | bool c => cases c <;> simp [valueIrt, typecheck]
    | _ => simp [valueIrt, typecheck]
  | _ => cases w with
    | bool c => cases c <;> simp [valueIrt, typecheck]
    | _ => simp [valueIrt, typecheck]

/-- The fixed references of nil, false and true. -/
def trefPri : IRTy → TRef
  | .false => ⟨REF_FALSE, .false⟩
  | .true => ⟨REF_TRUE, .true⟩
  | _ => ⟨REF_NIL, .nil⟩

def irtIspri (t : IRTy) : Bool := t = .nil || t = .false || t = .true

namespace IrBuf

/-- Intern a constant by its word, `kgc` and `k64`. -/
def intern (b : IrBuf) (op : IROp) (ty : IRTy) (v : LuaValue) : IrBuf × ℕ :=
  match b.findK (fun r => b.k64Val r = some v) b.k.length (b.chain op) with
  | some r => (b, r)
  | none => b.pushK (.new op (plain ty) 0 0) v

def kgc (b : IrBuf) (v : LuaValue) (ty : IRTy) : IrBuf × ℕ := b.intern .kgc ty v

/-- `kint64`; the payload is a raw word. -/
def kint64 (b : IrBuf) (u : UInt64) : IrBuf × ℕ := b.intern .kint64 .i64 (.num ⟨u⟩)

/-- The chain search of `opt_cse`, bounded below by the operands. -/
def findCse (b : IrBuf) (op1 op2 : ℕ) : ℕ → ℕ → Option ℕ
  | 0, _ => none
  | fuel+1, r =>
    if max op1 op2 < r then
      match b.ir r with
      | some ins => if ins.op1 = op1 ∧ ins.op2 = op2 then some r else findCse b op1 op2 fuel ins.prev
      | none => none
    else none

/-- `opt_cse`: an instruction of the same operands, or a new one. -/
def optCse (b : IrBuf) (fins : IRIns) : IrBuf × ℕ :=
  match b.findCse fins.op1 fins.op2 b.ins.length (b.chain fins.op) with
  | some r => (b, r)
  | none => b.emitIns fins

/-- `emitir` of an equality guard between the instruction `l` and the constant `k`: none of the folding rules
applies to it. -/
def emitEq (b : IrBuf) (ty : IRTy) (l k : ℕ) : IrBuf × ℕ := b.optCse (.new .eq (guarded ty) l k)

/-! ### Interned constants -/

/-- The reference is one of a constant of this opcode. -/
def IsK (b : IrBuf) (op : IROp) (r : ℕ) : Prop := r < REF_BIAS ∧ ∃ ins, b.ir r = some ins ∧ ins.op = op

/-- The constants as the recorder keeps them. -/
structure Consts (b : IrBuf) : Prop where
  length : b.k64.length = b.k.length
  head : ∀ op, op.isConst = true → b.chain op = 0 ∨ b.IsK op (b.chain op)
  next : ∀ op r ins, op.isConst = true → r < REF_BIAS → b.ir r = some ins → ins.op = op →
    ins.prev = 0 ∨ b.IsK op ins.prev
  nil : b.constBits REF_NIL = some .nil
  false : b.constBits REF_FALSE = some (.bool false)
  true : b.constBits REF_TRUE = some (.bool true)

/-- The buffer `c` has all constants of `b`. -/
def Keeps (b c : IrBuf) : Prop := ∀ r v, b.constBits r = some v → c.constBits r = some v

theorem Keeps.refl (b : IrBuf) : b.Keeps b := fun _ _ h => h

theorem Keeps.trans {b c d : IrBuf} (h : b.Keeps c) (h' : c.Keeps d) : b.Keeps d :=
  fun r v hv => h' r v (h r v hv)

theorem findK_spec {b : IrBuf} {op : IROp} (hc : b.Consts) (hop : op.isConst = true) {p : ℕ → Bool} (fuel r : ℕ)
    (hr : r = 0 ∨ b.IsK op r) {r' : ℕ} (h : b.findK p fuel r = some r') : p r' = true ∧ b.IsK op r' := by
  induction fuel generalizing r with
  | zero => cases h
  | succ fuel ih =>
    rw [findK] at h
    split at h
    · cases h
    · next hne =>
      have hk : b.IsK op r := hr.resolve_left hne
      split at h
      · next hp =>
        obtain rfl := Option.some.inj h
        exact ⟨hp, hk⟩
      · obtain ⟨hlt, ins, hins, hiop⟩ := hk
        rw [hins] at h
        exact ih _ (hc.next op r ins hop hlt hins hiop) h

section Push
variable {b : IrBuf} {ins : IRIns} {v : LuaValue}

theorem ir_pushK_of_some {r : ℕ} {i : IRIns} (h : b.ir r = some i) : (b.pushK ins v).1.ir r = some i := by
  unfold ir at h ⊢
  split at h
  · next hr => rwa [if_pos hr]
  · next hr =>
    rw [if_neg hr]
    obtain ⟨hlt, hget⟩ := List.getElem?_eq_some_iff.mp h
    simp only [pushK]
    rw [List.getElem?_append_left hlt, h]

theorem k64Val_pushK_of_some {r : ℕ} {w : LuaValue} (h : b.k64Val r = some w) :
    (b.pushK ins v).1.k64Val r = some w := by
  obtain ⟨hlt, hget⟩ := List.getElem?_eq_some_iff.mp h
  simp only [k64Val, pushK]
  rw [List.getElem?_append_left hlt]
  exact h

theorem keeps_pushK : b.Keeps (b.pushK ins v).1 := by
  intro r w h
  by_cases hr : REF_BIAS ≤ r
  · rw [constBits, if_pos hr] at h
    cases h
  · rw [constBits, if_neg hr] at h ⊢
    cases hi : b.ir r with
    | none =>
      rw [hi] at h
      cases h
    | some i =>
      rw [hi] at h
      rw [ir_pushK_of_some hi]
      simp only [Option.bind_eq_bind, Option.bind_some] at h ⊢
      split at h
      iterate 3 exact k64Val_pushK_of_some h
      all_goals exact h

variable (hlen : b.k64.length = b.k.length) (hroom : b.k.length < REF_BIAS)
include hroom

theorem ir_pushK_self : (b.pushK ins v).1.ir (b.pushK ins v).2 = some { ins with prev := b.chain ins.op } := by
  have hr : ¬ REF_BIAS ≤ (b.pushK ins v).2 := by
    simp only [pushK]
    omega
  have hidx : REF_BIAS - 1 - (REF_BIAS - (b.k.length + 1)) = b.k.length := by omega
  rw [ir, if_neg hr]
  simp only [pushK]
  rw [hidx, List.getElem?_append_right (Nat.le_refl _)]
  simp

include hlen in
theorem k64Val_pushK_self : (b.pushK ins v).1.k64Val (b.pushK ins v).2 = some v := by
  have hidx : REF_BIAS - 1 - (REF_BIAS - (b.k.length + 1)) = b.k64.length := by omega
  simp only [k64Val, pushK]
  rw [hidx, List.getElem?_append_right (Nat.le_refl _)]
  simp

omit hroom in
/-- A constant of the grown buffer was there before, or is the new one. -/
theorem ir_pushK_cases {r : ℕ} {i : IRIns} (hr : r < REF_BIAS) (h : (b.pushK ins v).1.ir r = some i) :
    b.ir r = some i ∨ i = { ins with prev := b.chain ins.op } := by
  simp only [ir, pushK] at h ⊢
  rw [if_neg (by omega)] at h ⊢
  by_cases hlt : REF_BIAS - 1 - r < b.k.length
  · rw [List.getElem?_append_left hlt] at h
    exact .inl h
  · rw [List.getElem?_append_right (by omega), List.getElem?_singleton] at h
    split at h
    · exact .inr (Option.some.inj h).symm
    · cases h

theorem Consts.pushK (hc : b.Consts) : (b.pushK ins v).1.Consts := by
  have hkeep : ∀ op r, b.IsK op r → (b.pushK ins v).1.IsK op r := by
    intro op r hk
    obtain ⟨hlt, i, hi, hiop⟩ := hk
    exact ⟨hlt, i, ir_pushK_of_some hi, hiop⟩
  refine ⟨?_, ?_, ?_, keeps_pushK _ _ hc.nil, keeps_pushK _ _ hc.false, keeps_pushK _ _ hc.true⟩
  · simp [IrBuf.pushK, hc.length]
  · intro op hop
    simp only [IrBuf.pushK, Function.update_apply]
    split
    · next heq =>
      subst heq
      have hlt : REF_BIAS - (b.k.length + 1) < REF_BIAS := by omega
      exact .inr ⟨hlt, _, ir_pushK_self hroom, rfl⟩
    · exact (hc.head op hop).imp_right (hkeep op _)
  · intro op r i hop hr hi hiop
    cases ir_pushK_cases hr hi with
    | inl hold => exact (hc.next op r i hop hr hold hiop).imp_right (hkeep op _)
    | inr hnew =>
      subst hnew hiop
      exact (hc.head _ hop).imp_right (hkeep _ _)

end Push

/-- Interning keeps the instructions and the constants, and gives a constant of the value. -/
theorem intern_word {b : IrBuf} {op : IROp} {v : LuaValue} (hop : op = .kgc ∨ op = .kint64 ∨ op = .knum)
    (hc : b.Consts) (hroom : b.k.length < REF_BIAS) (ty : IRTy) :
    let p := b.intern op ty v
    p.1.ins = b.ins ∧ p.1.Consts ∧ b.Keeps p.1 ∧ p.1.constBits p.2 = some v ∧ p.2 < REF_BIAS ∧
      p.1.k.length ≤ b.k.length + 1 ∧ p.1.chain .eq = b.chain .eq := by
  have hconst : op.isConst = true := by
    obtain rfl | rfl | rfl := hop <;> rfl
  have hread : ∀ (c : IrBuf) (r : ℕ), c.IsK op r → c.k64Val r = some v → c.constBits r = some v := by
    intro c r hk hv
    obtain ⟨hlt, i, hi, hiop⟩ := hk
    rw [constBits, if_neg (by omega), hi]
    obtain rfl | rfl | rfl := hop <;> simp [hiop, hv]
  rw [intern]
  split
  · next r hr =>
    obtain ⟨hp, hk⟩ := findK_spec hc hconst _ _ (hc.head op hconst) hr
    exact ⟨rfl, hc, .refl b, hread b r hk (of_decide_eq_true hp), hk.1, Nat.le_succ _, rfl⟩
  · refine ⟨rfl, hc.pushK hroom, keeps_pushK, hread _ _ ⟨?_, _, ir_pushK_self hroom, rfl⟩ ?_, ?_, ?_, ?_⟩
    · simp only [pushK]
      omega
    · exact k64Val_pushK_self hc.length hroom
    · simp only [pushK]
      omega
    · simp [pushK]
    · obtain rfl | rfl | rfl := hop <;> simp [pushK, IRIns.new]

theorem intern_spec {b : IrBuf} {op : IROp} {v : LuaValue} (hop : op = .kgc ∨ op = .kint64) (hc : b.Consts)
    (hroom : b.k.length < REF_BIAS) (ty : IRTy) :
    let p := b.intern op ty v
    p.1.ins = b.ins ∧ p.1.Consts ∧ b.Keeps p.1 ∧ p.1.constBits p.2 = some v ∧ p.2 < REF_BIAS ∧
      p.1.k.length ≤ b.k.length + 1 ∧ p.1.chain .eq = b.chain .eq :=
  intern_word (hop.imp_right .inl) hc hroom ty

theorem knum_eq_intern (b : IrBuf) (x : F64) : b.knum x = b.intern .knum .num (.num x) := rfl

/-! ### Emitting -/

/-- The buffer can take `n` more constants. -/
structure Ready (b : IrBuf) (n : ℕ) : Prop where
  consts : b.Consts
  room : b.k.length + n ≤ REF_BIAS
  eqs : b.chain .eq < b.nins

theorem Ready.new (parent exitno : ℕ) {n : ℕ} (hn : n + 3 ≤ REF_BIAS) : (IrBuf.new parent exitno).Ready n := by
  refine ⟨⟨rfl, fun _ _ => .inl rfl, fun op r ins _ hr hir _ => .inl ?_, rfl, rfl, rfl⟩, ?_, ?_⟩
  · rw [ir, if_neg (by omega)] at hir
    have hmem := List.mem_of_getElem? hir
    simp only [IrBuf.new, List.mem_cons, List.not_mem_nil, or_false] at hmem
    obtain rfl | rfl | rfl := hmem <;> rfl
  · simp only [IrBuf.new, List.length_cons, List.length_nil]
    omega
  · exact Nat.zero_lt_succ _

def withoutPrev (ins : IRIns) : IRIns := { ins with prev := 0 }

/-- The buffer `c` is `b` with the instructions `es` at its end, and perhaps more constants. -/
structure Grows (b c : IrBuf) (es : List IRIns) : Prop where
  ins : ∃ tail, c.ins = b.ins ++ tail ∧ tail.map withoutPrev = es
  keeps : b.Keeps c

variable {b c d : IrBuf} {n : ℕ} {es es' : List IRIns}

theorem Grows.refl (b : IrBuf) : b.Grows b [] := ⟨⟨[], (List.append_nil _).symm, rfl⟩, .refl b⟩

theorem Grows.trans (h : b.Grows c es) (h' : c.Grows d es') : b.Grows d (es ++ es') := by
  obtain ⟨tail, hc, rfl⟩ := h.ins
  obtain ⟨tail', hd, rfl⟩ := h'.ins
  refine ⟨⟨tail ++ tail', ?_, List.map_append⟩, h.keeps.trans h'.keeps⟩
  rw [hd, hc, List.append_assoc]

theorem Grows.nins (h : b.Grows c es) : c.nins = b.nins + es.length := by
  obtain ⟨tail, hc, rfl⟩ := h.ins
  rw [IrBuf.nins, IrBuf.nins, hc, List.length_append, List.length_map]
  omega

theorem Ready.weaken {m : ℕ} (h : b.Ready n) (hm : m ≤ n) : b.Ready m :=
  ⟨h.consts, Nat.le_trans (Nat.add_le_add_left hm _) h.room, h.eqs⟩

theorem Grows.emitIns (ins : IRIns) (hp : ins.prev = 0) : b.Grows (b.emitIns ins).1 [ins] := by
  refine ⟨⟨_, rfl, ?_⟩, fun r v h => ?_⟩
  · cases ins
    cases hp
    rfl
  · rwa [constBits_congr b (b.emitIns ins).1 rfl rfl]

theorem Ready.emitIns (h : b.Ready n) {ins : IRIns} (hop : ins.op.isConst = false) :
    (b.emitIns ins).1.Ready n := by
  have hir : ∀ r, r < REF_BIAS → (b.emitIns ins).1.ir r = b.ir r := by
    intro r hr
    rw [ir, ir, if_neg (by omega), if_neg (by omega)]
    rfl
  have hk : ∀ op r, b.IsK op r → (b.emitIns ins).1.IsK op r := by
    intro op r hk
    obtain ⟨hr, i, hi, hiop⟩ := hk
    exact ⟨hr, i, (hir r hr).trans hi, hiop⟩
  have hbits : ∀ r, (b.emitIns ins).1.constBits r = b.constBits r := constBits_congr b (b.emitIns ins).1 rfl rfl
  have hchain : ∀ op, op.isConst = true → (b.emitIns ins).1.chain op = b.chain op := by
    intro op hc
    refine Function.update_of_ne ?_ _ _
    intro heq
    rw [heq, hop] at hc
    cases hc
  refine ⟨⟨h.consts.length, fun op hc => ?_, fun op r i hc hr hi hiop => ?_, ?_, ?_, ?_⟩, h.room, ?_⟩
  · rw [hchain op hc]
    exact (h.consts.head op hc).imp_right (hk op _)
  · rw [hir r hr] at hi
    exact (h.consts.next op r i hc hr hi hiop).imp_right (hk op _)
  · exact (hbits _).trans h.consts.nil
  · exact (hbits _).trans h.consts.false
  · exact (hbits _).trans h.consts.true
  · have heqs := h.eqs
    simp only [nins, IrBuf.emitIns, List.length_append, List.length_singleton, Function.update_apply] at heqs ⊢
    split <;> omega

theorem Grows.intern {op : IROp} (hop : op = .kgc ∨ op = .kint64) (h : b.Ready (n + 1)) (v : LuaValue)
    (ty : IRTy) : b.Grows (b.intern op ty v).1 [] := by
  obtain ⟨hins, -, hkeeps, -⟩ := intern_spec hop (v := v) h.consts (by have := h.room; omega) ty
  exact ⟨⟨[], by rw [hins, List.append_nil], rfl⟩, hkeeps⟩

theorem Ready.intern {op : IROp} (hop : op = .kgc ∨ op = .kint64) (h : b.Ready (n + 1)) (v : LuaValue)
    (ty : IRTy) : (b.intern op ty v).1.Ready n := by
  have hroom := h.room
  obtain ⟨hins, hconsts, -, -, -, hlen, heq⟩ := intern_spec hop (v := v) h.consts (by omega) ty
  refine ⟨hconsts, by omega, ?_⟩
  rw [heq, nins, hins]
  exact h.eqs

theorem chain_eq_emitIns (b : IrBuf) {ins : IRIns} (hop : ins.op ≠ .eq) :
    (b.emitIns ins).1.chain .eq = b.chain .eq := Function.update_of_ne hop.symm _ _

/-- The left operand of the guard is newer than every equality guard. -/
theorem emitEq_eq {l : ℕ} (hl : b.chain .eq ≤ l) (ty : IRTy) (k : ℕ) :
    b.emitEq ty l k = b.emitIns (.new .eq (guarded ty) l k) := by
  have hfind : ∀ fuel, b.findCse l k fuel (b.chain .eq) = none := by
    intro fuel
    cases fuel with
    | zero => rfl
    | succ fuel => rw [findCse, if_neg (by omega)]
  rw [emitEq, optCse]
  simp only [IRIns.new, hfind]

end IrBuf
end LuajitRs.Ir
