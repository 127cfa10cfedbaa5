import LuajitRs.Jit.Frame

/-! Allocation sinking. A table copied from a template that only loads refer to is not allocated: the loads
of its leading integer fields become constants, and its snapshot entries become nil. -/
namespace LuajitRs.Ir

/-- The reference of the constant `x`, if there is one; this is the search of `knum`. -/
def IrBuf.findKnum (buf : IrBuf) (x : F64) : Option ℕ :=
  buf.findK (fun r => buf.k64Val r = some (.num x)) buf.k.length (buf.chain .knum)

/-- A snapshot refers to the instruction. -/
def Trace.inSnapshot (tr : Trace) (r : ℕ) : Bool := tr.snapmap.any fun e => e.ref = r

def Trace.markIns (tr : Trace) (i : ℕ) (ins : IRIns) : IRIns :=
  if i = 0 then ins
  else if tr.inSnapshot (REF_BIAS + i) then ins.clearMark.setMark
  else ins.clearMark

/-- Mark the instructions that snapshots refer to. -/
def Trace.sinkMark (tr : Trace) : Trace := { tr with ir := { tr.ir with ins := tr.ir.ins.mapIdx tr.markIns } }

/-- Operations that do not make an allocation escape. -/
def isFieldRead (op : IROp) : Bool :=
  op = .aload || op = .hload || op = .alen || op = .gcstep || op = .tdup || op = .cnew

namespace IrBuf
variable (buf : IrBuf)

/-- The references from the first instruction on. -/
def refs : List ℕ := List.range' REF_FIRST (buf.nins - REF_FIRST)

/-- Only sink when every use is a pure field read. -/
def escapes (r : ℕ) : Bool :=
  (buf.ins.drop 1).any fun ins => (ins.op1 = r || ins.op2 = r) && !isFieldRead ins.op

def isSinkable (marked : Bool) (r : ℕ) : Bool :=
  (buf.ir r).any fun ins => (ins.op = .tdup || ins.op = .cnew) && ins.isMarked == marked && !buf.escapes r

/-- The allocations to sink: first those that no snapshot refers to. -/
def sinkAllocs : List ℕ := buf.refs.filter (buf.isSinkable false) ++ buf.refs.filter (buf.isSinkable true)

/-- Remove the collection check right behind an allocation. -/
def nopGcstep (al : ℕ) : IrBuf :=
  if (buf.ir (al + 1)).any (·.op = .gcstep) then buf.modify (al + 1) .setNop else buf

/-- Replace every use of a load by a constant. -/
def replaceRef (load val : ℕ) : IrBuf :=
  { buf with ins := buf.ins.mapIdx fun i ins =>
      if i = 0 then ins
      else { ins with
        op1 := if ins.op1 = load then val else ins.op1
        op2 := if ins.op2 = load then val else ins.op2 } }

/-- The constants for a key and a value. -/
def keyStep (s : IrBuf × List (ℕ × ℕ)) (p : ℤ × F64) : IrBuf × List (ℕ × ℕ) :=
  let (b, k) := s.1.knum (.ofInt p.1)
  let (b, v) := b.knum p.2
  (b, s.2 ++ [(k, v)])

/-- The constants for the keys and the values of the template. -/
def keyToVal (nums : List (ℤ × F64)) : IrBuf × List (ℕ × ℕ) := nums.foldl keyStep (buf, [])

/-- The loads of an allocation under one of the keys, with their constants. -/
def forwardsOf (al : ℕ) (kv : List (ℕ × ℕ)) : List (ℕ × ℕ) :=
  buf.refs.filterMap fun r =>
    (buf.ir r).bind fun ins =>
      if (ins.op = .aload || ins.op = .hload) && ins.op1 = al then
        (kv.find? fun p => p.1 = ins.op2).map fun p => (r, p.2)
      else none

def forwardLoads (fw : List (ℕ × ℕ)) : IrBuf :=
  fw.foldl (fun b p => b.modify p.1 .setNop) (fw.foldl (fun b p => b.replaceRef p.1 p.2) buf)

end IrBuf

/-- A snapshot entry of a sunk allocation becomes nil, without its flags. -/
def dropSnap (al : ℕ) (e : SnapEntry) : SnapEntry := if e.ref = al then ⟨e.slot, false, REF_NIL⟩ else e

section Sink
variable (hash : LuaValue → UInt32) (templates : ℕ → Option LuaTable)

/-- The numbers under the keys 1 to 64 of a template, up to the first nil. -/
def templateNumbers (t : LuaTable) : ℕ → ℤ → Option (List (ℤ × F64))
  | 0, _ => some []
  | n+1, i => do
    match ← (t.getInt hash i).toOption with
    | .nil => some []
    | .num x => (templateNumbers t n (i + 1)).map ((i, x) :: ·)
    | _ => templateNumbers t n (i + 1)

/-- The template behind a constant; null is none. -/
def templateAt (buf : IrBuf) (kgc : ℕ) : Option (Option LuaTable) :=
  if REF_BIAS ≤ kgc then some none
  else (buf.k64Val kgc).map fun v => templates (v.toBits % 2^47)

/-- Closure: no loads, just NOP and snapshot patch. -/
def Trace.sinkCnew (tr : Trace) (al : ℕ) : Trace :=
  { tr with ir := (tr.ir.nopGcstep al).modify al .setNop, snapmap := tr.snapmap.map (dropSnap al) }

/-- Template copy: forward the loads, then NOP. -/
def Trace.sinkTdup (tr : Trace) (al kgc : ℕ) : Option Trace := do
  match ← templateAt templates tr.ir kgc with
  | none => some tr
  | some t => do
    let nums ← templateNumbers hash t 64 1
    if nums.isEmpty then some tr
    else
      let (buf, kv) := tr.ir.keyToVal nums
      let buf := buf.forwardLoads (buf.forwardsOf al kv)
      some { tr with ir := (buf.nopGcstep al).modify al .setNop, snapmap := tr.snapmap.map (dropSnap al) }

def Trace.sinkOne (tr : Trace) (al : ℕ) : Option Trace := do
  let ins ← tr.ir.ir al
  if ins.op = .cnew then some (tr.sinkCnew al) else tr.sinkTdup hash templates al ins.op1

/-- Scalar replacement of non-escaping allocations. -/
def optSink (tr : Trace) : Option Trace :=
  tr.sinkMark.ir.sinkAllocs.foldlM (Trace.sinkOne hash templates) tr.sinkMark

end Sink
end LuajitRs.Ir

/-! What allocation sinking makes of a trace: some instructions are gone, the others have their operands
substituted, and the new constants are the numbers of the templates. -/
namespace LuajitRs.Ir

/-! ### Constants -/

section Consts
variable {b : IrBuf} {x y : F64} {r : ℕ}

/-- A number constant. -/
def IrBuf.IsKnum (b : IrBuf) (r : ℕ) : Prop := r < REF_BIAS ∧ ∃ ins, b.ir r = some ins ∧ ins.op = .knum

/-- The chain of the number constants links number constants, and every constant has a payload. -/
structure IrBuf.ConstsOk (b : IrBuf) : Prop where
  payload : b.k64.length = b.k.length
  head : b.chain .knum ≠ 0 → b.IsKnum (b.chain .knum)
  prev : ∀ ins ∈ b.k, ins.op = .knum → ins.prev ≠ 0 → b.IsKnum ins.prev

/-- The constants of one buffer are among those of another. -/
structure IrBuf.ConstsExt (b b' : IrBuf) : Prop where
  k : ∃ t, b'.k = b.k ++ t
  k64 : ∃ t, b'.k64 = b.k64 ++ t
  found : ∀ x r, b.findKnum x = some r → b'.findKnum x = some r

theorem IrBuf.ConstsExt.refl (b : IrBuf) : b.ConstsExt b := ⟨⟨[], by simp⟩, ⟨[], by simp⟩, fun _ _ h => h⟩

theorem IrBuf.ConstsExt.trans {b b' b'' : IrBuf} (h : b.ConstsExt b') (h' : b'.ConstsExt b'') : b.ConstsExt b'' := by
  obtain ⟨t, ht⟩ := h.k
  obtain ⟨t', ht'⟩ := h'.k
  obtain ⟨u, hu⟩ := h.k64
  obtain ⟨u', hu'⟩ := h'.k64
  exact ⟨⟨t ++ t', by rw [ht', ht, List.append_assoc]⟩, ⟨u ++ u', by rw [hu', hu, List.append_assoc]⟩,
    fun x r hx => h'.found x r (h.found x r hx)⟩

theorem getElem?_prefix {α : Type} {l l' t : List α} (h : l' = l ++ t) {i : ℕ} {a : α} (ha : l[i]? = some a) :
    l'[i]? = some a := by
  rw [h, List.getElem?_append_left (List.getElem?_eq_some_iff.mp ha).1, ha]

theorem IrBuf.ConstsExt.ir {b' : IrBuf} (h : b.ConstsExt b') {ins : IRIns} (hr : r < REF_BIAS)
    (hi : b.ir r = some ins) : b'.ir r = some ins := by
  obtain ⟨t, ht⟩ := h.k
  rw [IrBuf.ir, if_neg (by omega)] at hi ⊢
  exact getElem?_prefix ht hi

theorem IrBuf.ConstsExt.k64Val {b' : IrBuf} (h : b.ConstsExt b') {v : LuaValue} (hv : b.k64Val r = some v) :
    b'.k64Val r = some v := by
  obtain ⟨t, ht⟩ := h.k64
  exact getElem?_prefix ht hv

theorem IrBuf.ConstsExt.isKnum {b' : IrBuf} (h : b.ConstsExt b') (hk : b.IsKnum r) : b'.IsKnum r := by
  obtain ⟨hr, ins, hi, hop⟩ := hk
  exact ⟨hr, ins, h.ir hr hi, hop⟩

theorem IrBuf.ConstsExt.constBits {b' : IrBuf} (h : b.ConstsExt b') {v : LuaValue} (hv : b.constBits r = some v) :
    b'.constBits r = some v := by
  by_cases hr : REF_BIAS ≤ r
  · simp [IrBuf.constBits, hr] at hv
  · simp only [IrBuf.constBits, if_neg hr, Option.bind_eq_bind, Option.bind_eq_some_iff] at hv ⊢
    obtain ⟨ins, hi, hv⟩ := hv
    refine ⟨ins, h.ir (by omega) hi, ?_⟩
    split at hv
    all_goals first | exact h.k64Val hv | exact hv

/-- What the search finds satisfies the test, and is a number constant if the search starts at one. -/
theorem findK_spec {p : ℕ → Bool} {n q : ℕ} (hb : b.ConstsOk) (hr : r ≠ 0 → b.IsKnum r)
    (h : b.findK p n r = some q) : p q = true ∧ b.IsKnum q := by
  induction n generalizing r with
  | zero => cases h
  | succ n ih =>
    rw [IrBuf.findK] at h
    split at h
    · cases h
    · rename_i hr0
      obtain ⟨hlt, ins, hi, hop⟩ := hr hr0
      split at h
      · rename_i hp
        obtain rfl : r = q := Option.some.inj h
        exact ⟨hp, hlt, ins, hi, hop⟩
      · rw [hi] at h
        refine ih ?_ h
        rw [IrBuf.ir, if_neg (by omega)] at hi
        exact hb.prev ins (List.mem_of_getElem? hi) hop

theorem findKnum_spec (hb : b.ConstsOk) (h : b.findKnum x = some r) :
    b.IsKnum r ∧ b.constBits r = some (.num x) := by
  obtain ⟨hp, hk⟩ := findK_spec hb hb.head h
  obtain ⟨hr, ins, hi, hop⟩ := hk
  refine ⟨⟨hr, ins, hi, hop⟩, ?_⟩
  simp only [IrBuf.constBits, if_neg (show ¬ REF_BIAS ≤ r by omega), hi, Option.bind_eq_bind, Option.bind_some, hop]
  simpa using hp

/-- A search that succeeds goes the same way in a buffer with more constants. -/
theorem findK_mono {b' : IrBuf} {p p' : ℕ → Bool} {n q : ℕ} (hir : ∀ r ins, b.ir r = some ins → b'.ir r = some ins)
    (hp : ∀ r, p' r = p r) (h : b.findK p n r = some q) : b'.findK p' n r = some q := by
  induction n generalizing r with
  | zero => cases h
  | succ n ih =>
    rw [IrBuf.findK] at h ⊢
    split at h
    · cases h
    · rename_i hr0
      rw [if_neg hr0, hp]
      split at h
      · rename_i hpr
        rw [if_pos hpr, h]
      · rename_i hpr
        rw [if_neg hpr]
        cases hi : b.ir r with
        | none => rw [hi] at h; cases h
        | some ins =>
          rw [hi] at h
          rw [hir r ins hi]
          exact ih h

/-- The search looks at the constants alone. -/
theorem findK_consts {b' : IrBuf} {p p' : ℕ → Bool} {n : ℕ} (hb : b.ConstsOk) (hk : b'.k = b.k)
    (hp : ∀ r, p' r = p r) (hr : r ≠ 0 → b.IsKnum r) : b'.findK p' n r = b.findK p n r := by
  induction n generalizing r with
  | zero => rfl
  | succ n ih =>
    rw [IrBuf.findK, IrBuf.findK]
    by_cases hr0 : r = 0
    · rw [if_pos hr0, if_pos hr0]
    · obtain ⟨hlt, ins, hi, hop⟩ := hr hr0
      have hi' : b'.ir r = some ins := by
        rw [IrBuf.ir, if_neg (by omega)] at hi ⊢
        rw [hk, hi]
      rw [if_neg hr0, if_neg hr0, hp, hi, hi']
      split
      · rfl
      · refine ih ?_
        rw [IrBuf.ir, if_neg (by omega)] at hi
        exact hb.prev ins (List.mem_of_getElem? hi) hop

theorem IrBuf.IsKnum.congr {b' : IrBuf} (hk : b'.k = b.k) (h : b.IsKnum r) : b'.IsKnum r := by
  obtain ⟨hlt, ins, hi, hop⟩ := h
  refine ⟨hlt, ins, ?_, hop⟩
  rw [IrBuf.ir, if_neg (by omega)] at hi ⊢
  rw [hk, hi]

theorem IrBuf.ConstsOk.congr {b' : IrBuf} (hb : b.ConstsOk) (hk : b'.k = b.k) (h64 : b'.k64 = b.k64)
    (hc : b'.chain = b.chain) : b'.ConstsOk := by
  refine ⟨?_, ?_, ?_⟩
  · rw [hk, h64, hb.payload]
  · rw [hc]
    exact fun h => (hb.head h).congr hk
  · rw [hk]
    exact fun ins hi hop hp => (hb.prev ins hi hop hp).congr hk

theorem IrBuf.ConstsOk.ext {b' : IrBuf} (hb : b.ConstsOk) (hk : b'.k = b.k) (h64 : b'.k64 = b.k64)
    (hc : b'.chain = b.chain) : b.ConstsExt b' := by
  refine ⟨⟨[], by rw [hk, List.append_nil]⟩, ⟨[], by rw [h64, List.append_nil]⟩, ?_⟩
  intro x r h
  have hp : ∀ q, decide (b'.k64Val q = some (.num x)) = decide (b.k64Val q = some (.num x)) := by
    intro q
    rw [IrBuf.k64Val, IrBuf.k64Val, h64]
  rw [IrBuf.findKnum] at h ⊢
  rw [hk, hc, findK_consts hb hk hp hb.head, h]

theorem knum_found (h : b.findKnum x = some r) : b.knum x = (b, r) := by
  rw [IrBuf.findKnum] at h
  rw [IrBuf.knum, h]

theorem knum_pushed (h : b.findKnum x = none) :
    b.knum x = b.pushK (.new .knum (plain .num) 0 0) (.num x) := by
  rw [IrBuf.findKnum] at h
  rw [IrBuf.knum, h]

/-- The reference of a new constant. -/
theorem pushK_ref (ins : IRIns) (v : LuaValue) (hb : b.ConstsOk) (hfit : b.k.length + 1 < REF_BIAS) :
    (b.pushK ins v).2 ≠ 0 ∧ (b.pushK ins v).2 < REF_BIAS ∧ b.k64Val (b.pushK ins v).2 = none ∧
    (b.pushK ins v).1.ir (b.pushK ins v).2 = some { ins with prev := b.chain ins.op } ∧
    (b.pushK ins v).1.k64Val (b.pushK ins v).2 = some v := by
  have href : (b.pushK ins v).2 = REF_BIAS - (b.k.length + 1) := rfl
  have hidx : REF_BIAS - 1 - (REF_BIAS - (b.k.length + 1)) = b.k.length := by omega
  have hk : (b.pushK ins v).1.k = b.k ++ [{ ins with prev := b.chain ins.op }] := rfl
  have h64 : (b.pushK ins v).1.k64 = b.k64 ++ [v] := rfl
  rw [href]
  refine ⟨by omega, by omega, ?_, ?_, ?_⟩
  · rw [IrBuf.k64Val, hidx, ← hb.payload]
    exact List.getElem?_eq_none (Nat.le_refl _)
  · rw [IrBuf.ir, if_neg (by omega), hidx, hk, List.getElem?_concat_length]
  · rw [IrBuf.k64Val, hidx, h64, ← hb.payload, List.getElem?_concat_length]

theorem pushK_ir {ins : IRIns} {v : LuaValue} {q : ℕ} {i : IRIns} (hi : b.ir q = some i) :
    (b.pushK ins v).1.ir q = some i := by
  have hk : (b.pushK ins v).1.k = b.k ++ [{ ins with prev := b.chain ins.op }] := rfl
  rw [IrBuf.ir] at hi ⊢
  split at hi
  · rename_i hq
    rw [if_pos hq]
    exact hi
  · rename_i hq
    rw [if_neg hq]
    exact getElem?_prefix hk hi

/-- A new constant does not hide the others. -/
theorem found_push {ins : IRIns} (hb : b.ConstsOk) (hfit : b.k.length + 1 < REF_BIAS) (hx : b.findKnum x = some r)
    (hy : b.findKnum y = none) (hop : ins.op = .knum) : (b.pushK ins (.num y)).1.findKnum x = some r := by
  have hxy : y ≠ x := by
    rintro rfl
    rw [hx] at hy
    cases hy
  have h64 : (b.pushK ins (.num y)).1.k64 = b.k64 ++ [.num y] := rfl
  have hp : ∀ q, decide ((b.pushK ins (.num y)).1.k64Val q = some (.num x)) = decide (b.k64Val q = some (.num x)) := by
    intro q
    rw [IrBuf.k64Val, IrBuf.k64Val, h64]
    congr 1
    rcases Nat.lt_trichotomy (REF_BIAS - 1 - q) b.k64.length with h | h | h
    · rw [List.getElem?_append_left h]
    · rw [h, List.getElem?_concat_length, List.getElem?_eq_none (Nat.le_refl _)]
      simp [hxy]
    · have h' : (b.k64 ++ [LuaValue.num y]).length ≤ REF_BIAS - 1 - q := by
        rw [List.length_append, List.length_singleton]
        exact h
      rw [List.getElem?_eq_none h', List.getElem?_eq_none h.le]
  obtain ⟨hne, -, hnone, hir, -⟩ := pushK_ref ins (.num y) hb hfit
  have hnew : (b.pushK ins (.num y)).1.chain .knum = (b.pushK ins (.num y)).2 := by
    simp [IrBuf.pushK, hop]
  have hlen : (b.pushK ins (.num y)).1.k.length = b.k.length + 1 := by
    simp [IrBuf.pushK]
  rw [IrBuf.findKnum] at hx ⊢
  rw [hlen, IrBuf.findK, hnew, if_neg hne, hp, hnone, hir, hop]
  exact findK_mono (fun q i hi => pushK_ir hi) hp hx

/-- Interning a number: the constants stay, and the result denotes the number. -/
theorem knum_spec (hb : b.ConstsOk) (hfit : (b.knum x).1.k.length < REF_BIAS) :
    b.ConstsExt (b.knum x).1 ∧ (b.knum x).1.ConstsOk ∧ (b.knum x).2 < REF_BIAS ∧
    (b.knum x).1.constBits (b.knum x).2 = some (.num x) ∧ (b.knum x).1.ins = b.ins ∧
    (b.knum x).1.chain .loop = b.chain .loop := by
  cases hx : b.findKnum x with
  | some r =>
    rw [knum_found hx]
    obtain ⟨hk, hv⟩ := findKnum_spec hb hx
    exact ⟨.refl b, hb, hk.1, hv, rfl, rfl⟩
  | none =>
    rw [knum_pushed hx] at hfit ⊢
    have hlen : b.k.length + 1 < REF_BIAS := by
      rw [IrBuf.pushK, List.length_append, List.length_singleton] at hfit
      exact hfit
    obtain ⟨hne, hlt, -, hir, hv⟩ := pushK_ref (.new .knum (plain .num) 0 0) (.num x) hb hlen
    have hext : b.ConstsExt (b.pushK (.new .knum (plain .num) 0 0) (.num x)).1 :=
      ⟨⟨_, rfl⟩, ⟨_, rfl⟩, fun y r hy => found_push hb hlen hy hx rfl⟩
    refine ⟨hext, ⟨?_, ?_, ?_⟩, hlt, ?_, rfl, ?_⟩
    · simp [IrBuf.pushK, hb.payload]
    · intro _
      have hchain : (b.pushK (.new .knum (plain .num) 0 0) (.num x)).1.chain .knum =
          (b.pushK (.new .knum (plain .num) 0 0) (.num x)).2 := by
        simp [IrBuf.pushK, IRIns.new]
      rw [hchain]
      exact ⟨hlt, _, hir, rfl⟩
    · intro i hi hop hprev
      rw [IrBuf.pushK] at hi
      rcases List.mem_append.mp hi with hi | hi
      · exact hext.isKnum (hb.prev i hi hop hprev)
      · rw [List.mem_singleton.mp hi] at hprev ⊢
        exact hext.isKnum (hb.head hprev)
    · have hlt' : ¬ REF_BIAS ≤ (b.pushK (.new .knum (plain .num) 0 0) (.num x)).2 := not_le.mpr hlt
      simp only [IrBuf.constBits, if_neg hlt', hir]
      exact hv
    · simp [IrBuf.pushK, IRIns.new]

theorem knum_length : b.k.length ≤ (b.knum x).1.k.length := by
  cases hx : b.findKnum x with
  | some r => rw [knum_found hx]
  | none =>
    rw [knum_pushed hx, IrBuf.pushK, List.length_append]
    exact Nat.le_add_right _ _

theorem knum_bound : (b.knum x).1.k.length ≤ b.k.length + 1 := by
  cases hx : b.findKnum x with
  | some r => rw [knum_found hx]; exact Nat.le_succ _
  | none => rw [knum_pushed hx, IrBuf.pushK, List.length_append, List.length_singleton]

end Consts

section Keys
variable {b : IrBuf}

/-- A pair of constants for a field of the template. -/
def KeyPair (b : IrBuf) (nums : List (ℤ × F64)) (p : ℕ × ℕ) : Prop :=
  p.2 < REF_BIAS ∧ ∃ n ∈ nums, b.constBits p.1 = some (.num (.ofInt n.1)) ∧ b.constBits p.2 = some (.num n.2)

/-- The constants for the template: the keys that exist already keep their references. -/
structure KeysOk (b : IrBuf) (nums : List (ℤ × F64)) (s : IrBuf × List (ℕ × ℕ)) : Prop where
  ext : b.ConstsExt s.1
  ok : s.1.ConstsOk
  ins : s.1.ins = b.ins
  loop : s.1.chain .loop = b.chain .loop
  pairs : ∀ p ∈ s.2, KeyPair s.1 nums p
  found : ∀ n ∈ nums, ∀ key, b.findKnum (.ofInt n.1) = some key → ∃ p ∈ s.2, p.1 = key

theorem keyStep_length (s : IrBuf × List (ℕ × ℕ)) (p : ℤ × F64) : s.1.k.length ≤ (IrBuf.keyStep s p).1.k.length :=
  knum_length.trans knum_length

theorem keySteps_length (nums : List (ℤ × F64)) (s : IrBuf × List (ℕ × ℕ)) :
    s.1.k.length ≤ (nums.foldl IrBuf.keyStep s).1.k.length := by
  induction nums generalizing s with
  | nil => exact le_rfl
  | cons p nums ih => exact (keyStep_length s p).trans (ih _)

theorem keySteps_bound (nums : List (ℤ × F64)) (s : IrBuf × List (ℕ × ℕ)) :
    (nums.foldl IrBuf.keyStep s).1.k.length ≤ s.1.k.length + 2 * nums.length := by
  induction nums generalizing s with
  | nil => exact le_rfl
  | cons p nums ih =>
    have hone : (IrBuf.keyStep s p).1.k.length ≤ s.1.k.length + 2 :=
      knum_bound.trans (Nat.add_le_add_right knum_bound 1)
    have hrest := ih (IrBuf.keyStep s p)
    rw [List.foldl_cons, List.length_cons]
    omega

theorem keyStep_spec {nums : List (ℤ × F64)} {s : IrBuf × List (ℕ × ℕ)} {p : ℤ × F64} (hs : KeysOk b nums s)
    (hfit : (IrBuf.keyStep s p).1.k.length < REF_BIAS) : KeysOk b (nums ++ [p]) (IrBuf.keyStep s p) := by
  have hfit₁ : (s.1.knum (.ofInt p.1)).1.k.length < REF_BIAS := knum_length.trans_lt hfit
  obtain ⟨hext₁, hok₁, hlt₁, hval₁, hins₁, hloop₁⟩ := knum_spec hs.ok hfit₁
  obtain ⟨hext₂, hok₂, hlt₂, hval₂, hins₂, hloop₂⟩ := knum_spec hok₁ hfit
  refine ⟨hs.ext.trans (hext₁.trans hext₂), hok₂, ?_, ?_, ?_, ?_⟩
  · exact hins₂.trans (hins₁.trans hs.ins)
  · exact hloop₂.trans (hloop₁.trans hs.loop)
  · intro q hq
    rcases List.mem_append.mp hq with hq | hq
    · obtain ⟨hlt, n, hn, hk, hv⟩ := hs.pairs q hq
      exact ⟨hlt, n, List.mem_append_left _ hn, (hext₁.trans hext₂).constBits hk, (hext₁.trans hext₂).constBits hv⟩
    · rw [List.mem_singleton.mp hq]
      exact ⟨hlt₂, p, List.mem_append_right _ (List.mem_singleton.mpr rfl), hext₂.constBits hval₁, hval₂⟩
  · intro n hn key hkey
    rcases List.mem_append.mp hn with hn | hn
    · obtain ⟨q, hq, hqk⟩ := hs.found n hn key hkey
      exact ⟨q, List.mem_append_left _ hq, hqk⟩
    · rw [List.mem_singleton.mp hn] at hkey
      refine ⟨_, List.mem_append_right _ (List.mem_singleton.mpr rfl), ?_⟩
      exact congrArg Prod.snd (knum_found (hs.ext.found _ _ hkey))

theorem keySteps_spec {nums more : List (ℤ × F64)} {s : IrBuf × List (ℕ × ℕ)} (hs : KeysOk b nums s)
    (hfit : (more.foldl IrBuf.keyStep s).1.k.length < REF_BIAS) :
    KeysOk b (nums ++ more) (more.foldl IrBuf.keyStep s) := by
  induction more generalizing nums s with
  | nil => rwa [List.append_nil]
  | cons p more ih =>
    have h := ih (keyStep_spec hs ((keySteps_length more _).trans_lt hfit)) hfit
    rwa [List.append_assoc, List.singleton_append] at h

theorem keyToVal_spec {nums : List (ℤ × F64)} (hb : b.ConstsOk) (hfit : (b.keyToVal nums).1.k.length < REF_BIAS) :
    KeysOk b nums (b.keyToVal nums) := by
  have hstart : KeysOk b [] (b, []) := ⟨.refl b, hb, rfl, rfl, by simp, by simp⟩
  exact keySteps_spec hstart hfit

end Keys

/-! ### Substitution in a buffer -/

section Subst
variable {b : IrBuf} {r : ℕ}

/-- An instruction with its operands substituted. -/
def substOps (σ : ℕ → ℕ) (ins : IRIns) : IRIns := { ins with op1 := σ ins.op1, op2 := σ ins.op2 }

/-- What the replacements make of an operand. -/
def substFw (fw : List (ℕ × ℕ)) (o : ℕ) : ℕ := fw.foldl (fun o p => if o = p.1 then p.2 else o) o

theorem substFw_cases {fw : List (ℕ × ℕ)} (hk : ∀ p ∈ fw, p.2 < REF_BIAS ∧ REF_BIAS ≤ p.1) (o : ℕ) :
    substFw fw o = o ∨ (o, substFw fw o) ∈ fw := by
  induction fw generalizing o with
  | nil => exact .inl rfl
  | cons p fw ih =>
    have hk' : ∀ q ∈ fw, q.2 < REF_BIAS ∧ REF_BIAS ≤ q.1 := fun q hq => hk q (List.mem_cons_of_mem p hq)
    have hstep : substFw (p :: fw) o = substFw fw (if o = p.1 then p.2 else o) := rfl
    rw [hstep]
    split
    · rename_i ho
      rcases ih hk' p.2 with h | h
      · rw [h, ho]
        exact .inr List.mem_cons_self
      · have := hk' _ h
        have := (hk p List.mem_cons_self).1
        omega
    · rcases ih hk' o with h | h
      · exact .inl h
      · exact .inr (List.mem_cons_of_mem p h)

/-- Constants are not replaced. -/
theorem substFw_const {fw : List (ℕ × ℕ)} (hk : ∀ p ∈ fw, p.2 < REF_BIAS ∧ REF_BIAS ≤ p.1) {o : ℕ} (ho : o < REF_BIAS) :
    substFw fw o = o := by
  rcases substFw_cases hk o with h | h
  · exact h
  · have := (hk _ h).2
    omega

/-- What is replaced becomes a constant. -/
theorem substFw_lt {fw : List (ℕ × ℕ)} (hk : ∀ p ∈ fw, p.2 < REF_BIAS ∧ REF_BIAS ≤ p.1) {o : ℕ}
    (ho : ∃ p ∈ fw, p.1 = o) : substFw fw o < REF_BIAS := by
  induction fw with
  | nil => simp at ho
  | cons p fw ih =>
    have hk' : ∀ q ∈ fw, q.2 < REF_BIAS ∧ REF_BIAS ≤ q.1 := fun q hq => hk q (List.mem_cons_of_mem p hq)
    have hstep : substFw (p :: fw) o = substFw fw (if o = p.1 then p.2 else o) := rfl
    rw [hstep]
    by_cases hop : o = p.1
    · rw [if_pos hop, substFw_const hk' (hk p List.mem_cons_self).1]
      exact (hk p List.mem_cons_self).1
    · rw [if_neg hop]
      obtain ⟨q, hq, hqo⟩ := ho
      rcases List.mem_cons.mp hq with rfl | hq
      · exact absurd hqo.symm hop
      · exact ih hk' ⟨q, hq, hqo⟩

theorem ir_replaceRef (l v : ℕ) (hr : REF_FIRST ≤ r) :
    (b.replaceRef l v).ir r = (b.ir r).map (substOps fun o => if o = l then v else o) := by
  have hb : REF_BIAS ≤ r := (Nat.le_succ _).trans hr
  have h0 : r - REF_BIAS ≠ 0 := by
    have : REF_FIRST = REF_BIAS + 1 := rfl
    omega
  simp only [IrBuf.ir, if_pos hb, IrBuf.replaceRef, List.getElem?_mapIdx, h0, if_false]
  rfl

theorem ir_replaceRefs (fw : List (ℕ × ℕ)) (hr : REF_FIRST ≤ r) :
    (fw.foldl (fun b p => b.replaceRef p.1 p.2) b).ir r = (b.ir r).map (substOps (substFw fw)) := by
  induction fw generalizing b with
  | nil =>
    have hid : substOps (substFw []) = id := rfl
    rw [hid, Option.map_id]
    rfl
  | cons p fw ih =>
    rw [List.foldl_cons, ih, ir_replaceRef p.1 p.2 hr, Option.map_map]
    rfl

theorem ir_base_replaceRefs (fw : List (ℕ × ℕ)) :
    (fw.foldl (fun b p => b.replaceRef p.1 p.2) b).ir REF_BASE = b.ir REF_BASE := by
  induction fw generalizing b with
  | nil => rfl
  | cons p fw ih =>
    rw [List.foldl_cons, ih]
    simp only [IrBuf.ir, if_pos le_rfl, IrBuf.replaceRef, List.getElem?_mapIdx, Nat.sub_self, if_true]
    exact Option.map_id'

theorem ir_setNops {fw : List (ℕ × ℕ)} (hk : ∀ p ∈ fw, REF_BIAS ≤ p.1) :
    (fw.foldl (fun b p => b.modify p.1 .setNop) b).ir r =
      if ∃ p ∈ fw, p.1 = r then (b.ir r).map .setNop else b.ir r := by
  induction fw generalizing b with
  | nil => simp
  | cons p fw ih =>
    rw [List.foldl_cons, ih fun q hq => hk q (List.mem_cons_of_mem p hq),
      IrBuf.ir_modify _ _ _ _ (hk p List.mem_cons_self)]
    by_cases hpr : r = p.1
    · have hex : ∃ q ∈ p :: fw, q.1 = r := ⟨p, List.mem_cons_self, hpr.symm⟩
      rw [if_pos hpr, if_pos hex]
      split
      · cases b.ir r <;> rfl
      · rfl
    · have hiff : (∃ q ∈ p :: fw, q.1 = r) ↔ ∃ q ∈ fw, q.1 = r := by
        simp [Ne.symm hpr]
      rw [if_neg hpr]
      simp only [hiff]

/-- The buffer after forwarding: the loads are gone and their uses replaced. -/
theorem ir_forwardLoads {fw : List (ℕ × ℕ)} (hk : ∀ p ∈ fw, REF_BIAS ≤ p.1) (hr : REF_FIRST ≤ r) :
    (b.forwardLoads fw).ir r =
      if ∃ p ∈ fw, p.1 = r then (b.ir r).map .setNop else (b.ir r).map (substOps (substFw fw)) := by
  rw [IrBuf.forwardLoads, ir_setNops hk, ir_replaceRefs fw hr, Option.map_map]
  rfl

/-- Forwarding leaves the constants and the chains alone. -/
theorem forwardLoads_rest (fw : List (ℕ × ℕ)) : (b.forwardLoads fw).k = b.k ∧ (b.forwardLoads fw).k64 = b.k64 ∧
    (b.forwardLoads fw).chain = b.chain ∧ (b.forwardLoads fw).ins.length = b.ins.length := by
  have hrep : ∀ b : IrBuf, (fw.foldl (fun b p => b.replaceRef p.1 p.2) b).k = b.k ∧
      (fw.foldl (fun b p => b.replaceRef p.1 p.2) b).k64 = b.k64 ∧
      (fw.foldl (fun b p => b.replaceRef p.1 p.2) b).chain = b.chain ∧
      (fw.foldl (fun b p => b.replaceRef p.1 p.2) b).ins.length = b.ins.length := by
    induction fw with
    | nil => exact fun b => ⟨rfl, rfl, rfl, rfl⟩
    | cons p fw ih =>
      intro b
      obtain ⟨h1, h2, h3, h4⟩ := ih (b.replaceRef p.1 p.2)
      exact ⟨h1, h2, h3, by rw [List.foldl_cons, h4, IrBuf.replaceRef, List.length_mapIdx]⟩
  have hnop : ∀ b : IrBuf, (fw.foldl (fun b p => b.modify p.1 .setNop) b).k = b.k ∧
      (fw.foldl (fun b p => b.modify p.1 .setNop) b).k64 = b.k64 ∧
      (fw.foldl (fun b p => b.modify p.1 .setNop) b).chain = b.chain ∧
      (fw.foldl (fun b p => b.modify p.1 .setNop) b).ins.length = b.ins.length := by
    clear hrep
    induction fw with
    | nil => exact fun b => ⟨rfl, rfl, rfl, rfl⟩
    | cons p fw ih =>
      intro b
      obtain ⟨h1, h2, h3, h4⟩ := ih (b.modify p.1 .setNop)
      rw [List.foldl_cons, h1, h2, h3, h4, IrBuf.k_modify, IrBuf.k64_modify, IrBuf.chain_modify, IrBuf.ins_modify,
        List.length_modify]
      exact ⟨rfl, rfl, rfl, rfl⟩
  obtain ⟨h1, h2, h3, h4⟩ := hrep b
  obtain ⟨g1, g2, g3, g4⟩ := hnop (fw.foldl (fun b p => b.replaceRef p.1 p.2) b)
  exact ⟨g1.trans h1, g2.trans h2, g3.trans h3, g4.trans h4⟩

theorem mem_refs {q : ℕ} : q ∈ b.refs ↔ REF_FIRST ≤ q ∧ q < b.nins := by
  rw [IrBuf.refs, List.mem_range'_1]
  omega

def isLoad (op : IROp) : Bool := op = .aload || op = .hload

/-- A forwarded load goes through the allocation, under a key of the template. -/
theorem mem_forwardsOf {al : ℕ} {kv : List (ℕ × ℕ)} {p : ℕ × ℕ} (h : p ∈ b.forwardsOf al kv) :
    REF_FIRST ≤ p.1 ∧ ∃ ins, b.ir p.1 = some ins ∧ isLoad ins.op = true ∧ ins.op1 = al ∧ (ins.op2, p.2) ∈ kv := by
  rw [IrBuf.forwardsOf, List.mem_filterMap] at h
  obtain ⟨q, hq, h⟩ := h
  rw [Option.bind_eq_some_iff] at h
  obtain ⟨ins, hi, h⟩ := h
  split at h
  · rename_i hop
    rw [Option.map_eq_some_iff] at h
    obtain ⟨j, hj, rfl⟩ := h
    have hop' : isLoad ins.op = true ∧ ins.op1 = al := by simpa [isLoad] using hop
    have hj1 : j.1 = ins.op2 := by simpa using List.find?_some hj
    refine ⟨(mem_refs.mp hq).1, ins, hi, hop'.1, hop'.2, ?_⟩
    rw [← hj1]
    exact List.mem_of_find?_eq_some hj
  · cases h

theorem forwardsOf_complete {al : ℕ} {kv : List (ℕ × ℕ)} {ins : IRIns} (hr : REF_FIRST ≤ r) (hi : b.ir r = some ins)
    (hop : isLoad ins.op = true) (h1 : ins.op1 = al) (hkv : ∃ p ∈ kv, p.1 = ins.op2) :
    ∃ p ∈ b.forwardsOf al kv, p.1 = r := by
  obtain ⟨p, hp, hpk⟩ := hkv
  have hfind : (kv.find? fun p => p.1 = ins.op2).isSome := by
    rw [List.find?_isSome]
    exact ⟨p, hp, by simpa using hpk⟩
  obtain ⟨j, hj⟩ := Option.isSome_iff_exists.mp hfind
  refine ⟨(r, j.2), ?_, rfl⟩
  rw [IrBuf.forwardsOf, List.mem_filterMap]
  refine ⟨r, mem_refs.mpr ⟨hr, lt_nins ((Nat.le_succ _).trans hr) hi⟩, ?_⟩
  have hcond : ((ins.op = .aload || ins.op = .hload) && ins.op1 = al) = true := by
    simpa [isLoad, h1] using hop
  rw [hi, Option.bind_some, if_pos hcond, hj]
  rfl

/-- The removal of the collection check and of the allocation. -/
theorem ir_nopAlloc {al : ℕ} (hal : REF_BIAS ≤ al) :
    ((b.nopGcstep al).modify al .setNop).ir r =
      if r = al ∨ r = al + 1 ∧ (b.ir (al + 1)).any (·.op = .gcstep) = true then (b.ir r).map .setNop else b.ir r := by
  rw [IrBuf.ir_modify _ _ _ _ hal, IrBuf.nopGcstep]
  by_cases hg : (b.ir (al + 1)).any (·.op = .gcstep) = true
  · rw [if_pos hg, IrBuf.ir_modify _ _ _ _ (by omega)]
    by_cases h1 : r = al
    · have h2 : r ≠ al + 1 := by omega
      simp [h1]
    · by_cases h2 : r = al + 1
      · subst h2
        simp [hg]
      · simp [h1, h2]
  · rw [if_neg hg]
    by_cases h1 : r = al
    · simp [h1]
    · simp [h1, hg]

theorem nopAlloc_rest (al : ℕ) : ((b.nopGcstep al).modify al .setNop).k = b.k ∧
    ((b.nopGcstep al).modify al .setNop).k64 = b.k64 ∧ ((b.nopGcstep al).modify al .setNop).chain = b.chain ∧
    ((b.nopGcstep al).modify al .setNop).ins.length = b.ins.length := by
  rw [IrBuf.k_modify, IrBuf.k64_modify, IrBuf.chain_modify, IrBuf.ins_modify, List.length_modify, IrBuf.nopGcstep]
  split
  · rw [IrBuf.k_modify, IrBuf.k64_modify, IrBuf.chain_modify, IrBuf.ins_modify, List.length_modify]
    exact ⟨rfl, rfl, rfl, rfl⟩
  · exact ⟨rfl, rfl, rfl, rfl⟩

end Subst
end LuajitRs.Ir
