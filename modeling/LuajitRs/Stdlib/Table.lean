import LuajitRs.Runtime.Table.Len
import LuajitRs.Util.F64
import LuajitRs.Lib.ParallelMove
import LuajitRs.Lib.Ensures
import LuajitRs.Runtime.Table.Refinement

/-! The functions of the table library that insert, remove and move elements. The tables of a program are a
map from their addresses, so that two arguments can be the same table. Overflow checks are on: an operation
on `i32` or `i64` whose result does not fit is a fault. -/
namespace LuajitRs

/-- `n as i64`: truncation that saturates and sends NaN to zero. -/
def F64.asI64 (x : F64) : ℤ := if x.isNaN then 0 else max (-2^63) (min (2^63-1) x.trunc)

namespace TabLib

def asTable : LuaValue → Option ℕ
  | .tab a => some a
  | _ => none

/-- An error that a library function raises. -/
inductive LibError
  | badArg (e : BadArg)
  | runtime (msg : String)
  deriving DecidableEq, Repr

/-- Argument `i` of a call, or nil. -/
def arg (args : List LuaValue) (i : ℕ) : LuaValue := args.getD i .nil

def inI32 (i : ℤ) : Except Fault ℤ := if -2^31 ≤ i ∧ i < 2^31 then .ok i else .error .overflow
def inI64 (i : ℤ) : Except Fault ℤ := if -2^63 ≤ i ∧ i < 2^63 then .ok i else .error .overflow

/-- `i as i32` for an `i64`. -/
def wrapI32 (i : ℤ) : ℤ := i.bmod (2^32)

/-- The tables of a program by their addresses. -/
abbrev Tables := ℕ → LuaTable

/-- The tables after a call and the values that it returns, or the error that it raises. -/
abbrev Call := Except Fault (Tables × Except LibError (List LuaValue))

section
variable (h : LuaValue → UInt32) (ts : Tables)

def lenAsI32 (a : ℕ) : Except Fault ℤ := ((ts a).len h).map u32AsI32

def setInt (a : ℕ) (k : ℤ) (v : LuaValue) : Except Fault Tables :=
  ((ts a).setInt h k v).map (Function.update ts a)

/-- Read the element `s` of one table and store it as the element `d` of another or the same. -/
def copyInt (src : ℕ) (s : ℤ) (dst : ℕ) (d : ℤ) : Except Fault Tables := do
  let v ← (ts src).getInt h s
  setInt h ts dst d v

/-- `for k in (pos..=len).rev()`, with the `n` rounds from `k = pos + n - 1` down to go. -/
def shiftUp (a : ℕ) (pos : ℤ) : (n : ℕ) → Tables → Except Fault Tables
  | 0, ts => .ok ts
  | n + 1, ts => do
    let k := pos + n
    let k' ← inI32 (k + 1)
    let ts ← copyInt h ts a k a k'
    shiftUp a pos n ts

def tabInsert (args : List LuaValue) : Call :=
  match asTable (arg args 0) with
  | none => .ok (ts, .error (.badArg ⟨1, "table.insert", "table", typeName (arg args 0)⟩))
  | some t =>
    if args.length = 2 then do
      let len ← lenAsI32 h ts t
      let pos ← inI32 (len + 1)
      let ts ← setInt h ts t pos (arg args 1)
      pure (ts, .ok [])
    else if 3 ≤ args.length then do
      let pos := ((arg args 1).asNumber.getD (.ofInt 1)).asI32
      let len ← lenAsI32 h ts t
      let last ← inI32 (len + 1)
      if pos < 1 ∨ last < pos then pure (ts, .error (.runtime "position out of bounds"))
      else do
        let ts ← shiftUp h t pos (len + 1 - pos).toNat ts
        let ts ← setInt h ts t pos (arg args 2)
        pure (ts, .ok [])
    else .ok (ts, .ok [])

/-- `for k in 0..len`, with `n` rounds from `k` on to go. -/
def moveLoop (src dst : ℕ) (f t : ℤ) : (n k : ℕ) → Tables → Except Fault Tables
  | 0, _, ts => .ok ts
  | n + 1, k, ts => do
    let s ← inI64 (f + k)
    let d ← inI64 (t + k)
    let ts ← copyInt h ts src (wrapI32 s) dst (wrapI32 d)
    moveLoop src dst f t n (k + 1) ts

def tabMove (args : List LuaValue) : Call :=
  match asTable (arg args 0) with
  | none => .ok (ts, .error (.badArg ⟨1, "table.move", "table", typeName (arg args 0)⟩))
  | some a1 =>
    let f := ((arg args 1).asNumber.getD (.ofInt 1)).asI64
    match (arg args 2).asNumber with
    | none => .ok (ts, .error (.badArg ⟨3, "table.move", "number", typeName (arg args 2)⟩))
    | some n => do
      let tPos := ((arg args 3).asNumber.getD (.ofInt 1)).asI64
      let a2 := (asTable (arg args 4)).getD a1
      let len ← inI64 (n.asI64 - f)
      let len ← inI64 (len + 1)
      let ts ← moveLoop h a1 a2 f tPos len.toNat 0 ts
      pure (ts, .ok [.tab a2])

/-- `for i in pos..len`, with `n` rounds from `i` on to go. -/
def shiftDown (a : ℕ) : (n : ℕ) → (i : ℤ) → Tables → Except Fault Tables
  | 0, _, ts => .ok ts
  | n + 1, i, ts => do
    let i' ← inI32 (i + 1)
    let ts ← copyInt h ts a i' a i
    shiftDown a n i' ts

/-- The position argument of `table.remove`, or none for a number below one. -/
def removePos (v : LuaValue) (len : ℤ) : Option ℤ :=
  match v.asNumber with
  | some n => if (F64.ofInt 1).le n then some n.asI32 else none
  | none => some len

def tabRemove (args : List LuaValue) : Call :=
  match asTable (arg args 0) with
  | none => .ok (ts, .error (.badArg ⟨1, "table.remove", "table", typeName (arg args 0)⟩))
  | some t => do
    let len ← lenAsI32 h ts t
    match removePos (arg args 1) len with
    | none => pure (ts, .error (.badArg ⟨2, "table.remove", "number", typeName (arg args 1)⟩))
    | some pos =>
      let pos := min (max pos 1) len
      if pos = 0 ∨ len < pos ∨ len = 0 then pure (ts, .ok [.nil])
      else do
        let v ← (ts t).getInt h pos
        let ts ← shiftDown h t (len - pos).toNat pos ts
        let ts ← setInt h ts t len .nil
        pure (ts, .ok [v])

end
end TabLib
end LuajitRs

/-! What the loops of the table library do to the elements of the tables. The contents of all tables are one
map, on which the loops are sequences of copies. -/
namespace LuajitRs.TabLib
open Lib Lib.Copies

/-- The only fault of a store: the table has no room, and `full` says when. -/
def NoRoom (full : Prop) (e : Fault) : Prop := e = .tableOverflow ∧ full

theorem NoRoom.imp {p q : Prop} (hpq : p → q) (e : Fault) (he : NoRoom p e) : NoRoom q e := ⟨he.1, hpq he.2⟩

/-! ### Contents -/

theorem normal_ofInt (i : ℤ) : (LuaValue.ofInt i).Normal := by
  rw [LuaValue.Normal, LuaValue.ofInt, LuaValue.number, LuaValue.normalizeKey, LuaValue.number,
    F64.normalize_normalize]

/-- An integer as a key. -/
def intKey (i : ℤ) : NormalKey := ⟨.ofInt i, normal_ofInt i⟩

theorem intKey_inj {i j : ℤ} (hi : i.natAbs < 2^53) (hj : j.natAbs < 2^53) (he : intKey i = intKey j) : i = j := by
  have hv : LuaValue.ofInt i = LuaValue.ofInt j := congrArg Subtype.val he
  rw [LuaValue.ofInt_eq hi, LuaValue.ofInt_eq hj] at hv
  exact F64.ofInt_inj hi hj (LuaValue.num.inj hv)

/-- A place for a value: a table and a key. -/
abbrev Cell := ℕ × NormalKey

/-- The values of all tables. -/
def content (ts : Tables) : Cell → LuaValue := fun c => (ts c.1).value c.2.1

/-- The element `i` of the table `a`. -/
def elem (ts : Tables) (a : ℕ) (i : ℤ) : LuaValue := content ts (a, intKey i)

/-- Every table is one that a run of the table operations has made. -/
def Made (h : LuaValue → UInt32) (ts : Tables) : Prop :=
  ∀ a, ∃ asize hbits ops, LuaTable.start h asize hbits ops = .ok (ts a)

/-- Every table satisfies the chain invariant. -/
def Sound (h : LuaValue → UInt32) (ts : Tables) : Prop := ∀ a, (ts a).Chained h

section
variable {h : LuaValue → UInt32} {ts ts' start : Tables} {a : ℕ}

theorem Made.sound (hm : Made h ts) : Sound h ts := by
  intro a
  obtain ⟨asize, hbits, ops, hrun⟩ := hm a
  have hs := LuaTable.start_spec h asize hbits ops
  rw [hrun] at hs
  exact hs.1

theorem Sound.getInt (hs : Sound h ts) {k : ℤ} (hlo : -2^31 ≤ k) (hhi : k < 2^31) :
    (ts a).getInt h k = .ok (elem ts a k) :=
  LuaTable.getInt_spec (hs a).toWf (hs a).findable hlo hhi

/-- A store changes one cell. -/
theorem ensures_setInt (hs : Sound h ts) {k : ℤ} (hlo : -2^31 ≤ k) (hhi : k < 2^31) (v : LuaValue) :
    Ensures (NoRoom (2^LJ_MAX_HBITS ≤ (ts a).liveCount)) (setInt h ts a k v)
      fun ts' => Sound h ts' ∧ content ts' = Function.update (content ts) (a, intKey k) v := by
  have hspec := LuaTable.setInt_spec (v := v) (hs a).toWf (hs a).findable hlo hhi fun _ => (hs a).noStrand _
  unfold setInt
  cases hr : (ts a).setInt h k v with
  | error e =>
    rw [hr] at hspec
    exact hspec
  | ok t =>
    rw [hr] at hspec
    have st : (ts a).Stored h t (.ofInt k) v := hspec
    refine ⟨fun b => ?_, ?_⟩
    · by_cases hb : b = a
      · subst hb
        rw [Function.update_self]
        exact st.chained (hs b)
      · rw [Function.update_of_ne hb]
        exact hs b
    · funext ⟨b, k'⟩
      by_cases hb : b = a
      · subst hb
        simp only [content, Function.update_self, Function.update_apply, Prod.mk.injEq, true_and, Subtype.ext_iff]
        exact st.puts k'.1 k'.2
      · have hne : (b, k') ≠ (a, intKey k) := fun he => hb (congrArg Prod.fst he)
        simp only [content, Function.update_of_ne hb, Function.update_of_ne hne]

/-! ### Room -/

/-- The table `a` has no elements but those at the start and those under the keys `new`. -/
def Within (start ts : Tables) (a : ℕ) (new : List LuaValue) : Prop :=
  ∀ k : NormalKey, content ts (a, k) ≠ .nil → content start (a, k) ≠ .nil ∨ k.1 ∈ new

theorem Within.refl {new : List LuaValue} : Within ts ts a new := fun _ hv => .inl hv

theorem Within.liveCount_le {new : List LuaValue} (hw : Within start ts a new) (h₀ : Sound h start) (hs : Sound h ts) :
    (ts a).liveCount ≤ (start a).liveCount + new.length := by
  have hle : (ts a).liveCount ≤ (((start a).movedEntries 0).map Prod.fst ++ new).length := by
    refine LuaTable.liveCount_le (hs a).toWf (hs a).findable fun k hk hv => ?_
    rw [List.mem_append]
    exact (hw ⟨k, hk⟩ hv).imp (fun h0 => (LuaTable.mem_keys (h₀ a).toWf (h₀ a).findable).mpr ⟨hk, h0⟩) id
  simpa [LuaTable.liveCount] using hle

theorem Within.store {new : List LuaValue} (hw : Within start ts a new) {b : ℕ} {k : NormalKey} {v : LuaValue}
    (hc : content ts' = Function.update (content ts) (b, k) v)
    (hk : b = a → v ≠ .nil → content start (a, k) ≠ .nil ∨ k.1 ∈ new) : Within start ts' a new := by
  intro k' hv
  rw [hc, Function.update_apply] at hv
  split_ifs at hv with he
  · obtain ⟨rfl, rfl⟩ := Prod.mk.inj he
    exact hk rfl hv
  · exact hw k' hv

/-! ### Copies -/

variable (h) in
/-- The copies of the pairs of a source and a target index from left to right. -/
def copyAll (src dst : ℕ) (cs : List (ℤ × ℤ)) (ts : Tables) : Except Fault Tables :=
  cs.foldlM (fun ts c => copyInt h ts src c.1 dst c.2) ts

/-- The cells of a pair of indices. -/
def cells (src dst : ℕ) (c : ℤ × ℤ) : Cell × Cell := ((src, intKey c.1), (dst, intKey c.2))

def IsI32 (i : ℤ) : Prop := -2^31 ≤ i ∧ i < 2^31

instance : DecidablePred IsI32 := fun i => inferInstanceAs (Decidable (-2^31 ≤ i ∧ i < 2^31))

theorem ensures_copyAll (src dst : ℕ) (new : List LuaValue) (h₀ : Sound h start) (cs : List (ℤ × ℤ)) (hs : Sound h ts)
    (hi : ∀ c ∈ cs, IsI32 c.1 ∧ IsI32 c.2)
    (hnew : ∀ c ∈ cs, elem start dst c.2 ≠ .nil ∨ .ofInt c.2 ∈ new) (hw : Within start ts dst new) :
    Ensures (NoRoom (2^LJ_MAX_HBITS ≤ (start dst).liveCount + new.length)) (copyAll h src dst cs ts)
      fun ts' => Sound h ts' ∧ content ts' = copies (content ts) (cs.map (cells src dst)) ∧
        Within start ts' dst new := by
  induction cs generalizing ts with
  | nil => exact ⟨hs, rfl, hw⟩
  | cons c cs ih =>
    obtain ⟨hs1, hs2⟩ := hi c List.mem_cons_self
    have hstep : copyAll h src dst (c :: cs) ts = copyInt h ts src c.1 dst c.2 >>= copyAll h src dst cs := rfl
    rw [hstep, copyInt, hs.getInt hs1.1 hs1.2]
    have hset := ensures_setInt (a := dst) hs hs2.1 hs2.2 (elem ts src c.1)
    have hroom := hw.liveCount_le h₀ hs
    refine (hset.weaken (NoRoom.imp fun hbig => hbig.trans hroom)).bind ?_
    rintro ts₁ ⟨hs₁, hc₁⟩
    have hw₁ := hw.store hc₁ fun _ _ => hnew c List.mem_cons_self
    refine (ih hs₁ (fun d hd => hi d (List.mem_cons_of_mem _ hd)) (fun d hd => hnew d (List.mem_cons_of_mem _ hd))
      hw₁).mono ?_
    rintro ts₂ ⟨hs₂, hc₂, hw₂⟩
    refine ⟨hs₂, ?_, hw₂⟩
    rw [hc₂, hc₁]
    rfl

/-- Copies that write no cell twice, and none before it is read, leave every target with what its source held. -/
theorem elem_of_copies {src dst : ℕ} {cs : List (ℤ × ℤ)}
    (hc : content ts' = copies (content ts) (cs.map (cells src dst))) (hi : ∀ c ∈ cs, IsI32 c.1 ∧ IsI32 c.2)
    (hnodup : (cs.map Prod.snd).Nodup) (hsafe : src = dst → cs.Pairwise fun c d => c.2 ≠ d.1) :
    (∀ c ∈ cs, elem ts' dst c.2 = elem ts src c.1) ∧
      ∀ x, (∀ c ∈ cs, x ≠ (dst, intKey c.2)) → content ts' x = content ts x := by
  have hinj : ∀ i j, IsI32 i → IsI32 j → intKey i = intKey j → i = j := fun i j hi hj he =>
    intKey_inj (by unfold IsI32 at hi; omega) (by unfold IsI32 at hj; omega) he
  have hn : ((cs.map (cells src dst)).map Prod.snd).Nodup := by
    rw [List.map_map]
    refine List.Nodup.map_on (fun c hc d hd he => ?_) (List.Nodup.of_map _ hnodup)
    exact List.inj_on_of_nodup_map hnodup hc hd (hinj _ _ (hi c hc).2 (hi d hd).2 (Prod.mk.inj he).2)
  have hp : (cs.map (cells src dst)).Pairwise fun c d => c.2 ≠ d.1 := by
    rw [List.pairwise_map]
    by_cases hsd : src = dst
    · refine List.Pairwise.imp_of_mem (fun {c d} hc hd hne he => hne ?_) (hsafe hsd)
      exact hinj _ _ (hi c hc).2 (hi d hd).1 (Prod.mk.inj he).2
    · exact List.pairwise_of_forall fun c d he => hsd (Prod.mk.inj he).1.symm
  refine ⟨fun c hcs => ?_, fun x hx => ?_⟩
  · rw [elem, hc]
    exact copies_snapshot (c := cells src dst c) hn hp (List.mem_map_of_mem hcs)
  · rw [hc]
    refine copies_of_notMem fun d hd he => ?_
    obtain ⟨c, hcs, rfl⟩ := List.mem_map.mp hd
    exact hx c hcs he.symm

/-- The table `{10}`, under every address. -/
def single : Tables := fun _ => ⟨[.nil, .ofInt 10, .nil], [], none, 3, 0, 0, 255⟩

theorem made_single : Made h single := fun _ => ⟨3, 0, [.setInt 1 (.ofInt 10)], rfl⟩

end
end LuajitRs.TabLib
