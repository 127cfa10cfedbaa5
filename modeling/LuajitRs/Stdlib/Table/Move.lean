import LuajitRs.Stdlib.Table

/-! `table.move` copies upwards, with each index cut to an `i32`. The result is exact here: which element ends
where for any overlap of the ranges and any indices. -/
namespace LuajitRs.TabLib
open Lib Lib.Copies

/-- The ranges are copied as from a snapshot, and nothing else changes. -/
def Snapshot (ts ts' : Tables) (a b : ℕ) (f t : ℤ) (n : ℕ) : Prop :=
  (∀ i : ℕ, i < n → elem ts' b (t + i) = elem ts a (f + i)) ∧
    ∀ x : Cell, (∀ i : ℕ, i < n → x ≠ (b, intKey (t + i))) → content ts' x = content ts x

/-- How many copies before it a copy meets what was written over its source. -/
def distance (f t : ℤ) : ℕ := if (t - f) % 2^32 = 0 then 2^32 else ((t - f) % 2^32).toNat

/-- The last copy to the target of copy `i`, when the indices come round again. -/
def lastCopy (n i : ℕ) : ℕ := i + 2^32 * ((n - 1 - i) / 2^32)

/-- What the target of copy `i` holds in the end. -/
def moved (ts : Tables) (a b : ℕ) (f t : ℤ) (n i : ℕ) : LuaValue :=
  elem ts a (wrapI32 (f + ((if a = b then lastCopy n i % distance f t else lastCopy n i : ℕ) : ℤ)))

/-- Copy `i` does no harm: its value is that of the right source, if its target index is an `i32`; and else the
right target has this value already, and a wrong target what it gets. -/
def Harmless (ts : Tables) (a b : ℕ) (f t : ℤ) (n i : ℕ) : Prop :=
  if IsI32 (t + i) then moved ts a b f t n i = elem ts a (f + i)
  else elem ts b (t + i) = elem ts a (f + i) ∧
    (¬ (t ≤ wrapI32 (t + i) ∧ wrapI32 (t + i) < t + n) → elem ts b (wrapI32 (t + i)) = moved ts a b f t n i)

section
variable {h : LuaValue → UInt32} {ts ts' : Tables} {a b n : ℕ} {f e t : ℤ}

/-! ### Indices -/

theorem wrapI32_spec (i : ℤ) : IsI32 (wrapI32 i) ∧ (wrapI32 i - i) % 2^32 = 0 := by
  unfold wrapI32 IsI32
  rw [Int.bmod_def]
  constructor <;> split <;> omega

theorem wrapI32_eq {i : ℤ} (hi : IsI32 i) : wrapI32 i = i := by
  have := wrapI32_spec i
  unfold IsI32 at hi this
  omega

theorem wrapI32_inj (i j : ℤ) : wrapI32 i = wrapI32 j ↔ (i - j) % 2^32 = 0 := by
  have hi := wrapI32_spec i
  have hj := wrapI32_spec j
  unfold IsI32 at hi hj
  constructor <;> intro h <;> omega

theorem intKey_wrapI32 (i j : ℤ) : intKey (wrapI32 i) = intKey (wrapI32 j) ↔ (i - j) % 2^32 = 0 := by
  have hi := (wrapI32_spec i).1
  have hj := (wrapI32_spec j).1
  unfold IsI32 at hi hj
  rw [← wrapI32_inj]
  exact ⟨fun he => intKey_inj (by omega) (by omega) he, fun he => by rw [he]⟩

theorem asI64_ofInt {i : ℤ} (hi : i.natAbs < 2^53) : (F64.ofInt i).asI64 = i := by
  rw [F64.asI64, F64.isNaN_ofInt hi, F64.trunc_ofInt hi]
  simp
  omega

theorem distance_spec (f t : ℤ) : 0 < distance f t ∧ distance f t ≤ 2^32 ∧ (f + distance f t - t) % 2^32 = 0 := by
  unfold distance
  split_ifs with h0 <;> refine ⟨?_, ?_, ?_⟩ <;> push_cast <;> omega

theorem lastCopy_spec {i : ℕ} (hi : i < n) : i ≤ lastCopy n i ∧ lastCopy n i < n ∧ n ≤ lastCopy n i + 2^32 ∧
    ((lastCopy n i : ℤ) - i) % 2^32 = 0 := by
  unfold lastCopy
  have hdiv := Nat.div_add_mod (n - 1 - i) (2^32)
  have hmod := Nat.mod_lt (n - 1 - i) (show 0 < 2^32 by norm_num)
  refine ⟨by omega, by omega, by omega, ?_⟩
  push_cast
  rw [add_sub_cancel_left]
  exact Int.mul_emod_right _ _

/-! ### The loop -/

/-- The index pairs of the loop from round `k` on. -/
def movePairs (f t : ℤ) (k n : ℕ) : List (ℤ × ℤ) :=
  (List.range n).map fun i : ℕ => (wrapI32 (f + (k + i : ℕ)), wrapI32 (t + (k + i : ℕ)))

theorem moveLoop_eq (n : ℕ) {k : ℕ} (hf : -2^63 ≤ f + k ∧ f + (k + n : ℕ) ≤ 2^63)
    (ht : -2^63 ≤ t + k ∧ t + (k + n : ℕ) ≤ 2^63) (ts : Tables) :
    moveLoop h a b f t n k ts = copyAll h a b (movePairs f t k n) ts := by
  induction n generalizing k ts with
  | zero => rfl
  | succ n ih =>
    have hcons : movePairs f t k (n + 1) =
        (wrapI32 (f + k), wrapI32 (t + k)) :: movePairs f t (k + 1) n := by
      simp only [movePairs, List.range_succ_eq_map, List.map_cons, List.map_map, add_zero, List.cons.injEq, true_and]
      refine List.map_congr_left fun i _ => ?_
      rw [Function.comp, show k + i.succ = k + 1 + i by omega]
    have hs : inI64 (f + k) = .ok (f + k) := if_pos ⟨by omega, by omega⟩
    have hd : inI64 (t + k) = .ok (t + k) := if_pos ⟨by omega, by omega⟩
    rw [moveLoop, hs, ok_bind, hd, ok_bind, hcons,
      funext (ih (k := k + 1) ⟨by omega, by omega⟩ ⟨by omega, by omega⟩)]
    rfl

/-- The cells of the copies. -/
def sourceCell (a : ℕ) (f : ℤ) (i : ℕ) : Cell := (a, intKey (wrapI32 (f + i)))

theorem cells_movePairs : (movePairs f t 0 n).map (cells a b) = upTo (sourceCell a f) (sourceCell b t) n := by
  rw [movePairs, List.map_map, upTo]
  refine List.map_congr_left fun i _ => ?_
  rw [Function.comp, cells, Nat.zero_add]
  rfl

theorem sourceCell_inj {i j : ℕ} : sourceCell a f i = sourceCell b t j ↔
    a = b ∧ (f + i - (t + j)) % 2^32 = 0 := by
  rw [sourceCell, sourceCell, Prod.mk.injEq, intKey_wrapI32]

/-- What a copy reads. -/
theorem copies_read (m : Cell → LuaValue) (i : ℕ) :
    copies m (upTo (sourceCell a f) (sourceCell b t) i) (sourceCell a f i) =
      m (sourceCell a f (if a = b then i % distance f t else i)) := by
  split_ifs with hab
  · subst hab
    obtain ⟨hpos, hle, hd⟩ := distance_spec f t
    refine copies_upTo_read hpos (fun i => ?_) (fun i j hij hj he => ?_) (fun i j hi hj he => ?_) i
    · rw [sourceCell_inj]
      push_cast
      omega
    · rw [sourceCell_inj] at he
      omega
    · rw [sourceCell_inj] at he
      omega
  · refine copies_of_notMem fun c hc he => ?_
    obtain ⟨j, hj, rfl⟩ := mem_upTo.mp hc
    exact hab (sourceCell_inj.mp he).1.symm

/-- The target of copy `i` holds what the last copy to it read. -/
theorem copies_target (m : Cell → LuaValue) {i : ℕ} (hi : i < n) :
    copies m (upTo (sourceCell a f) (sourceCell b t) n) (sourceCell b t i) =
      m (sourceCell a f (if a = b then lastCopy n i % distance f t else lastCopy n i)) := by
  obtain ⟨hle, hlt, hend, hmod⟩ := lastCopy_spec hi
  have hsame : sourceCell b t i = sourceCell b t (lastCopy n i) := sourceCell_inj.mpr ⟨rfl, by omega⟩
  rw [hsame, copies_upTo_target hlt fun j hj hjn he => ?_, copies_read]
  rw [sourceCell_inj] at he
  omega

/-! ### The law -/

theorem snapshot_iff (hc : content ts' = copies (content ts) (upTo (sourceCell a f) (sourceCell b t) n))
    (ht : ∀ i : ℕ, i < n → (t + i).natAbs < 2^53) :
    Snapshot ts ts' a b f t n ↔ ∀ i, i < n → Harmless ts a b f t n i := by
  have htarget : ∀ i, i < n → content ts' (sourceCell b t i) = moved ts a b f t n i := fun i hi => by
    rw [hc, copies_target _ hi]
    rfl
  have hrest : ∀ x : Cell, (∀ i, i < n → x ≠ sourceCell b t i) → content ts' x = content ts x := fun x hx => by
    rw [hc]
    refine copies_of_notMem fun c hcs he => ?_
    obtain ⟨i, hi, rfl⟩ := mem_upTo.mp hcs
    exact hx i hi he.symm
  have hfit : ∀ i : ℕ, IsI32 (t + i) → sourceCell b t i = (b, intKey (t + i)) := fun i hi => by
    rw [sourceCell, wrapI32_eq hi]
  -- A target whose index is no `i32` is not written.
  have hunfit : ∀ i : ℕ, i < n → ¬ IsI32 (t + i) → elem ts' b (t + i) = elem ts b (t + i) := fun i hi hno =>
    hrest _ fun j _ he => by
      have hj := (wrapI32_spec (t + j)).1
      have heq := intKey_inj (ht i hi) (by unfold IsI32 at hj; omega) (Prod.mk.inj he).2
      exact hno (heq ▸ hj)
  constructor
  · rintro ⟨hin, hout⟩ i hi
    unfold Harmless
    split_ifs with h32
    · rw [← htarget i hi, hfit i h32]
      exact hin i hi
    · refine ⟨(hunfit i hi h32).symm.trans (hin i hi), fun hwrong => ?_⟩
      rw [← htarget i hi]
      refine (hout _ fun j hj he => hwrong ?_).symm
      have hw := (wrapI32_spec (t + i)).1
      have := intKey_inj (by unfold IsI32 at hw; omega) (ht j hj) (Prod.mk.inj he).2
      omega
  · intro hall
    refine ⟨fun i hi => ?_, fun x hx => ?_⟩
    · have hi' := hall i hi
      unfold Harmless at hi'
      split_ifs at hi' with h32
      · rw [← hi', ← htarget i hi, hfit i h32]
        rfl
      · exact (hunfit i hi h32).trans hi'.1
    · by_cases hw : ∃ i, i < n ∧ x = sourceCell b t i
      · obtain ⟨i, hi, rfl⟩ := hw
        have hno : ¬ IsI32 (t + i) := fun h32 => hx i hi (hfit i h32)
        have hi' := hall i hi
        rw [Harmless, if_neg hno] at hi'
        rw [htarget i hi]
        refine (hi'.2 fun hin => hx (wrapI32 (t + i) - t).toNat (by omega) ?_).symm
        rw [sourceCell, Int.toNat_of_nonneg (by omega), add_sub_cancel]
      · exact hrest x fun i hi he => hw ⟨i, hi, he⟩

/-- A move leaves exactly the snapshot when every copy is harmless. -/
theorem move_law (hm : Made h ts) {last : LuaValue} (hb : b = (asTable last).getD a) (hf : f.natAbs < 2^53)
    (he : e.natAbs < 2^53) (ht : t.natAbs < 2^53) (hte : (t + (e - f)).natAbs < 2^53) :
    Ensures (NoRoom (2^LJ_MAX_HBITS ≤ (ts b).liveCount + (e - f + 1).toNat))
      (tabMove h ts [.tab a, .num (.ofInt f), .num (.ofInt e), .num (.ofInt t), last])
      fun r => r.2 = .ok [.tab b] ∧
        (Snapshot ts r.1 a b f t (e - f + 1).toNat ↔
          ∀ i, i < (e - f + 1).toNat → Harmless ts a b f t (e - f + 1).toNat i) := by
  have hrun : tabMove h ts [.tab a, .num (.ofInt f), .num (.ofInt e), .num (.ofInt t), last] = (do
      let len ← inI64 ((F64.ofInt e).asI64 - (F64.ofInt f).asI64)
      let len ← inI64 (len + 1)
      let ts ← moveLoop h a ((asTable last).getD a) (F64.ofInt f).asI64 (F64.ofInt t).asI64 len.toNat 0 ts
      pure (ts, .ok [.tab ((asTable last).getD a)])) := rfl
  have hlen : inI64 (e - f) = .ok (e - f) := if_pos ⟨by omega, by omega⟩
  have hlen1 : inI64 (e - f + 1) = .ok (e - f + 1) := if_pos ⟨by omega, by omega⟩
  rw [hrun, ← hb, asI64_ofInt hf, asI64_ofInt he, asI64_ofInt ht, hlen, ok_bind, hlen1, ok_bind,
    moveLoop_eq _ ⟨by omega, by omega⟩ ⟨by omega, by omega⟩]
  have hcopy := ensures_copyAll a b
    ((movePairs f t 0 (e - f + 1).toNat).map fun c => .ofInt c.2) hm.sound (movePairs f t 0 (e - f + 1).toNat)
    hm.sound (fun c hc => ?_) (fun c hc => .inr (List.mem_map_of_mem hc)) Within.refl
  · rw [List.length_map, movePairs, List.length_map, List.length_range, ← movePairs] at hcopy
    refine hcopy.bind ?_
    rintro ts₁ ⟨-, hc, -⟩
    rw [cells_movePairs] at hc
    exact ⟨rfl, snapshot_iff hc fun i hi => by omega⟩
  · obtain ⟨i, -, rfl⟩ := List.mem_map.mp hc
    exact ⟨(wrapI32_spec _).1, (wrapI32_spec _).1⟩

/-! ### Two elements -/

/-- The table `{10, 20}`. -/
def pair : Tables := fun _ => ⟨[.nil, .ofInt 10, .ofInt 20, .nil], [], none, 4, 0, 0, 255⟩

theorem made_pair : Made h pair := fun _ => ⟨4, 0, [.setInt 1 (.ofInt 10), .setInt 2 (.ofInt 20)], rfl⟩

theorem move_law_pair :
    Ensures (NoRoom (2^LJ_MAX_HBITS ≤ (pair 0).liveCount + ((2 : ℤ) - 1 + 1).toNat))
      (tabMove (fun _ => 0) pair [.tab 0, .num (.ofInt 1), .num (.ofInt 2), .num (.ofInt 3), .nil])
      fun r => r.2 = .ok [.tab 0] ∧
        (Snapshot pair r.1 0 0 1 3 ((2 : ℤ) - 1 + 1).toNat ↔
          ∀ i, i < ((2 : ℤ) - 1 + 1).toNat → Harmless pair 0 0 1 3 ((2 : ℤ) - 1 + 1).toNat i) :=
  move_law made_pair rfl (by decide) (by decide) (by decide) (by decide)

/-- `table.move({10, 20}, 1, 2, 2)` leaves 10 under the key 3. -/
theorem move_overlap : ∃ ts : Tables, Made (fun _ => 0) ts ∧
    ∃ ts', tabMove (fun _ => 0) ts [.tab 0, .num (.ofInt 1), .num (.ofInt 2), .num (.ofInt 2), .nil] =
        .ok (ts', .ok [.tab 0]) ∧
      elem ts 0 2 = .ofInt 20 ∧ elem ts' 0 3 = .ofInt 10 := by
  refine ⟨pair, made_pair, Function.update (Function.update pair 0
    ⟨[.nil, .ofInt 10, .ofInt 10, .nil], [], none, 4, 0, 0, 255⟩) 0
    ⟨[.nil, .ofInt 10, .ofInt 10, .ofInt 10], [], none, 4, 0, 0, 255⟩, ?_, ?_, ?_⟩
  · rfl
  · rfl
  · rfl

end
end LuajitRs.TabLib
