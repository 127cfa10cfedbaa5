import LuajitRs.Stdlib.Table
import LuajitRs.Util.F64.Order

/-! Insertion into a sequence and removal from it. An insertion does what it should at every position. A
removal clamps its position to the length, so that a position beyond the end removes the last element. -/
namespace LuajitRs.TabLib
open Lib Lib.Copies

/-- The table `a` is a sequence of `n` elements. -/
def IsSeq (ts : Tables) (a n : ℕ) : Prop := ∀ i : ℕ, 0 < i → i < 2^53 → (elem ts a i ≠ .nil ↔ i ≤ n)

/-- The elements from `p` to `n` are one place further up, and `v` is in the gap. -/
structure Inserted (ts ts' : Tables) (a n : ℕ) (p : ℤ) (v : LuaValue) : Prop where
  shifted : ∀ q : ℤ, p ≤ q → q ≤ n → elem ts' a (q + 1) = elem ts a q
  placed : elem ts' a p = v
  others : ∀ x : Cell, (∀ q : ℤ, p ≤ q → q ≤ n + 1 → x ≠ (a, intKey q)) → content ts' x = content ts x

/-- The elements from `p + 1` to `n` are one place further down. -/
structure Removed (ts ts' : Tables) (a n : ℕ) (p : ℤ) : Prop where
  shifted : ∀ q : ℤ, p < q → q ≤ n → elem ts' a (q - 1) = elem ts a q
  cleared : elem ts' a n = .nil
  others : ∀ x : Cell, (∀ q : ℤ, p ≤ q → q ≤ n → x ≠ (a, intKey q)) → content ts' x = content ts x

/-- A list insertion, and no change for a position outside of the list. -/
def InsertLaw (ts : Tables) (a n : ℕ) (p : ℤ) (v : LuaValue)
    (r : Tables × Except LibError (List LuaValue)) : Prop :=
  if 1 ≤ p ∧ p ≤ n + 1 then Inserted ts r.1 a n p v ∧ r.2 = .ok [] else content r.1 = content ts

/-- A list removal. For a position outside of the list nothing changes, and the call returns nothing, nil or
what is there. -/
def RemoveLaw (ts : Tables) (a n : ℕ) (p : ℤ) (r : Tables × Except LibError (List LuaValue)) : Prop :=
  if 1 ≤ p ∧ p ≤ n then Removed ts r.1 a n p ∧ r.2 = .ok [elem ts a p]
  else content r.1 = content ts ∧ (r.2 = .ok [] ∨ r.2 = .ok [.nil] ∨ r.2 = .ok [elem ts a p])

section
variable {h : LuaValue → UInt32} {ts ts' : Tables} {a n : ℕ} {p : ℤ} {v : LuaValue}

/-! ### The length of a sequence -/

theorem get_elem (hs : Sound h ts) (i : ℤ) : (ts a).get h (.ofInt i) = .ok (elem ts a i) :=
  LuaTable.get_spec (hs a).toWf (hs a).findable _

theorem IsSeq.lt (hseq : IsSeq ts a n) (hs : Sound h ts) : n < 2^30 := by
  have l := (hs a).toWf.linked
  have hsize := LuaTable.size_lt l
  obtain ⟨i, hi0, hi, hnil⟩ := LuaTable.exists_absent (h := h) l
  have hlook := LuaTable.get_look (h := h) l (.ofInt (i : ℤ))
  rw [get_elem hs, hnil, Except.ok.injEq] at hlook
  by_contra hn
  exact (hseq i hi0 (by omega)).mpr (by omega) hlook

theorem lenAsI32_seq (hseq : IsSeq ts a n) (hs : Sound h ts) : lenAsI32 h ts a = .ok n := by
  obtain ⟨m, hm, hb⟩ := LuaTable.len_border (hs a).toWf.linked h
  have hn := hseq.lt hs
  have hlt := hb.lt
  have hnext : elem ts a ((m + 1 : ℕ) : ℤ) = .nil := by
    have := hb.next
    rwa [get_elem hs, Except.ok.injEq] at this
  have hgt : n < m + 1 := by
    by_contra hle
    exact (hseq (m + 1) (by omega) (by omega)).mpr (by omega) hnext
  have hle : m ≤ n := by
    by_cases h0 : m = 0
    · omega
    · obtain ⟨w, hw, hne⟩ := hb.last h0
      rw [get_elem hs, Except.ok.injEq] at hw
      exact (hseq m (by omega) (by omega)).mp (hw ▸ hne)
  rw [lenAsI32, hm, show m = n by omega]
  exact congrArg Except.ok (u32AsI32_eq (by omega))

/-! ### Insertion -/

theorem inI32_eq {i : ℤ} (hi : IsI32 i) : inI32 i = .ok i := if_pos hi

theorem asI32_eq {x : F64} (hx : x.isNaN = false) : x.asI32 = max (-2^31) (min (2^31-1) x.trunc) := by
  simp [F64.asI32, hx]

/-- The pairs of the upward shift from the top down. -/
def upPairs (pos : ℤ) (n : ℕ) : List (ℤ × ℤ) := ((List.range n).map fun i : ℕ => (pos + i, pos + i + 1)).reverse

theorem mem_upPairs {pos : ℤ} {c : ℤ × ℤ} : c ∈ upPairs pos n ↔ ∃ i : ℕ, i < n ∧ (pos + i, pos + i + 1) = c := by
  simp [upPairs]

theorem shiftUp_eq {pos : ℤ} (hlo : -2^31 ≤ pos) (n : ℕ) (hhi : pos + n < 2^31) (ts : Tables) :
    shiftUp h a pos n ts = copyAll h a a (upPairs pos n) ts := by
  induction n generalizing ts with
  | zero => rfl
  | succ n ih =>
    push_cast at hhi
    have hcons : upPairs pos (n + 1) = (pos + n, pos + n + 1) :: upPairs pos n := by
      simp [upPairs, List.range_succ]
    have hi : inI32 (pos + n + 1) = .ok (pos + n + 1) := inI32_eq ⟨by omega, by omega⟩
    rw [shiftUp, hi, hcons]
    change (copyInt h ts a (pos + n) a (pos + n + 1) >>= fun ts => shiftUp h a pos n ts) = _
    rw [funext (ih (by omega))]
    rfl

/-- The gap that the upward shift makes. -/
theorem ensures_shiftUp (hs : Sound h ts) (hseq : IsSeq ts a n) (h1 : 1 ≤ p) (hp : p ≤ n + 1) :
    Ensures (NoRoom (2^LJ_MAX_HBITS ≤ (ts a).liveCount + 1)) (shiftUp h a p (n + 1 - p).toNat ts)
      fun ts' => Sound h ts' ∧ Within ts ts' a [.ofInt (n + 1)] ∧
        (∀ q : ℤ, p ≤ q → q ≤ n → elem ts' a (q + 1) = elem ts a q) ∧
        ∀ x : Cell, (∀ q : ℤ, p < q → q ≤ n + 1 → x ≠ (a, intKey q)) → content ts' x = content ts x := by
  have hn := hseq.lt hs
  have hmem : ∀ c ∈ upPairs p (n + 1 - p).toNat, c.2 = c.1 + 1 ∧ p ≤ c.1 ∧ c.1 ≤ n := by
    intro c hc
    obtain ⟨i, hi, rfl⟩ := mem_upPairs.mp hc
    exact ⟨rfl, by omega, by omega⟩
  have hi32 : ∀ c ∈ upPairs p (n + 1 - p).toNat, IsI32 c.1 ∧ IsI32 c.2 := fun c hc => by
    obtain ⟨h2, hlo, hhi⟩ := hmem c hc
    exact ⟨⟨by omega, by omega⟩, ⟨by omega, by omega⟩⟩
  rw [shiftUp_eq (by omega) _ (by omega)]
  refine (ensures_copyAll a a [.ofInt (n + 1)] hs _ hs hi32 (fun c hc => ?_) Within.refl).mono ?_
  · obtain ⟨h2, hlo, hhi⟩ := hmem c hc
    by_cases htop : c.1 = n
    · exact .inr (by rw [h2, htop]; exact List.mem_singleton_self _)
    · refine .inl ?_
      have := (hseq c.2.toNat (by omega) (by omega)).mpr (by omega)
      rwa [Int.toNat_of_nonneg (by omega)] at this
  · rintro ts' ⟨hs', hc, hw⟩
    have hnodup : ((upPairs p (n + 1 - p).toNat).map Prod.snd).Nodup := by
      rw [upPairs, List.map_reverse, List.nodup_reverse, List.map_map]
      exact List.nodup_range.map fun i j hij => by simpa using hij
    have hsafe : (upPairs p (n + 1 - p).toNat).Pairwise fun c d => c.2 ≠ d.1 := by
      rw [upPairs, List.pairwise_reverse, List.pairwise_map]
      refine List.pairwise_lt_range.imp fun {i j} hij he => ?_
      simp only at he
      omega
    obtain ⟨htgt, hrest⟩ := elem_of_copies hc hi32 hnodup fun _ => hsafe
    refine ⟨hs', hw, fun q hq hqn => ?_, fun x hx => hrest x fun c hc => ?_⟩
    · exact htgt (q, q + 1) (mem_upPairs.mpr ⟨(q - p).toNat, by omega, by
        rw [Int.toNat_of_nonneg (by omega), add_sub_cancel]⟩)
    · obtain ⟨h2, hlo, hhi⟩ := hmem c hc
      exact hx c.2 (by omega) (by omega)

/-- The call with a position. -/
theorem tabInsert_at (x : F64) (v : LuaValue) (rest : List LuaValue) :
    tabInsert h ts (.tab a :: .num x :: v :: rest) = (do
      let len ← lenAsI32 h ts a
      let last ← inI32 (len + 1)
      if x.asI32 < 1 ∨ last < x.asI32 then pure (ts, .error (.runtime "position out of bounds"))
      else do
        let ts ← shiftUp h a x.asI32 (len + 1 - x.asI32).toNat ts
        let ts ← setInt h ts a x.asI32 v
        pure (ts, .ok [])) := by
  have h2 : ¬ (LuaValue.tab a :: .num x :: v :: rest).length = 2 := by simp
  have h3 : 3 ≤ (LuaValue.tab a :: .num x :: v :: rest).length := by simp
  have h0 : asTable (arg (.tab a :: .num x :: v :: rest) 0) = some a := rfl
  unfold tabInsert
  rw [h0]
  dsimp only
  rw [if_neg h2, if_pos h3]
  rfl

theorem ensures_tabInsert (hs : Sound h ts) (hseq : IsSeq ts a n) {x : F64} (hx : x.isNaN = false) (v : LuaValue)
    (rest : List LuaValue) :
    Ensures (NoRoom (2^LJ_MAX_HBITS ≤ (ts a).liveCount + 1)) (tabInsert h ts (.tab a :: .num x :: v :: rest))
      fun r => InsertLaw ts a n x.trunc v r ∧ Sound h r.1 := by
  have hn := hseq.lt hs
  have hpos := asI32_eq hx
  have hlast : inI32 (n + 1) = .ok (n + 1) := inI32_eq ⟨by omega, by omega⟩
  rw [tabInsert_at, lenAsI32_seq hseq hs, ok_bind, hlast, ok_bind]
  by_cases hp : 1 ≤ x.trunc ∧ x.trunc ≤ n + 1
  · obtain ⟨h1, hle⟩ := hp
    have hpos' : x.asI32 = x.trunc := by omega
    rw [hpos', if_neg (by omega)]
    refine (ensures_shiftUp hs hseq h1 hle).bind ?_
    rintro ts₁ ⟨hs₁, hw₁, hshift, hrest⟩
    have hset := ensures_setInt (a := a) (k := x.trunc) hs₁ (by omega) (by omega) v
    have hroom : (ts₁ a).liveCount ≤ (ts a).liveCount + 1 := hw₁.liveCount_le hs hs₁
    refine (hset.weaken (NoRoom.imp fun hbig => hbig.trans hroom)).bind ?_
    rintro ts₂ ⟨hs₂, hc⟩
    have hne : ∀ q : ℤ, x.trunc < q → q ≤ n + 1 → (a, intKey q) ≠ (a, intKey x.trunc) := fun q h1 h2 he => by
      have := intKey_inj (by omega) (by omega) (Prod.mk.inj he).2
      omega
    refine ⟨?_, hs₂⟩
    rw [InsertLaw, if_pos ⟨h1, hle⟩]
    refine ⟨⟨fun q hq hqn => ?_, ?_, fun y hy => ?_⟩, rfl⟩
    · rw [elem, hc, Function.update_of_ne (hne _ (by omega) (by omega))]
      exact hshift q hq hqn
    · rw [elem, hc, Function.update_self]
    · rw [hc, Function.update_of_ne (hy _ le_rfl hle)]
      exact hrest y fun q hq => hy q (by omega)
  · rw [if_pos (by omega)]
    refine ⟨?_, hs⟩
    rw [InsertLaw, if_neg hp]

/-! ### Removal -/

/-- The pairs of the downward shift from the bottom up. -/
def downPairs (i : ℤ) (n : ℕ) : List (ℤ × ℤ) := (List.range n).map fun j : ℕ => (i + j + 1, i + j)

theorem mem_downPairs {i : ℤ} {c : ℤ × ℤ} : c ∈ downPairs i n ↔ ∃ j : ℕ, j < n ∧ (i + j + 1, i + j) = c := by
  simp [downPairs]

theorem shiftDown_eq (n : ℕ) {i : ℤ} (hlo : -2^31 ≤ i) (hhi : i + n < 2^31) (ts : Tables) :
    shiftDown h a n i ts = copyAll h a a (downPairs i n) ts := by
  induction n generalizing i ts with
  | zero => rfl
  | succ n ih =>
    push_cast at hhi
    have hcons : downPairs i (n + 1) = (i + 1, i) :: downPairs (i + 1) n := by
      simp only [downPairs, List.range_succ_eq_map, List.map_cons, List.map_map, Nat.cast_zero, add_zero,
        List.cons.injEq, true_and]
      exact List.map_congr_left fun j _ => by simp only [Function.comp, Nat.cast_succ]; congr 1 <;> ring
    have hi : inI32 (i + 1) = .ok (i + 1) := inI32_eq ⟨by omega, by omega⟩
    rw [shiftDown, hi, hcons]
    change (copyInt h ts a (i + 1) a i >>= fun ts => shiftDown h a n (i + 1) ts) = _
    rw [funext (ih (by omega) (by omega))]
    rfl

theorem ensures_shiftDown (hs : Sound h ts) (hseq : IsSeq ts a n) (h1 : 1 ≤ p) (hp : p ≤ n) :
    Ensures (NoRoom (2^LJ_MAX_HBITS ≤ (ts a).liveCount)) (shiftDown h a (n - p).toNat p ts)
      fun ts' => Sound h ts' ∧ Within ts ts' a [] ∧
        (∀ q : ℤ, p < q → q ≤ n → elem ts' a (q - 1) = elem ts a q) ∧
        ∀ x : Cell, (∀ q : ℤ, p ≤ q → q < n → x ≠ (a, intKey q)) → content ts' x = content ts x := by
  have hn := hseq.lt hs
  have hmem : ∀ c ∈ downPairs p (n - p).toNat, c.1 = c.2 + 1 ∧ p ≤ c.2 ∧ c.2 < n := by
    intro c hc
    obtain ⟨i, hi, rfl⟩ := mem_downPairs.mp hc
    exact ⟨rfl, by omega, by omega⟩
  have hi32 : ∀ c ∈ downPairs p (n - p).toNat, IsI32 c.1 ∧ IsI32 c.2 := fun c hc => by
    obtain ⟨h2, hlo, hhi⟩ := hmem c hc
    exact ⟨⟨by omega, by omega⟩, ⟨by omega, by omega⟩⟩
  rw [shiftDown_eq _ (by omega) (by omega)]
  refine (ensures_copyAll a a [] hs _ hs hi32 (fun c hc => ?_) Within.refl).mono ?_
  · obtain ⟨h2, hlo, hhi⟩ := hmem c hc
    have := (hseq c.2.toNat (by omega) (by omega)).mpr (by omega)
    rw [Int.toNat_of_nonneg (by omega)] at this
    exact .inl this
  · rintro ts' ⟨hs', hc, hw⟩
    have hnodup : ((downPairs p (n - p).toNat).map Prod.snd).Nodup := by
      rw [downPairs, List.map_map]
      exact List.nodup_range.map fun i j hij => by simpa using hij
    have hsafe : (downPairs p (n - p).toNat).Pairwise fun c d => c.2 ≠ d.1 := by
      rw [downPairs, List.pairwise_map]
      refine List.pairwise_lt_range.imp fun {i j} hij he => ?_
      simp only at he
      omega
    obtain ⟨htgt, hrest⟩ := elem_of_copies hc hi32 hnodup fun _ => hsafe
    refine ⟨hs', hw, fun q hq hqn => ?_, fun x hx => hrest x fun c hc => ?_⟩
    · exact htgt (q, q - 1) (mem_downPairs.mpr ⟨(q - 1 - p).toNat, by omega, by
        rw [Int.toNat_of_nonneg (by omega)]; congr 1 <;> ring⟩)
    · obtain ⟨h2, hlo, hhi⟩ := hmem c hc
      exact hx c.2 (by omega) (by omega)

/-- What `table.remove` does once it has settled on the position. -/
theorem ensures_removeAt (hs : Sound h ts) (hseq : IsSeq ts a n) (h1 : 1 ≤ p) (hp : p ≤ n) :
    Ensures (NoRoom (2^LJ_MAX_HBITS ≤ (ts a).liveCount))
      (do
        let v ← (ts a).getInt h p
        let ts ← shiftDown h a (n - p).toNat p ts
        let ts ← setInt h ts a n .nil
        pure (ts, (.ok [v] : Except LibError (List LuaValue))))
      fun r => Removed ts r.1 a n p ∧ r.2 = .ok [elem ts a p] := by
  have hn := hseq.lt hs
  rw [hs.getInt (by omega) (by omega), ok_bind]
  refine (ensures_shiftDown hs hseq h1 hp).bind ?_
  rintro ts₁ ⟨hs₁, hw₁, hshift, hrest⟩
  have hset := ensures_setInt (a := a) (k := n) hs₁ (by omega) (by omega) .nil
  have hroom : (ts₁ a).liveCount ≤ (ts a).liveCount := hw₁.liveCount_le hs hs₁
  refine (hset.weaken (NoRoom.imp fun hbig => hbig.trans hroom)).bind ?_
  rintro ts₂ ⟨-, hc⟩
  have hne : ∀ q : ℤ, 0 ≤ q → q < n → (a, intKey q) ≠ (a, intKey n) := fun q h1 h2 he => by
    have := intKey_inj (by omega) (by omega) (Prod.mk.inj he).2
    omega
  refine ⟨⟨fun q hq hqn => ?_, ?_, fun y hy => ?_⟩, rfl⟩
  · rw [elem, hc, Function.update_of_ne (hne _ (by omega) (by omega))]
    exact hshift q hq hqn
  · rw [elem, hc, Function.update_self]
  · rw [hc, Function.update_of_ne (hy _ hp le_rfl)]
    exact hrest y fun q hq hqn => hy q hq (by omega)

/-- The call with a position on a sequence. -/
theorem tabRemove_at (hs : Sound h ts) (hseq : IsSeq ts a n) (x : F64) (rest : List LuaValue) :
    tabRemove h ts (.tab a :: .num x :: rest) =
      if (F64.ofInt 1).le x = true then
        let pos := min (max x.asI32 1) n
        if pos = 0 ∨ n < pos ∨ (n : ℤ) = 0 then .ok (ts, .ok [.nil])
        else do
          let v ← (ts a).getInt h pos
          let ts ← shiftDown h a (n - pos).toNat pos ts
          let ts ← setInt h ts a n .nil
          pure (ts, .ok [v])
      else .ok (ts, .error (.badArg ⟨2, "table.remove", "number", "number"⟩)) := by
  have h0 : asTable (arg (.tab a :: .num x :: rest) 0) = some a := rfl
  have h1 : arg (.tab a :: .num x :: rest) 1 = .num x := rfl
  unfold tabRemove
  rw [h0]
  dsimp only
  rw [lenAsI32_seq hseq hs, ok_bind, h1]
  unfold removePos
  dsimp only [LuaValue.asNumber]
  by_cases hle : (F64.ofInt 1).le x = true
  · rw [if_pos hle, if_pos hle]
    rfl
  · rw [if_neg hle, if_neg hle]
    rfl

theorem ensures_tabRemove (hs : Sound h ts) (hseq : IsSeq ts a n) {x : F64} (hx : x.isNaN = false)
    (rest : List LuaValue) :
    Ensures (NoRoom (2^LJ_MAX_HBITS ≤ (ts a).liveCount)) (tabRemove h ts (.tab a :: .num x :: rest))
      fun r => if 1 ≤ x.trunc then
          if n = 0 then r = (ts, .ok [.nil])
          else Removed ts r.1 a n (min x.trunc n) ∧ r.2 = .ok [elem ts a (min x.trunc n)]
        else r = (ts, .error (.badArg ⟨2, "table.remove", "number", "number"⟩)) := by
  have hn := hseq.lt hs
  have hpos := asI32_eq hx
  rw [tabRemove_at hs hseq]
  by_cases h1 : 1 ≤ x.trunc
  · rw [if_pos ((F64.one_le hx).mpr h1)]
    dsimp only
    simp only [if_pos h1]
    by_cases h0 : n = 0
    · simp only [if_pos h0]
      rw [if_pos (.inr (.inr (by omega)))]
      rfl
    · simp only [if_neg h0]
      have hmin : min (max x.asI32 1) n = min x.trunc n := by omega
      rw [hmin, if_neg (by omega)]
      exact ensures_removeAt hs hseq (by omega) (by omega)
  · rw [if_neg fun hle => h1 ((F64.one_le hx).mp hle)]
    simp only [if_neg h1]
    rfl

/-- The position is in the list, or the list is empty and has nothing to remove. -/
def Removable (n : ℕ) (p : ℤ) : Prop := 1 ≤ p ∧ (p ≤ n ∨ n = 0)

theorem removeLaw_iff (hs : Sound h ts) (hseq : IsSeq ts a n) {x : F64} (hx : x.isNaN = false)
    (rest : List LuaValue) :
    Ensures (NoRoom (2^LJ_MAX_HBITS ≤ (ts a).liveCount)) (tabRemove h ts (.tab a :: .num x :: rest))
      fun r => RemoveLaw ts a n x.trunc r ↔ Removable n x.trunc := by
  have hn := hseq.lt hs
  refine (ensures_tabRemove hs hseq hx rest).mono fun r hr => ?_
  unfold RemoveLaw Removable
  by_cases h1 : 1 ≤ x.trunc
  · rw [if_pos h1] at hr
    by_cases h0 : n = 0
    · rw [if_pos h0] at hr
      subst hr
      rw [if_neg (by omega)]
      exact ⟨fun _ => ⟨h1, .inr h0⟩, fun _ => ⟨rfl, .inr (.inl rfl)⟩⟩
    · rw [if_neg h0] at hr
      by_cases hp : x.trunc ≤ n
      · rw [min_eq_left hp] at hr
        rw [if_pos ⟨h1, hp⟩]
        exact ⟨fun _ => ⟨h1, .inl hp⟩, fun _ => hr⟩
      · -- The last element is gone.
        rw [if_neg (fun hin => hp hin.2)]
        refine ⟨fun hlaw => absurd hr.1.cleared ?_, fun hc => by omega⟩
        rw [elem, hlaw.1]
        exact (hseq n (by omega) (by omega)).mpr le_rfl
  · rw [if_neg h1] at hr
    subst hr
    rw [if_neg (fun hin => h1 hin.1)]
    refine ⟨fun hlaw => ?_, fun hc => absurd hc.1 h1⟩
    obtain ⟨-, hres | hres | hres⟩ := hlaw <;> cases hres

/-! ### Insertion and removal -/

theorem Inserted.isSeq (hi : Inserted ts ts' a n p v) (hseq : IsSeq ts a n) (hn : n < 2^30) (h1 : 1 ≤ p)
    (hp : p ≤ n + 1) (hv : v ≠ .nil) : IsSeq ts' a (n + 1) := by
  intro i hi0 hi53
  by_cases hlow : (i : ℤ) < p
  · have hkeep : elem ts' a i = elem ts a i := hi.others _ fun q hq hqn he => by
      have := intKey_inj (by omega) (by omega) (Prod.mk.inj he).2
      omega
    rw [hkeep, hseq i hi0 hi53]
    omega
  · by_cases heq : (i : ℤ) = p
    · rw [heq, hi.placed]
      exact ⟨fun _ => by omega, fun _ => hv⟩
    · by_cases hin : i ≤ n + 1
      · have hmove : elem ts' a i = elem ts a (i - 1 : ℤ) := by
          have := hi.shifted (i - 1) (by omega) (by omega)
          rwa [sub_add_cancel] at this
        have hcast : ((i : ℤ) - 1) = ((i - 1 : ℕ) : ℤ) := by omega
        rw [hmove, hcast, hseq (i - 1) (by omega) (by omega)]
        omega
      · have hkeep : elem ts' a i = elem ts a i := hi.others _ fun q hq hqn he => by
          have := intKey_inj (by omega) (by omega) (Prod.mk.inj he).2
          omega
        rw [hkeep, hseq i hi0 hi53]
        omega

/-- A removal undoes the insertion at its position. -/
theorem Inserted.undo (hi : Inserted ts ts' a n p v) {ts'' : Tables} (hr : Removed ts' ts'' a (n + 1) p)
    (hseq : IsSeq ts a n) (hn : n < 2^30) : content ts'' = content ts := by
  funext y
  by_cases hy : ∃ q : ℤ, p ≤ q ∧ q ≤ n + 1 ∧ y = (a, intKey q)
  · obtain ⟨q, hq, hqn, rfl⟩ := hy
    by_cases htop : q = n + 1
    · have hclear : elem ts'' a ((n + 1 : ℕ) : ℤ) = .nil := hr.cleared
      have hold : ¬ elem ts a ((n + 1 : ℕ) : ℤ) ≠ .nil := fun hne => by
        have := (hseq (n + 1) (by omega) (by omega)).mp hne
        omega
      push_cast at hclear hold
      subst htop
      exact hclear.trans (not_not.mp hold).symm
    · have hdown := hr.shifted (q + 1) (by omega) (by push_cast; omega)
      rw [add_sub_cancel_right] at hdown
      exact hdown.trans (hi.shifted q hq (by omega))
  · have hout : ∀ q : ℤ, p ≤ q → q ≤ n + 1 → y ≠ (a, intKey q) := fun q hq hqn he => hy ⟨q, hq, hqn, he⟩
    rw [hr.others y fun q hq hqn => hout q hq (by push_cast at hqn; omega), hi.others y hout]

/-- Inserting nil leaves a sequence only at the end, where nothing changes. -/
theorem Inserted.nil_last (hi : Inserted ts ts' a n p .nil) (hseq : IsSeq ts a n) (hn : n < 2^30) (h1 : 1 ≤ p)
    (hp : p ≤ n + 1) {m : ℕ} (hm : IsSeq ts' a m) : p = n + 1 ∧ content ts' = content ts := by
  have hlt : m < p := by
    have := hm p.toNat (by omega) (by omega)
    rw [Int.toNat_of_nonneg (by omega), hi.placed] at this
    have := this.not.mp (not_not.mpr rfl)
    omega
  have hlast : p = n + 1 := by
    by_contra hne
    have hmove := hi.shifted n (by omega) le_rfl
    have hn1 : elem ts' a ((n + 1 : ℕ) : ℤ) ≠ .nil := by
      push_cast
      rw [hmove]
      exact (hseq n (by omega) (by omega)).mpr le_rfl
    have := (hm (n + 1) (by omega) (by omega)).mp hn1
    omega
  refine ⟨hlast, ?_⟩
  funext y
  by_cases hy : y = (a, intKey p)
  · have hold : ¬ elem ts a ((n + 1 : ℕ) : ℤ) ≠ .nil := fun hne => by
      have := (hseq (n + 1) (by omega) (by omega)).mp hne
      omega
    push_cast at hold
    rw [← hlast] at hold
    rw [hy]
    exact hi.placed.trans (not_not.mp hold).symm
  · exact hi.others y fun q hq hqn => by rwa [show q = p by omega]

theorem IsSeq.congr (hseq : IsSeq ts a n) (hc : content ts' = content ts) : IsSeq ts' a n := by
  unfold IsSeq elem
  rw [hc]
  exact hseq

/-- A removal after the insertion of a value at its position. -/
theorem roundTrip (hs : Sound h ts) (hseq : IsSeq ts a n) {x : F64} (hx : x.isNaN = false) (v : LuaValue)
    (h1 : 1 ≤ x.trunc) (hp : x.trunc ≤ n + 1) :
    Ensures (NoRoom (2^LJ_MAX_HBITS ≤ (ts a).liveCount + 1)) (tabInsert h ts [.tab a, .num x, v])
      fun r => (∃ m, IsSeq r.1 a m) →
        Ensures (NoRoom (2^LJ_MAX_HBITS ≤ (r.1 a).liveCount)) (tabRemove h r.1 [.tab a, .num x])
          fun r' => content r'.1 = content ts ↔ ¬ (v = .nil ∧ x.trunc = n + 1 ∧ 0 < n) := by
  have hn := hseq.lt hs
  refine (ensures_tabInsert hs hseq hx v []).mono ?_
  rintro ⟨ts₁, res⟩ ⟨hlaw, hs₁⟩ ⟨m, hm⟩
  rw [InsertLaw, if_pos ⟨h1, hp⟩] at hlaw
  have hi : Inserted ts ts₁ a n x.trunc v := hlaw.1
  by_cases hv : v = .nil
  · subst hv
    obtain ⟨hlast, hc⟩ := hi.nil_last hseq hn h1 hp hm
    refine (ensures_tabRemove hs₁ (hseq.congr hc) hx []).mono fun r' hr => ?_
    rw [if_pos h1] at hr
    by_cases h0 : n = 0
    · rw [if_pos h0] at hr
      subst hr
      exact ⟨fun _ => by omega, fun _ => hc⟩
    · rw [if_neg h0, hlast, min_eq_right (by omega)] at hr
      refine ⟨fun he => absurd hr.1.cleared ?_, fun hne => absurd ⟨rfl, hlast, Nat.pos_of_ne_zero h0⟩ hne⟩
      rw [elem, he]
      exact (hseq n (by omega) (by omega)).mpr le_rfl
  · have hseq₁ := hi.isSeq hseq hn h1 hp hv
    refine (ensures_tabRemove hs₁ hseq₁ hx []).mono fun r' hr => ?_
    rw [if_pos h1, if_neg (by omega), min_eq_left (by push_cast; omega)] at hr
    exact ⟨fun _ hnil => hv hnil.1, fun _ => hi.undo hr.1 hseq hn⟩

theorem isSeq_single : IsSeq single 0 1 := by
  intro i hi0 hi53
  have hs := LuaTable.start_spec (fun _ => 0) 3 0 [.setInt 1 (.ofInt 10)]
  have hrun : LuaTable.start (fun _ => 0) 3 0 [.setInt 1 (.ofInt 10)] = .ok (single 0) := rfl
  rw [hrun] at hs
  have hval : elem single 0 i = TableOp.content [.setInt 1 (.ofInt 10)] (.ofInt i) := hs.2 (intKey i)
  have hone : Int32.toInt 1 = 1 := rfl
  simp only [TableOp.content, List.foldl_cons, List.foldl_nil, TableOp.apply, hone] at hval
  rw [hval, Function.update_apply]
  split_ifs with he
  · have : (i : ℤ) = 1 := intKey_inj (by omega) (by decide) (Subtype.ext he)
    simp [LuaValue.ofInt, LuaValue.number]
    omega
  · have : i ≠ 1 := fun h1 => he (by rw [h1]; rfl)
    simp
    omega

end
end LuajitRs.TabLib
