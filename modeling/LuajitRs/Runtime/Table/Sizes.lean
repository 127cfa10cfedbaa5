import LuajitRs.Lib.Ensures
import LuajitRs.Runtime.Table.Len
import LuajitRs.Runtime.Table.Refinement

/-! The insertion of a key into a full table. The counts of a rehash fit the machine words, the array size is the
largest candidate, and the retry finds a free slot without another rehash. -/
namespace LuajitRs

/-- `x << b` on 32 bits. -/
def shlU32 (x b : ℕ) : Except Fault ℕ := if b < 32 then .ok (x * 2^b % 2^32) else .error .overflow

namespace LuaTable
open Lib

/-! ### The counts in machine words -/

/-- `bins[b] += n`. -/
def addBin (bins : List ℕ) (b n : ℕ) : Except Fault (List ℕ) :=
  match bins[b]? with
  | some m => do
    let m ← addU32 m n
    pure (bins.set b m)
  | none => .error .outOfBounds

/-- The inner loop of `count_array`: the slot where it stops and the values up to there. -/
def countSlotsU32 (t : LuaTable) (top : ℕ) : ℕ → ℕ → ℕ → Except Fault (ℕ × ℕ)
  | 0, _, _ => .error .diverge
  | fuel+1, i, n =>
    if i ≤ top then do
      let v ← t.arrayAt i
      let n ← (if v.isNil then pure n else addU32 n 1 : Except Fault ℕ)
      let i ← addU32 i 1
      countSlotsU32 t top fuel i n
    else pure (i, n)

def countArrayFromU32 (t : LuaTable) : ℕ → ℕ → List ℕ → ℕ → Except Fault (List ℕ × ℕ)
  | 0, _, bins, na => pure (bins, na)
  | k+1, i, bins, na => do
    let b := LJ_MAX_ABITS - (k+1)
    let last ← shlU32 2 b
    let top ← (if t.asize ≤ last then subU32 t.asize 1 else pure last : Except Fault ℕ)
    if t.asize ≤ last ∧ top < i then pure (bins, na)
    else
      let r ← t.countSlotsU32 top (t.asize + 1) i 0
      let bins ← addBin bins b r.2
      let na ← addU32 na r.2
      countArrayFromU32 t k r.1 bins na

def countArrayU32 (t : LuaTable) (bins : List ℕ) : Except Fault (List ℕ × ℕ) :=
  if t.asize = 0 then pure (bins, 0) else t.countArrayFromU32 LJ_MAX_ABITS 0 bins 0

def countIntU32 (key : LuaValue) (bins : List ℕ) : Except Fault (List ℕ × ℕ) :=
  match arrayKey key with
  | some k => do
    let bins ← addBin bins (binOf k) 1
    pure (bins, 1)
  | none => pure (bins, 0)

def countNodesU32 : List Node → List ℕ × ℕ × ℕ → Except Fault (List ℕ × ℕ × ℕ)
  | [], acc => pure acc
  | nd :: rest, acc =>
    if nd.val.isNil then countNodesU32 rest acc
    else do
      let r ← countIntU32 nd.key acc.1
      let na ← addU32 acc.2.1 r.2
      let total ← addU32 acc.2.2 1
      countNodesU32 rest (r.1, na, total)

def countHashU32 (t : LuaTable) (bins : List ℕ) : Except Fault (List ℕ × ℕ × ℕ) :=
  if t.hasHpart then countNodesU32 t.node (bins, 0, 0) else pure (bins, 0, 0)

def bestAsizeFromU32 (nn : ℕ) : List ℕ → ℕ → ℕ → ℕ → ℕ → Except Fault (ℕ × ℕ)
  | bins, b, sum, na, sz => do
    let twice ← mulU32 2 nn
    let half ← shlU32 1 b
    if half < twice ∧ sum ≠ nn then
      match bins with
      | [] => .error .outOfBounds
      | n :: rest =>
        if 0 < n then
          let sum ← addU32 sum n
          let twice ← mulU32 2 sum
          if half < twice then
            let size ← shlU32 2 b
            let size ← addU32 size 1
            bestAsizeFromU32 nn rest (b+1) sum sum size
          else bestAsizeFromU32 nn rest (b+1) sum na sz
        else bestAsizeFromU32 nn rest (b+1) sum na sz
    else pure (na, sz)

def hsize2hbitsU32 (s : ℕ) : Except Fault ℕ :=
  if s = 0 then pure 0
  else if s = 1 then pure 1
  else do
    let s ← subU32 s 1
    addU32 1 (fls s)

/-- The sizes that `rehash` computes for the extra key `ek`. -/
def sizesU32 (t : LuaTable) (ek : LuaValue) : Except Fault (ℕ × ℕ) := do
  let arr ← t.countArrayU32 (.replicate LJ_MAX_ABITS 0)
  let total ← addU32 1 arr.2
  let hash ← t.countHashU32 arr.1
  let asize ← addU32 arr.2 hash.2.1
  let total ← addU32 total hash.2.2
  let extra ← countIntU32 ek hash.1
  let asize ← addU32 asize extra.2
  let best ← bestAsizeFromU32 asize extra.1 0 0 0 0
  let total ← subU32 total best.1
  let hbits ← hsize2hbitsU32 total
  pure (best.2, hbits)

/-! ### Nothing overflows -/

section Counts
variable {t : LuaTable} {bins : List ℕ} {b n bound : ℕ}

theorem shlU32_eq {x : ℕ} (hb : b < 32) (h : x * 2^b < 2^32) : shlU32 x b = .ok (x * 2^b) := by
  rw [shlU32, if_pos hb, Nat.mod_eq_of_lt h]

theorem addBin_eq (hb : b < bins.length) (hbins : ∀ m ∈ bins, m ≤ bound) (h : bound + n < 2^32) :
    addBin bins b n = .ok (bins.modify b (· + n)) := by
  have hm : bins[b] ≤ bound := hbins _ (List.getElem_mem hb)
  rw [addBin, List.getElem?_eq_getElem hb]
  dsimp only
  rw [addU32_eq (by omega), ok_bind, pure_eq_ok, List.modify_eq_set_getElem?, List.getElem?_eq_getElem hb]
  rfl

theorem le_of_mem_modify (hbins : ∀ m ∈ bins, m ≤ bound) : ∀ m ∈ bins.modify b (· + n), m ≤ bound + n := by
  intro m hm
  obtain ⟨i, hi, rfl⟩ := List.mem_iff_getElem.mp hm
  rw [List.getElem_modify]
  have hi' : i < bins.length := by simpa using hi
  have := hbins _ (List.getElem_mem hi')
  split <;> omega

theorem le_of_mem_histogram (ks : List ℕ) : ∀ m ∈ histogram ks, m ≤ ks.length := by
  intro m hm
  obtain ⟨b, -, rfl⟩ := List.mem_map.mp hm
  exact List.countP_le_length

theorem countSlotsU32_eq {top : ℕ} (htop : top < t.array.length) (hlen : t.array.length < 2^31) (fuel i n : ℕ)
    (hi : i ≤ t.array.length) (hn : n ≤ i) (hfuel : top + 1 < fuel + i) (h0 : 0 < fuel) :
    t.countSlotsU32 top fuel i n =
      .ok (max i (top + 1), n + ((t.array.drop i).take (top + 1 - i)).countP (!·.isNil)) := by
  induction fuel generalizing i n with
  | zero => cases h0
  | succ fuel ih =>
    rw [countSlotsU32]
    by_cases hle : i ≤ top
    · have hdrop : (t.array.drop i).take (top + 1 - i) =
          t.array[i] :: (t.array.drop (i + 1)).take (top + 1 - (i + 1)) := by
        rw [List.drop_eq_getElem_cons (by omega), show top + 1 - i = top + 1 - (i + 1) + 1 by omega,
          List.take_succ_cons]
      have hat : t.arrayAt i = .ok t.array[i] := by rw [arrayAt, List.getElem?_eq_getElem (by omega)]
      rw [if_pos hle, hat, ok_bind, hdrop, List.countP_cons]
      cases hnil : t.array[i].isNil with
      | true =>
        rw [if_pos rfl, pure_eq_ok, ok_bind, addU32_eq (by omega), ok_bind,
          ih (i + 1) n (by omega) (by omega) (by omega) (by omega)]
        rw [show max (i + 1) (top + 1) = max i (top + 1) by omega]
        simp
      | false =>
        rw [if_neg Bool.false_ne_true, addU32_eq (by omega), ok_bind, addU32_eq (by omega), ok_bind,
          ih (i + 1) (n + 1) (by omega) (by omega) (by omega) (by omega)]
        rw [show max (i + 1) (top + 1) = max i (top + 1) by omega]
        simp only [Bool.not_false, if_true]
        rw [show n + 1 + List.countP (fun x => !x.isNil) (List.take (top + 1 - (i + 1)) (List.drop (i + 1) t.array)) =
          n + (List.countP (fun x => !x.isNil) (List.take (top + 1 - (i + 1)) (List.drop (i + 1) t.array)) + 1) by omega]
    · rw [if_neg hle, show max i (top + 1) = i by omega, show top + 1 - i = 0 by omega]
      simp

theorem shlU32_two (hb : b < LJ_MAX_ABITS) : shlU32 2 b = .ok (2 * 2^b) := by
  have hb' : b ≤ 27 := Nat.le_of_lt_succ hb
  have hpow := Nat.pow_le_pow_right (show 0 < 2 by decide) hb'
  exact shlU32_eq (by omega) (by omega)

theorem countArrayFromU32_eq (hlen : t.asize = t.array.length) (h0 : 0 < t.asize) (hmax : t.asize ≤ LJ_MAX_ASIZE)
    (k i : ℕ) (bins : List ℕ) (na : ℕ) (hk : k ≤ LJ_MAX_ABITS) (hi : i ≤ t.asize)
    (hlb : bins.length = LJ_MAX_ABITS) (hbins : ∀ m ∈ bins, m ≤ i) (hna : na ≤ i) :
    t.countArrayFromU32 k i bins na = .ok (t.countArrayFrom k i bins na) := by
  have hsize : LJ_MAX_ASIZE = 2^27 + 1 := rfl
  induction k generalizing i bins na with
  | zero => rfl
  | succ k ih =>
    obtain ⟨b, hb⟩ : ∃ b, b = LJ_MAX_ABITS - (k+1) := ⟨_, rfl⟩
    rw [countArrayFromU32, countArrayFrom, ← hb]
    dsimp only
    rw [shlU32_two (by omega), ok_bind]
    obtain ⟨top, htop⟩ : ∃ top, top = if t.asize ≤ 2 * 2^b then t.asize - 1 else 2 * 2^b := ⟨_, rfl⟩
    have hlast : (if t.asize ≤ 2 * 2^b then subU32 t.asize 1 else pure (2 * 2^b)) = .ok top := by
      rw [htop]
      split
      · exact subU32_eq h0
      · rfl
    have htop' : top < t.asize := by
      rw [htop]
      split <;> omega
    rw [hlast, ok_bind, ← htop]
    split
    · rfl
    · obtain ⟨n, hn⟩ : ∃ n, n = ((t.array.drop i).take (top + 1 - i)).countP (!·.isNil) := ⟨_, rfl⟩
      have hle : n ≤ top + 1 - i := by
        rw [hn]
        exact List.countP_le_length.trans (List.length_take_le ..)
      have hmod := le_of_mem_modify (b := b) (n := n) hbins
      rw [countSlotsU32_eq (by omega) (by omega) _ i 0 (by omega) (Nat.zero_le i) (by omega) (by omega), ok_bind]
      dsimp only
      rw [Nat.zero_add, ← hn, addBin_eq (by omega) hbins (by omega), ok_bind, addU32_eq (by omega), ok_bind]
      refine ih _ _ _ (by omega) (by omega) ?_ (fun m hm => ?_) (by omega)
      · rw [List.length_modify, hlb]
      · have := hmod m hm
        omega

theorem countArrayU32_eq (w : t.Wf) : t.countArrayU32 (.replicate LJ_MAX_ABITS 0) =
    .ok (histogram t.arrayKeys, t.arrayKeys.length) := by
  rw [← countArray_histogram w, countArrayU32, countArray]
  split
  · rfl
  · refine countArrayFromU32_eq w.asize_eq (by omega) w.asize_le _ 0 _ 0 le_rfl (Nat.zero_le _) ?_ ?_ le_rfl
    · exact List.length_replicate
    · exact fun m hm => (List.eq_of_mem_replicate hm).le

theorem countIntU32_eq (key : LuaValue) (ks : List ℕ) (hks : ks.length < 2^31) :
    countIntU32 key (histogram ks) =
      .ok (histogram (ks ++ (arrayKey key).toList), (arrayKey key).toList.length) := by
  rw [← countInt_histogram, countIntU32, countInt]
  cases hk : arrayKey key with
  | none => rfl
  | some k =>
    have hbin := binOf_lt_of_lt_max (arrayKey_lt hk)
    dsimp only
    rw [addBin_eq _ (le_of_mem_histogram ks) (by omega), ok_bind]
    · rfl
    · rw [length_histogram, LJ_MAX_ABITS]
      omega

theorem countNodesU32_eq (nodes : List Node) (ks : List ℕ) (na total : ℕ) (hks : ks.length + nodes.length < 2^31)
    (hna : na + nodes.length < 2^31) (htotal : total + nodes.length < 2^31) :
    countNodesU32 nodes (histogram ks, na, total) = .ok
      (histogram (ks ++ (liveNodes nodes).flatMap fun nd => (arrayKey nd.key).toList),
        na + ((liveNodes nodes).flatMap fun nd => (arrayKey nd.key).toList).length,
        total + (liveNodes nodes).length) := by
  rw [← countNodes_histogram]
  induction nodes generalizing ks na total with
  | nil => rfl
  | cons nd rest ih =>
    rw [List.length_cons] at hks hna htotal
    rw [countNodesU32, countNodes]
    split
    · exact ih ks na total (by omega) (by omega) (by omega)
    · have hone : (arrayKey nd.key).toList.length ≤ 1 := by
        cases arrayKey nd.key with
        | none => exact Nat.zero_le 1
        | some k => exact le_rfl
      rw [countIntU32_eq nd.key ks (by omega), countInt_histogram, ok_bind]
      dsimp only
      rw [addU32_eq (by omega), ok_bind, addU32_eq (by omega), ok_bind]
      refine ih _ _ _ ?_ (by omega) (by omega)
      rw [List.length_append]
      omega

/-! ### The best size -/

/-- Bucket `b` holds a key, and the keys up to its end fill more than a quarter of the slots up to there. -/
def Candidate (ks : List ℕ) (b : ℕ) : Prop :=
  (∃ k ∈ ks, binOf k = b) ∧ 2 * 2^b < 4 * ks.countP (· ≤ 2 * 2^b)

/-- The size up to the end of the largest candidate bucket, or zero without one. -/
def LargestSize (ks : List ℕ) (sz : ℕ) : Prop :=
  (sz = 0 ∧ ∀ b, ¬ Candidate ks b) ∨ ∃ b, sz = 2 * 2^b + 1 ∧ Candidate ks b ∧ ∀ c, b < c → ¬ Candidate ks c

/-- The same among the buckets below `b`. -/
def LargestBelow (ks : List ℕ) (b sz : ℕ) : Prop :=
  (sz = 0 ∧ ∀ c < b, ¬ Candidate ks c) ∨
    ∃ a, sz = 2 * 2^a + 1 ∧ Candidate ks a ∧ ∀ c, a < c → c < b → ¬ Candidate ks c

theorem countP_le_pow (ks : List ℕ) (b : ℕ) : ks.countP (· ≤ 2 * 2^b) = ks.countP (binOf · < b + 1) := by
  apply List.countP_congr
  intro k _
  have := binOf_le (k := k) (b := b)
  simp only [decide_eq_true_eq]
  omega

theorem LargestBelow.succ {ks : List ℕ} {sz : ℕ} (hl : LargestBelow ks b sz) (hc : ¬ Candidate ks b) :
    LargestBelow ks (b + 1) sz := by
  have hcases {c : ℕ} (hcb : c < b + 1) : c < b ∨ c = b := by omega
  obtain ⟨hz, hno⟩ | ⟨a, hsz, ha, hno⟩ := hl
  · refine .inl ⟨hz, fun c hcb => ?_⟩
    obtain hlt | rfl := hcases hcb
    · exact hno c hlt
    · exact hc
  · refine .inr ⟨a, hsz, ha, fun c hac hcb => ?_⟩
    obtain hlt | rfl := hcases hcb
    · exact hno c hac hlt
    · exact hc

theorem LargestBelow.largest {ks : List ℕ} {sz : ℕ} (hl : LargestBelow ks b sz)
    (hend : ¬ 2^b < 2 * ks.length ∨ ks.countP (binOf · < b) = ks.length) : LargestSize ks sz := by
  have hno (c : ℕ) (hbc : b ≤ c) : ¬ Candidate ks c := by
    rintro ⟨⟨k, hk, hkc⟩, hfill⟩
    obtain hsmall | hall := hend
    · have hpow := Nat.pow_le_pow_right (show 0 < 2 by decide) hbc
      have hcount : ks.countP (· ≤ 2 * 2^c) ≤ ks.length := List.countP_le_length
      omega
    · have hlt := of_decide_eq_true (List.countP_eq_length.mp hall k hk)
      omega
  obtain ⟨hz, hbelow⟩ | ⟨a, hsz, ha, hbelow⟩ := hl
  · exact .inl ⟨hz, fun c => (lt_or_ge c b).elim (hbelow c) (hno c)⟩
  · exact .inr ⟨a, hsz, ha, fun c hac => (lt_or_ge c b).elim (hbelow c hac) (hno c)⟩

/-- The loop in machine words keeps the largest size below the bucket that it looks at. -/
theorem bestAsizeFromU32_eq {ks : List ℕ} (hlen : ks.length < 2^30)
    (rest : List ℕ) (b na sz : ℕ) (hrest : rest = (histogram ks).drop b) (hbits : b ≤ LJ_MAX_ABITS)
    (hbest : LargestBelow ks b sz) {r : ℕ × ℕ}
    (hr : bestAsizeFrom ks.length rest b (ks.countP (binOf · < b)) na sz = .ok r) :
    bestAsizeFromU32 ks.length rest b (ks.countP (binOf · < b)) na sz = .ok r ∧ LargestSize ks r.2 := by
  have habits : LJ_MAX_ABITS = 28 := rfl
  have hbit {c : ℕ} (hc : c ≤ 28) : 2^c ≤ 2^28 := Nat.pow_le_pow_right (by decide) hc
  induction rest generalizing b na sz with
  | nil =>
    rw [bestAsizeFrom] at hr
    rw [bestAsizeFromU32, mulU32_eq (by omega), ok_bind,
      shlU32_eq (by omega) (by have := hbit (show b ≤ 28 by omega); omega), ok_bind, Nat.one_mul]
    split at hr
    · cases hr
    · next hstop =>
      cases hr
      rw [if_neg hstop]
      refine ⟨rfl, hbest.largest ?_⟩
      rw [not_and_or, not_not] at hstop
      exact hstop
  | cons n rest ih =>
    have hb : b < LJ_MAX_ABITS := by
      have := congrArg List.length hrest
      simp only [List.length_cons, List.length_drop, length_histogram] at this
      omega
    have hdrop := List.drop_eq_getElem_cons (l := histogram ks) (i := b) (by rwa [length_histogram])
    rw [hdrop, List.cons.injEq] at hrest
    obtain ⟨hn, hrest⟩ := hrest
    have hn : n = ks.countP (binOf · = b) := by simpa [histogram] using hn
    have hsum : ks.countP (binOf · < b) + n = ks.countP (binOf · < b + 1) := by
      rw [hn, countP_binOf_succ]
    have hall : ks.countP (binOf · < b + 1) ≤ ks.length := List.countP_le_length
    rw [bestAsizeFrom] at hr
    rw [bestAsizeFromU32, mulU32_eq (by omega), ok_bind,
      shlU32_eq (by omega) (by have := hbit (show b ≤ 28 by omega); omega), ok_bind, Nat.one_mul]
    by_cases hgo : 2^b < 2 * ks.length ∧ ks.countP (binOf · < b) ≠ ks.length
    · rw [if_pos hgo] at hr ⊢
      dsimp only at hr ⊢
      by_cases hpos : 0 < n
      · rw [if_pos hpos] at hr ⊢
        rw [hsum] at hr
        rw [addU32_eq (by omega), ok_bind, hsum, mulU32_eq (by omega), ok_bind]
        by_cases hfill : 2^b < 2 * ks.countP (binOf · < b + 1)
        · rw [if_pos hfill] at hr ⊢
          have hcand : Candidate ks b := by
            refine ⟨?_, by rw [countP_le_pow]; omega⟩
            rw [hn] at hpos
            obtain ⟨k, hk, hkb⟩ := List.countP_pos_iff.mp hpos
            exact ⟨k, hk, of_decide_eq_true hkb⟩
          have := hbit (show b ≤ 28 by omega)
          rw [shlU32_two hb, ok_bind, addU32_eq (by omega), ok_bind]
          exact ih (b+1) _ _ hrest (by omega)
            (.inr ⟨b, rfl, hcand, fun c h1 h2 => absurd h1 (by omega)⟩) hr
        · rw [if_neg hfill] at hr ⊢
          refine ih (b+1) _ _ hrest (by omega) (hbest.succ fun hc => hfill ?_) hr
          have := hc.2
          rw [countP_le_pow] at this
          omega
      · rw [if_neg hpos] at hr ⊢
        have hsame : ks.countP (binOf · < b) = ks.countP (binOf · < b + 1) := by omega
        rw [hsame] at hr ⊢
        refine ih (b+1) _ _ hrest (by omega) (hbest.succ fun hc => hpos ?_) hr
        obtain ⟨k, hk, hkb⟩ := hc.1
        rw [hn]
        exact List.countP_pos_iff.mpr ⟨k, hk, decide_eq_true hkb⟩
    · rw [if_neg hgo] at hr ⊢
      cases hr
      refine ⟨rfl, hbest.largest ?_⟩
      rw [not_and_or, not_not] at hgo
      exact hgo

theorem hsize2hbitsU32_eq {s : ℕ} (hs : s < 2^32) : hsize2hbitsU32 s = .ok (hsize2hbits s) := by
  unfold hsize2hbitsU32 hsize2hbits
  split
  · rfl
  · split
    · rfl
    · have hlog : (s - 1).log2 < 32 := (Nat.log2_lt (by omega)).mpr (by omega)
      rw [subU32_eq (by omega), ok_bind]
      exact addU32_eq (by unfold fls; omega)

/-- The sizes of a rehash fit the machine words, whatever the table holds. -/
theorem sizesU32_eq (w : t.Wf) (ek : LuaValue) {na sz : ℕ}
    (hbest : bestAsize (histogram (t.rehashKeys ek)) (t.rehashKeys ek).length = .ok (na, sz))
    (hna : na = (t.rehashKeys ek).countP (· < sz)) :
    t.sizesU32 ek = .ok (sz, hsize2hbits (1 + t.arrayKeys.length + (liveNodes t.node).length - na)) ∧
      LargestSize (t.rehashKeys ek) sz := by
  have hmax : LJ_MAX_ASIZE = 2^27 + 1 := rfl
  have hasize := w.asize_le
  have harr : t.arrayKeys.length ≤ t.asize := (List.length_filter_le _ _).trans_eq List.length_range
  have hnodes : t.node.length ≤ 2^26 := by
    obtain ⟨-, hnil⟩ | ⟨b, -, hb, hlen, -⟩ := w.size
    · rw [hnil]
      exact Nat.zero_le _
    · rw [hlen]
      exact Nat.pow_le_pow_right (by decide) hb
  have hlive : (liveNodes t.node).length ≤ t.node.length := List.length_filter_le _ _
  have hek : (arrayKey ek).toList.length ≤ 1 := by
    cases arrayKey ek with
    | none => exact Nat.zero_le 1
    | some k => exact le_rfl
  have hints : ((liveNodes t.node).flatMap fun nd => (arrayKey nd.key).toList).length ≤ (liveNodes t.node).length := by
    have hcount := countP_hashBound (liveNodes t.node) LJ_MAX_ASIZE
    have hall : ((liveNodes t.node).flatMap fun nd => (arrayKey nd.key).toList).countP (· < LJ_MAX_ASIZE) =
        ((liveNodes t.node).flatMap fun nd => (arrayKey nd.key).toList).length := by
      refine List.countP_eq_length.mpr fun k hk => ?_
      obtain ⟨nd, -, hnd⟩ := List.mem_flatMap.mp hk
      exact decide_eq_true (arrayKey_lt (Option.mem_toList.mp hnd))
    omega
  have hlen : (t.rehashKeys ek).length = t.arrayKeys.length +
      ((liveNodes t.node).flatMap fun nd => (arrayKey nd.key).toList).length + (arrayKey ek).toList.length := by
    simp [rehashKeys, Nat.add_assoc]
  have hroom := needed_rehash w ek sz
  rw [← hna] at hroom
  have hzero : (t.rehashKeys ek).countP (binOf · < 0) = 0 := by simp
  have hfrom : bestAsizeFrom (t.rehashKeys ek).length (histogram (t.rehashKeys ek)) 0
      ((t.rehashKeys ek).countP (binOf · < 0)) 0 0 = .ok (na, sz) := by
    rw [hzero]
    exact hbest
  have hloop := bestAsizeFromU32_eq (by omega) (histogram (t.rehashKeys ek)) 0 0 0 rfl
    (Nat.zero_le _) (.inl ⟨rfl, fun c hc => absurd hc (Nat.not_lt_zero c)⟩) hfrom
  rw [hzero] at hloop
  refine ⟨?_, hloop.2⟩
  have hhash : t.countHashU32 (histogram t.arrayKeys) = .ok
      (histogram (t.arrayKeys ++ (liveNodes t.node).flatMap fun nd => (arrayKey nd.key).toList),
        ((liveNodes t.node).flatMap fun nd => (arrayKey nd.key).toList).length, (liveNodes t.node).length) := by
    have hcount := countNodesU32_eq t.node t.arrayKeys 0 0 (by omega) (by omega) (by omega)
    rw [Nat.zero_add, Nat.zero_add] at hcount
    rw [← hcount, countHashU32]
    split
    · rfl
    · next hp =>
      have hnil : t.node = [] := by
        rw [w.hasHpart_iff] at hp
        exact List.length_eq_zero_iff.mp (by omega)
      rw [hnil]
      rfl
  rw [sizesU32, countArrayU32_eq w, ok_bind]
  dsimp only
  rw [addU32_eq (by omega), ok_bind, hhash, ok_bind]
  dsimp only
  rw [addU32_eq (by omega), ok_bind, addU32_eq (by omega), ok_bind,
    countIntU32_eq ek _ (by rw [List.length_append]; omega), ok_bind]
  dsimp only
  rw [addU32_eq (by omega), ok_bind, ← hlen, ← rehashKeys, hloop.1, ok_bind]
  dsimp only
  rw [subU32_eq (by omega), ok_bind, hsize2hbitsU32_eq (by omega)]
  rfl

end Counts

/-! ### One rehash is enough -/

variable {h : LuaValue → UInt32} {t : LuaTable} {key : LuaValue}

/-- The rehash for a key that does not fit: the sizes, the resize and the retry, which run with setters that have no
rehash left. -/
theorem set_sized (w : t.Wf) (fd : t.Findable h) (hk : key.ValidKey) (hfull : ¬ t.Fits h key) (v : LuaValue) :
    ∃ n m, t.sizesU32 key = .ok (n, m) ∧ LargestSize (t.rehashKeys key) n ∧ n ≤ LJ_MAX_ASIZE ∧
      (t.liveCount < 2^LJ_MAX_HBITS → m ≤ LJ_MAX_HBITS) ∧
      if m ≤ LJ_MAX_HBITS then ∃ t₁ t₂, (t.touch t.freetop).resizeWith (setD h 1) n m = .ok t₁ ∧ t₁.asize = n ∧
        t₁.Fits h key ∧ setD h 1 t₁ key v = .ok t₂ ∧ t.set h key v = .ok t₂ ∧ t.Puts t₂ key v
      else t.set h key v = .error .tableOverflow := by
  have w' : (t.touch t.freetop).Wf := wf_nomm w 0
  have fd' : (t.touch t.freetop).Findable h := ⟨fd.homed, fd.first⟩
  obtain ⟨na, n, hbest, hna, hn⟩ := bestAsize_spec (rehashKeys_lt w key)
  obtain ⟨hsizes, hlarge⟩ := sizesU32_eq w key hbest hna
  obtain ⟨total, htotal⟩ : ∃ total, total = 1 + t.arrayKeys.length + (liveNodes t.node).length - na := ⟨_, rfl⟩
  rw [← htotal] at hsizes
  have hset : t.set h key v =
      (t.touch t.freetop).resizeWith (setD h 1) n (hsize2hbits total) >>= fun t' => setD h 1 t' key v := by
    rw [set, setDepth, setD_rehash 1 w hfull, rehashWith_best w' (setD h 1) key hbest, htotal]
    rfl
  refine ⟨n, hsize2hbits total, hsizes, hlarge, hn, fun hlive => ?_, ?_⟩
  · by_contra hover
    have := lt_of_hsize2hbits (s := total) (by omega)
    rw [liveCount_eq w] at hlive
    omega
  · split_ifs with hm
    · obtain ⟨t₁, hok, hch, hasz, hval, hroom⟩ := resize_rehash 0 w' fd' key hn (htotal.trans (by rw [hna]; rfl)) hm
      have hfit : t₁.Fits h key := fits_of_room hch.toWf hroom
      obtain ⟨t₂, heq, st⟩ := setD_fits 0 hch.toWf hch.findable hk hfit (hch.noStrand key) v
      refine ⟨t₁, t₂, hok, hasz, hfit, heq, ?_, fun k hkn => ?_⟩
      · rw [hset, hok, ok_bind, heq]
      · rw [st.puts k hkn, hval k hkn]
        rfl
    · rw [hset, resizeWith_overflow _ (.inr (by omega))]
      rfl

theorem not_fits_blank (hidx : blank.arrayIdx key = none) : ¬ blank.Fits h key := by
  rintro (hne | ⟨hp, -⟩)
  · exact hne hidx
  · cases hp

end LuaTable
end LuajitRs
