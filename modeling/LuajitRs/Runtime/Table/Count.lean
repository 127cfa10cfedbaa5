import Mathlib.Data.List.Perm.Basic
import LuajitRs.Runtime.Table.Chains

/-! The size computation of a rehash. The bins that `count_array`, `count_hash` and `count_int`
fill are the histogram of one list of array keys, and `best_asize` returns the number of these keys
below the size that it chooses. -/
namespace LuajitRs
namespace LuaTable

theorem binOf_le {k b : ℕ} : binOf k ≤ b ↔ k ≤ 2 * 2^b := by
  have hpos := Nat.two_pow_pos b
  unfold binOf fls
  split_ifs with hk
  · have hiff := Nat.log2_lt (n := k - 1) (k := b + 1) (by omega)
    rw [pow_succ] at hiff
    omega
  · omega

theorem binOf_lt_of_lt_max {k : ℕ} (hk : k < LJ_MAX_ASIZE) : binOf k < 27 := by
  have : k ≤ 2 * 2^26 := by simp only [LJ_MAX_ASIZE, LJ_MAX_ABITS] at hk; omega
  have := binOf_le.mpr this
  omega

/-- How many of the keys `ks` fall into each bucket. -/
def histogram (ks : List ℕ) : List ℕ :=
  (List.range LJ_MAX_ABITS).map fun b => ks.countP fun k => binOf k = b

theorem length_histogram (ks : List ℕ) : (histogram ks).length = LJ_MAX_ABITS := by simp [histogram]

theorem histogram_nil : histogram [] = .replicate LJ_MAX_ABITS 0 := by
  simp [histogram, List.map_const']

/-- Keys of one bucket are counted in that bucket only. -/
theorem histogram_append {ks ls : List ℕ} {b : ℕ} (hb : ∀ k ∈ ls, binOf k = b) :
    histogram (ks ++ ls) = (histogram ks).modify b (· + ls.length) := by
  apply List.ext_getElem (by simp [histogram])
  intro i h₁ h₂
  rw [List.getElem_modify]
  simp only [histogram, List.getElem_map, List.getElem_range, List.countP_append]
  split_ifs with hi
  · subst hi
    rw [Nat.add_left_cancel_iff, List.countP_eq_length]
    simpa using hb
  · rw [Nat.add_eq_left, List.countP_eq_zero]
    intro k hk
    simp [hb k hk, hi]

theorem countInt_histogram (key : LuaValue) (ks : List ℕ) :
    countInt key (histogram ks) =
      (histogram (ks ++ (arrayKey key).toList), (arrayKey key).toList.length) := by
  unfold countInt
  cases hk : arrayKey key with
  | none => simp
  | some k => rw [histogram_append (b := binOf k) (by simp)]; rfl

/-! ### Hash entries -/

/-- The live nodes of a node array. -/
def liveNodes (nodes : List Node) : List Node := nodes.filter fun nd => !nd.val.isNil

theorem countNodes_histogram (nodes : List Node) (ks : List ℕ) (na total : ℕ) :
    countNodes nodes (histogram ks, na, total) =
      (histogram (ks ++ (liveNodes nodes).flatMap fun nd => (arrayKey nd.key).toList),
        na + ((liveNodes nodes).flatMap fun nd => (arrayKey nd.key).toList).length,
        total + (liveNodes nodes).length) := by
  induction nodes generalizing ks na total with
  | nil => simp [countNodes, liveNodes]
  | cons nd rest ih =>
    by_cases hnil : nd.val.isNil
    · simp [countNodes, hnil, ih, liveNodes]
    · simp only [countNodes, hnil, countInt_histogram, ih, liveNodes, List.filter_cons]
      simp [Nat.add_assoc, Nat.add_comm]

/-! ### Array slots -/

/-- The array keys below `i` that hold a value. -/
def arrayKeysBelow (t : LuaTable) (i : ℕ) : List ℕ :=
  (List.range i).filter fun j => !(t.array.getD j .nil).isNil

/-- The array keys that hold a value. -/
def arrayKeys (t : LuaTable) : List ℕ := t.arrayKeysBelow t.asize

theorem slice_eq_map {α : Type} (l : List α) (d : α) {i m : ℕ} (h : i + m ≤ l.length) :
    (l.drop i).take m = (List.range' i m).map fun j => l.getD j d := by
  apply List.ext_getElem (by simp; omega)
  intro j h₁ h₂
  simp only [List.length_map, List.length_range'] at h₂
  simp only [List.getElem_take, List.getElem_drop, List.getElem_map, List.getElem_range', Nat.one_mul]
  simp [List.getD_eq_getElem?_getD, show i + j < l.length by omega]

theorem arrayKeysBelow_add (t : LuaTable) (i m : ℕ) :
    t.arrayKeysBelow (i + m) =
      t.arrayKeysBelow i ++ (List.range' i m).filter fun j => !(t.array.getD j .nil).isNil := by
  rw [arrayKeysBelow, arrayKeysBelow, ← List.filter_append, List.range_eq_range', List.range_eq_range',
    ← List.range'_append_1, Nat.zero_add]

theorem countP_slice (t : LuaTable) {i m : ℕ} (h : i + m ≤ t.array.length) :
    ((t.array.drop i).take m).countP (!·.isNil) =
      ((List.range' i m).filter fun j => !(t.array.getD j .nil).isNil).length := by
  rw [slice_eq_map t.array .nil h, List.countP_map, List.countP_eq_length_filter]
  rfl

/-- The first key of bucket `b`. -/
def bucketStart (b : ℕ) : ℕ := if b = 0 then 0 else 2^b + 1

theorem binOf_eq {k b : ℕ} (hlo : bucketStart b ≤ k) (hhi : k ≤ 2 * 2^b) : binOf k = b := by
  have hle := binOf_le.mpr hhi
  unfold bucketStart at hlo
  split_ifs at hlo with hb
  · omega
  · have hnot : ¬ binOf k ≤ b - 1 := by
      rw [binOf_le, ← pow_succ', Nat.sub_add_cancel (by omega)]
      omega
    omega

theorem countArrayFrom_histogram {t : LuaTable} (hlen : t.asize = t.array.length)
    (h0 : 0 < t.asize) (hmax : t.asize ≤ LJ_MAX_ASIZE) (k i : ℕ) (hk : k ≤ LJ_MAX_ABITS) (hi : i ≤ t.asize)
    (hstart : (i = t.asize ∧ t.asize ≤ 2 * 2^(LJ_MAX_ABITS - k)) ∨ i = bucketStart (LJ_MAX_ABITS - k)) :
    t.countArrayFrom k i (histogram (t.arrayKeysBelow i)) (t.arrayKeysBelow i).length =
      (histogram t.arrayKeys, t.arrayKeys.length) := by
  induction k generalizing i with
  | zero =>
    have : i = t.asize := by
      obtain ⟨h, _⟩ | h := hstart
      · exact h
      · simp [bucketStart, LJ_MAX_ABITS, LJ_MAX_ASIZE] at h hmax
        omega
    subst this
    rfl
  | succ k ih =>
    obtain ⟨b, hb⟩ : ∃ b, b = LJ_MAX_ABITS - (k+1) := ⟨_, rfl⟩
    have hnext : LJ_MAX_ABITS - k = b + 1 := by omega
    have hpos := Nat.two_pow_pos b
    rw [← hb] at hstart
    simp only [countArrayFrom, ← hb]
    -- One bucket: the slots from `i` up to its last key, or up to the end of the array part.
    have bucket : ∀ top, i ≤ top → top < t.asize → top ≤ 2 * 2^b → i = bucketStart b →
        (top + 1 = t.asize ∨ top = 2 * 2^b) →
        t.countArrayFrom k (max i (top + 1))
          ((histogram (t.arrayKeysBelow i)).modify b
            (· + ((t.array.drop i).take (top + 1 - i)).countP (!·.isNil)))
          ((t.arrayKeysBelow i).length + ((t.array.drop i).take (top + 1 - i)).countP (!·.isNil)) =
        (histogram t.arrayKeys, t.arrayKeys.length) := by
      intro top hit htop hbin hib hend
      have hsum : i + (top + 1 - i) = top + 1 := by omega
      rw [countP_slice t (by omega), ← histogram_append, ← List.length_append, ← arrayKeysBelow_add, hsum,
        Nat.max_eq_right (by omega)]
      · refine ih (top + 1) (by omega) (by omega) ?_
        rw [hnext]
        rw [pow_succ']
        obtain h | h := hend
        · exact .inl ⟨h, by omega⟩
        · exact .inr (by rw [bucketStart, if_neg (by omega), pow_succ', h])
      · intro j hj
        simp only [List.mem_filter, List.mem_range'_1] at hj
        exact binOf_eq (by omega) (by omega)
    by_cases hlast : t.asize ≤ 2 * 2^b
    · by_cases hdone : t.asize - 1 < i
      · rw [if_pos hlast, if_pos ⟨hlast, hdone⟩]
        have : i = t.asize := by omega
        subst this
        rfl
      · rw [if_pos hlast, if_neg (by tauto)]
        obtain ⟨h, _⟩ | h := hstart
        · omega
        · exact bucket (t.asize - 1) (by omega) (by omega) (by omega) h (.inl (by omega))
    · rw [if_neg hlast, if_neg (by tauto)]
      have hib : i = bucketStart b := by
        obtain ⟨_, h⟩ | h := hstart
        · omega
        · exact h
      have hib' : bucketStart b ≤ 2 * 2^b := by unfold bucketStart; split_ifs <;> omega
      exact bucket (2 * 2^b) (by omega) (by omega) le_rfl hib (.inr rfl)

theorem countArray_histogram {t : LuaTable} (w : t.Wf) :
    t.countArray (.replicate LJ_MAX_ABITS 0) = (histogram t.arrayKeys, t.arrayKeys.length) := by
  unfold countArray
  split_ifs with h0
  · simp [arrayKeys, arrayKeysBelow, h0, histogram_nil]
  · have := countArrayFrom_histogram w.asize_eq (by omega) w.asize_le LJ_MAX_ABITS 0 le_rfl (by omega)
      (.inr (by simp [bucketStart]))
    simpa [arrayKeysBelow, histogram_nil] using this

/-! ### The best size -/

theorem countP_binOf_succ (ks : List ℕ) (b : ℕ) :
    ks.countP (binOf · < b + 1) = ks.countP (binOf · < b) + ks.countP (binOf · = b) := by
  induction ks with
  | nil => rfl
  | cons k ks ih =>
    simp only [List.countP_cons, ih]
    by_cases h₁ : binOf k < b
    · simp [h₁, show binOf k < b + 1 by omega, show binOf k ≠ b by omega]; omega
    · by_cases h₂ : binOf k = b
      · simp [h₂]; omega
      · simp [h₁, h₂, show ¬ binOf k < b + 1 by omega]

theorem countP_binOf_of_ge {ks : List ℕ} (hks : ∀ k ∈ ks, k < LJ_MAX_ASIZE) {b : ℕ} (hb : 27 ≤ b) :
    ks.countP (binOf · < b) = ks.length := by
  rw [List.countP_eq_length]
  intro k hk
  have := binOf_lt_of_lt_max (hks k hk)
  exact decide_eq_true (by omega)

theorem bestAsizeFrom_spec {ks : List ℕ} (hks : ∀ k ∈ ks, k < LJ_MAX_ASIZE) (rest : List ℕ) (b na sz : ℕ)
    (hrest : rest = (histogram ks).drop b) (hna : na = ks.countP (· < sz)) (hsz : sz ≤ LJ_MAX_ASIZE) :
    ∃ na' sz', bestAsizeFrom ks.length rest b (ks.countP (binOf · < b)) na sz = .ok (na', sz') ∧
      na' = ks.countP (· < sz') ∧ sz' ≤ LJ_MAX_ASIZE := by
  induction rest generalizing b na sz with
  | nil =>
    have hb : LJ_MAX_ABITS ≤ b := by
      have := congrArg List.length hrest
      simp only [List.length_nil, List.length_drop, length_histogram] at this
      omega
    have hall := countP_binOf_of_ge hks (b := b) (by simp only [LJ_MAX_ABITS] at hb; omega)
    refine ⟨na, sz, ?_, hna, hsz⟩
    rw [bestAsizeFrom, if_neg (by simp [hall])]
  | cons n rest ih =>
    have hb : b < LJ_MAX_ABITS := by
      have := congrArg List.length hrest
      simp only [List.length_cons, List.length_drop, length_histogram] at this
      omega
    have hdrop := List.drop_eq_getElem_cons (l := histogram ks) (i := b) (by rwa [length_histogram])
    rw [hdrop, List.cons.injEq] at hrest
    obtain ⟨hn, hrest⟩ := hrest
    have hn : n = ks.countP (binOf · = b) := by simpa [histogram] using hn
    -- The running sum counts the keys of the buckets passed, which are the keys below `2 << b`.
    have hsum : ks.countP (binOf · < b) + n = ks.countP (binOf · < b + 1) := by
      rw [hn, countP_binOf_succ]
    rw [bestAsizeFrom]
    split_ifs with hgo hpos hbest
    · rw [hsum]
      refine ih (b+1) _ _ hrest ?_ ?_
      · apply List.countP_congr
        intro k _
        have := binOf_le (k := k) (b := b)
        simp only [decide_eq_true_eq]
        omega
      · have hb' : b < 27 := by
          by_contra hge
          exact hgo.2 (countP_binOf_of_ge hks (by omega))
        have := Nat.pow_le_pow_right (show 0 < 2 by norm_num) (show b ≤ 26 by omega)
        simp only [LJ_MAX_ASIZE, LJ_MAX_ABITS]
        omega
    · rw [hsum]
      exact ih (b+1) _ _ hrest hna hsz
    · have : n = 0 := by omega
      rw [show ks.countP (binOf · < b) = ks.countP (binOf · < b + 1) by omega]
      exact ih (b+1) _ _ hrest hna hsz
    · exact ⟨na, sz, rfl, hna, hsz⟩

theorem bestAsize_spec {ks : List ℕ} (hks : ∀ k ∈ ks, k < LJ_MAX_ASIZE) :
    ∃ na sz, bestAsize (histogram ks) ks.length = .ok (na, sz) ∧
      na = ks.countP (· < sz) ∧ sz ≤ LJ_MAX_ASIZE := by
  obtain ⟨na, sz, heq, hna, hsz⟩ := bestAsizeFrom_spec hks (histogram ks) 0 0 0 rfl (by simp) (by simp)
  refine ⟨na, sz, ?_, hna, hsz⟩
  rw [← heq, bestAsize]
  congr 1
  simp

theorem bestAsizeFrom_pos {nn : ℕ} (bins : List ℕ) (b sum na sz : ℕ) {r : ℕ × ℕ} (hsz : 0 < sz)
    (hr : bestAsizeFrom nn bins b sum na sz = .ok r) : 0 < r.2 := by
  induction bins generalizing b sum na sz with
  | nil =>
    rw [bestAsizeFrom] at hr
    split_ifs at hr
    cases hr
    exact hsz
  | cons n rest ih =>
    rw [bestAsizeFrom] at hr
    split_ifs at hr
    · exact ih _ _ _ _ (Nat.succ_pos _) hr
    · exact ih _ _ _ _ hsz hr
    · exact ih _ _ _ _ hsz hr
    · cases hr
      exact hsz

/-- With the key 0 among the counted keys the first bucket alone justifies an array part. -/
theorem bestAsize_pos {ks : List ℕ} {r : ℕ × ℕ} (h0 : 0 ∈ ks)
    (hr : bestAsize (histogram ks) ks.length = .ok r) : 0 < r.2 := by
  have hlen : 0 < ks.length := List.length_pos_of_mem h0
  have hn : 0 < ks.countP (binOf · = 0) := List.countP_pos_iff.mpr ⟨0, h0, rfl⟩
  obtain ⟨rest, hrest⟩ : ∃ rest, histogram ks = ks.countP (binOf · = 0) :: rest := ⟨_, rfl⟩
  rw [bestAsize, hrest, bestAsizeFrom, if_pos ⟨by omega, by omega⟩] at hr
  simp only [hn, if_true] at hr
  rw [if_pos (by omega)] at hr
  exact bestAsizeFrom_pos _ _ _ _ _ (Nat.succ_pos _) hr

/-! ### The sizes of a rehash -/

theorem arrayKey_lt {key : LuaValue} {k : ℕ} (hk : arrayKey key = some k) : k < LJ_MAX_ASIZE := by
  unfold arrayKey at hk
  split at hk
  · split_ifs at hk with hb
    rw [Option.some.injEq] at hk
    omega
  · simp at hk

/-- The array keys that a rehash for `ek` counts. -/
def rehashKeys (t : LuaTable) (ek : LuaValue) : List ℕ :=
  t.arrayKeys ++ ((liveNodes t.node).flatMap fun nd => (arrayKey nd.key).toList) ++ (arrayKey ek).toList

theorem rehashKeys_lt {t : LuaTable} (w : t.Wf) (ek : LuaValue) : ∀ k ∈ t.rehashKeys ek, k < LJ_MAX_ASIZE := by
  intro k hk
  have := w.asize_le
  simp only [rehashKeys, List.mem_append, arrayKeys, arrayKeysBelow, List.mem_filter, List.mem_range,
    List.mem_flatMap, Option.mem_toList] at hk
  obtain (⟨hlt, _⟩ | ⟨nd, _, hnd⟩) | hek := hk
  · omega
  · exact arrayKey_lt hnd
  · exact arrayKey_lt hek

theorem hashNodes_eq {t : LuaTable} (w : t.Wf) (bins : List ℕ) :
    t.countHash bins = countNodes t.node (bins, 0, 0) := by
  unfold countHash
  split_ifs with hp
  · rfl
  · have hnil : t.node = [] := by
      rw [w.hasHpart_iff] at hp
      exact List.length_eq_zero_iff.mp (by omega)
    rw [hnil]
    rfl

/-- A rehash resizes to the best array part for the counted keys, and to a hash part for the rest. -/
theorem rehashWith_best {t : LuaTable} (w : t.Wf) (setf : Setter) (ek : LuaValue) {na sz : ℕ}
    (hbest : bestAsize (histogram (t.rehashKeys ek)) (t.rehashKeys ek).length = .ok (na, sz)) :
    t.rehashWith setf ek = t.resizeWith setf sz
      (hsize2hbits (1 + t.arrayKeys.length + (liveNodes t.node).length - na)) := by
  simp only [rehashWith, countArray_histogram w, hashNodes_eq w, countNodes_histogram,
    countInt_histogram, Nat.zero_add]
  rw [show t.arrayKeys.length + ((liveNodes t.node).flatMap fun nd => (arrayKey nd.key).toList).length +
    (arrayKey ek).toList.length = (t.rehashKeys ek).length by simp [rehashKeys, Nat.add_assoc], ← rehashKeys, hbest]
  simp only [bind, Except.bind]

/-- Some of the counted keys fit the array part, which is not empty when the key 0 is counted. -/
theorem rehashWith_sized {t : LuaTable} (w : t.Wf) (setf : Setter) (ek : LuaValue) :
    ∃ asize ≤ LJ_MAX_ASIZE, (0 ∈ t.rehashKeys ek → 0 < asize) ∧
      t.rehashWith setf ek = t.resizeWith setf asize
        (hsize2hbits (1 + t.arrayKeys.length + (liveNodes t.node).length -
          (t.rehashKeys ek).countP (· < asize))) := by
  obtain ⟨na, sz, heq, hna, hsz⟩ := bestAsize_spec (rehashKeys_lt w ek)
  refine ⟨sz, hsz, fun h0 => bestAsize_pos h0 heq, ?_⟩
  rw [rehashWith_best w setf ek heq, hna]

theorem le_two_pow_hsize2hbits (s : ℕ) : s ≤ 2^hsize2hbits s := by
  unfold hsize2hbits fls
  split_ifs with h0 h1
  · omega
  · omega
  · have := Nat.lt_log2_self (n := s - 1)
    rw [Nat.add_comm 1]
    omega

theorem hsize2hbits_eq_zero {s : ℕ} : hsize2hbits s = 0 ↔ s = 0 := by
  unfold hsize2hbits
  split_ifs with h0 h1
  · simp [h0]
  · simp [h1]
  · simp only [Nat.add_eq_zero_iff, one_ne_zero, false_and, h0]

theorem lt_of_hsize2hbits {s : ℕ} (hs : LJ_MAX_HBITS < hsize2hbits s) : 2^LJ_MAX_HBITS < s := by
  unfold hsize2hbits fls LJ_MAX_HBITS at *
  split_ifs at hs with h0 h1
  · omega
  · omega
  · have := Nat.log2_self_le (n := s - 1) (by omega)
    have := Nat.pow_le_pow_right (show 0 < 2 by norm_num) (show 26 ≤ (s-1).log2 by omega)
    omega

end LuaTable
end LuajitRs
