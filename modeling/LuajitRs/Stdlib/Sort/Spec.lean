import LuajitRs.Stdlib.Sort

/-! What the parts of the sort do, for any comparator and any preorder that its answers respect. Where
nothing is known of the answers, the preorder in which everything is related is respected. -/
namespace LuajitRs.Sort
open Lib.Oracle Lib.Rearrange

/-- The comparator keeps `I` about the world, and an answer to `x < y` tells how the two are related. -/
structure Respects {V ω ε : Type} (comp : Comparator V ω ε) (I : ω → Prop)
    (le : Item V → Item V → Prop) : Prop where
  world : ∀ s q, I s → I (comp s q).2
  answer : ∀ s x y r s', comp s (x.2, y.2) = (.ok r, s') → if r = true then le x y else le y x

variable {V ω ε β : Type} {comp : Comparator V ω ε} {I : ω → Prop} {le : Item V → Item V → Prop}
  {a : Array (Item V)} {lo hi i j : ℕ}

/-! ### Steps -/

theorem item_meets (h : i < a.size) :
    Meets I (item i : SortM V ω ε _) a fun x b => a = b ∧ a[i]? = some x := by
  intro s hs
  have hget : a[i]? = some a[i] := Array.getElem?_eq_getElem h
  simp only [item, hget]
  exact ⟨hs, trivial, trivial⟩

theorem swap_meets (hi : i < a.size) (hj : j < a.size) :
    Meets I (swap i j : SortM V ω ε _) a fun _ b => b = a.swap i j hi hj := by
  intro s hs
  simp only [swap, dif_pos (And.intro hi hj)]
  exact ⟨hs, trivial⟩

theorem cmpApply_meets (hr : Respects comp I le) (x y : Item V) :
    Meets I (cmpApply comp x y) a fun r b => a = b ∧ if r = true then le x y else le y x :=
  Meets.ask hr.world fun s r s' => hr.answer s x y r s'

/-- Two known elements are compared in place. -/
theorem below_of_le {x y : Item V} (hx : a[i]? = some x) (hy : a[j]? = some y) (h : le x y) :
    Below le a i j := by
  intro x' hx' y' hy'
  cases hx.symm.trans hx'
  cases hy.symm.trans hy'
  exact h

theorem compare_meets (hr : Respects comp I le) (hi : i < a.size) (hj : j < a.size)
    {f : Bool → SortM V ω ε β} {R : β → Array (Item V) → Prop}
    (hf : ∀ r, (if r = true then Below le a i j else Below le a j i) → Meets I (f r) a R) :
    Meets I (do let x ← item i; let y ← item j; let r ← cmpApply comp x y; f r) a R := by
  apply (item_meets hi).bind
  rintro x _ ⟨rfl, hx⟩
  apply (item_meets hj).bind
  rintro y _ ⟨rfl, hy⟩
  apply (cmpApply_meets hr x y).bind
  rintro r _ ⟨rfl, hans⟩
  apply hf
  cases r with
  | true => exact below_of_le hx hy hans
  | false => exact below_of_le hy hx hans

theorem orderPair_meets (hr : Respects comp I le) (hi : i < a.size) (hj : j < a.size) :
    Meets I (orderPair comp i j) a fun _ b =>
      a = b ∧ Below le a i j ∨ b = a.swap i j hi hj ∧ Below le a j i := by
  apply compare_meets hr hj hi
  intro r hans
  cases r with
  | true => exact (swap_meets hi hj).mono fun _ b hb => .inr ⟨hb, hans⟩
  | false => exact Meets.pure (.inl ⟨rfl, hans⟩)

/-! ### Partition -/

/-- The upward scan passes what lies below the pivot, which is at position `q`. -/
theorem scanUp_meets (hr : Respects comp I le) {p : Item V} {q : ℕ} (hq : a[q]? = some p) (n i : ℕ)
    (hsize : i + n ≤ a.size) :
    Meets I (scanUp comp p n i) a fun i' b => a = b ∧ i ≤ i' ∧ i' ≤ i + n ∧
      (∀ k, i ≤ k → k < i' → Below le a k q) ∧ (i' < i + n → Below le a q i') := by
  induction n generalizing i with
  | zero =>
    apply Meets.pure
    exact ⟨rfl, le_rfl, le_rfl, fun k hk hk' => by omega, fun h => by omega⟩
  | succ n ih =>
    apply (item_meets (by omega)).bind
    rintro x _ ⟨rfl, hx⟩
    apply (cmpApply_meets hr x p).bind
    rintro r _ ⟨rfl, hans⟩
    cases r with
    | true =>
      apply (ih (i + 1) (by omega)).mono
      rintro i' _ ⟨rfl, hle, hle', hpass, hstop⟩
      refine ⟨rfl, by omega, by omega, fun k hk hki => ?_, fun h => hstop (by omega)⟩
      by_cases hki' : k = i
      · exact hki' ▸ below_of_le hx hq hans
      · exact hpass k (by omega) hki
    | false =>
      apply Meets.pure
      exact ⟨rfl, le_rfl, by omega, fun k hk hk' => by omega, fun _ => below_of_le hq hx hans⟩

/-- The downward scan passes what lies above the pivot. -/
theorem scanDown_meets (hr : Respects comp I le) {p : Item V} {q : ℕ} (hq : a[q]? = some p) (n j : ℕ)
    (hn : n ≤ j) (hsize : j < a.size) :
    Meets I (scanDown comp p n j) a fun j' b => a = b ∧ j - n ≤ j' ∧ j' ≤ j ∧
      (∀ k, j' < k → k ≤ j → Below le a q k) ∧ (j - n < j' → Below le a j' q) := by
  induction n generalizing j with
  | zero =>
    apply Meets.pure
    exact ⟨rfl, Nat.sub_le j 0, le_rfl, fun k hk hk' => by omega, fun h => by omega⟩
  | succ n ih =>
    apply (item_meets hsize).bind
    rintro x _ ⟨rfl, hx⟩
    apply (cmpApply_meets hr p x).bind
    rintro r _ ⟨rfl, hans⟩
    cases r with
    | true =>
      apply (ih (j - 1) (by omega) (by omega)).mono
      rintro j' _ ⟨rfl, hle, hle', hpass, hstop⟩
      refine ⟨rfl, by omega, by omega, fun k hk hki => ?_, fun h => hstop (by omega)⟩
      by_cases hkj : k = j
      · exact hkj ▸ below_of_le hq hx hans
      · exact hpass k hk (by omega)
    | false =>
      apply Meets.pure
      exact ⟨rfl, by omega, le_rfl, fun k hk hk' => by omega, fun _ => below_of_le hx hq hans⟩

theorem partitionLoop_meets (hr : Respects comp I le) {p : Item V} (fuel i j : ℕ) (hlo : lo ≤ i)
    (hij : i < j) (hj : j ≤ hi - 1) (hhi : hi < a.size) (hfuel : j - i ≤ fuel)
    (h : Split le lo hi i j p a) :
    Meets I (partitionLoop comp p fuel i j) a fun i' b => i < i' ∧ i' ≤ hi - 1 ∧
      Rearranged lo hi a b ∧ ∃ hi' : i' < b.size, ∃ hhi' : hi - 1 < b.size,
        Separated le lo hi i' (b.swap i' (hi - 1) hi' hhi') := by
  induction fuel generalizing i j a with
  | zero => omega
  | succ fuel ih =>
    apply (scanUp_meets hr h.pivot (j - (i + 1)) (i + 1) (by omega)).bind
    rintro i' _ ⟨rfl, hi₁, hi₂, hlow, hup⟩
    apply (scanDown_meets hr h.pivot (j - 1 - i') (j - 1) (by omega) (by omega)).bind
    rintro j' _ ⟨rfl, hj₁, hj₂, hhigh, hdown⟩
    split_ifs with hmet
    · apply Meets.pure
      refine ⟨by omega, by omega, .refl _ _ _, by omega, by omega, ?_⟩
      apply h.finish (by omega) (by omega) (by omega) (by omega)
      · exact fun k hk hki => hlow k (by omega) hki
      · intro k hk hkj
        by_cases hki : k = i'
        · exact hki ▸ hup (by omega)
        · exact hhigh k (by omega) (by omega)
    · apply (swap_meets (by omega) (by omega)).bind
      rintro _ _ rfl
      have hlt : i' < j' := by omega
      have hjj : j' < j := by omega
      have hsplit := h.step hlt hjj hj (by omega) (by omega)
        (fun k hk hki => hlow k (by omega) hki) (fun k hk hkj => hhigh k hk (by omega))
        (hup (by omega)) (hdown (by omega))
      have hswap : Rearranged lo hi a (a.swap i' j' (by omega) (by omega)) :=
        .swap _ _ (by omega) (by omega) (by omega) (by omega)
      apply (ih i' j' (by omega) (by omega) (by omega) (by simpa using hhi) (by omega) hsplit).mono
      rintro i'' b ⟨hlt, hle, hre, hsep⟩
      exact ⟨by omega, hle, hswap.trans hre, hsep⟩

variable [IsPreorder (Item V) le]

/-- The median of three goes to the middle, with the other two on their sides of it. -/
theorem median_meets (hr : Respects comp I le) {mid : ℕ} (hlm : lo < mid) (hmh : mid < hi)
    (hhi : hi < a.size) {f : SortM V ω ε β} {R : β → Array (Item V) → Prop}
    (hf : ∀ b, Rearranged lo hi a b → Below le b lo mid → Below le b mid hi → Meets I f b R) :
    Meets I (do orderPair comp lo mid; orderPair comp lo hi; orderPair comp mid hi; f) a R := by
  have pair : ∀ {c : Array (Item V)} {k l : ℕ} (hk : k < c.size) (hl : l < c.size), lo ≤ k → k ≤ hi →
      lo ≤ l → l ≤ hi → Rearranged lo hi c (c.swap k l hk hl) :=
    fun hk hl h₁ h₂ h₃ h₄ => .swap hk hl h₁ h₂ h₃ h₄
  have first : Meets I (orderPair comp lo mid) a fun _ b => Rearranged lo hi a b ∧ Below le b lo mid := by
    apply (orderPair_meets hr (by omega) (by omega)).mono
    rintro _ b (⟨rfl, hb⟩ | ⟨rfl, hb⟩)
    · exact ⟨.refl _ _ _, hb⟩
    · refine ⟨pair _ _ (by omega) (by omega) (by omega) (by omega), ?_⟩
      rwa [below_swap, exchange_left, exchange_right]
  apply first.bind
  rintro _ b ⟨hre, hlo⟩
  have hsize := hre.size
  have second : Meets I (orderPair comp lo hi) b fun _ c =>
      Rearranged lo hi b c ∧ Below le c lo mid ∧ Below le c lo hi := by
    apply (orderPair_meets hr (by omega) (by omega)).mono
    rintro _ c (⟨rfl, hc⟩ | ⟨rfl, hc⟩)
    · exact ⟨.refl _ _ _, hlo, hc⟩
    · refine ⟨pair _ _ (by omega) (by omega) (by omega) (by omega), ?_, ?_⟩
      · rw [below_swap, exchange_left, exchange_of_ne (by omega) (by omega)]
        exact hc.trans (by omega) hlo
      · rwa [below_swap, exchange_left, exchange_right]
  apply second.bind
  rintro _ c ⟨hre', hlo', hlohi⟩
  have hsize' := hre'.size
  apply (orderPair_meets hr (by omega) (by omega)).bind
  rintro _ d (⟨rfl, hd⟩ | ⟨rfl, hd⟩)
  · exact hf c (hre.trans hre') hlo' hd
  · apply hf _ ((hre.trans hre').trans (pair _ _ (by omega) (by omega) (by omega) (by omega)))
    · rw [below_swap, exchange_left, exchange_of_ne (by omega) (by omega)]
      exact hlohi
    · rwa [below_swap, exchange_left, exchange_right]

theorem partition_meets (hr : Respects comp I le) (hlh : lo + 16 ≤ hi) (hhi : hi < a.size) :
    Meets I (partition comp lo hi) a fun p b =>
      lo ≤ p ∧ p ≤ hi ∧ Rearranged lo hi a b ∧ Separated le lo hi p b := by
  unfold partition
  apply median_meets hr (by omega) (by omega) hhi
  intro b hre hlo hmid
  generalize hm : lo + (hi - lo) / 2 = mid at *
  have hsize := hre.size
  apply (item_meets (by omega)).bind
  rintro p _ ⟨rfl, hp⟩
  apply (swap_meets (by omega) (by omega)).bind
  rintro _ _ rfl
  have hswap : Rearranged lo hi b (b.swap mid (hi - 1) (by omega) (by omega)) :=
    .swap _ _ (by omega) (by omega) (by omega) (by omega)
  have hsplit : Split le lo hi lo (hi - 1) p (b.swap mid (hi - 1) (by omega) (by omega)) := by
    constructor
    · rw [getElem?_exchange, exchange_right]
      exact hp
    · intro k hk hkl
      obtain rfl : k = lo := by omega
      rw [below_swap, exchange_right, exchange_of_ne (by omega) (by omega)]
      exact hlo
    · intro k hk hkh
      rw [below_swap, exchange_right]
      by_cases hk' : k = hi - 1
      · rw [hk', exchange_right]
        exact Below.refl mid
      · obtain rfl : k = hi := by omega
        rw [exchange_of_ne (by omega) (by omega)]
        exact hmid
  apply (partitionLoop_meets hr (hi - lo) lo (hi - 1) le_rfl (by omega) le_rfl
    (by rw [hswap.size]; omega) (by omega) hsplit).bind
  rintro i c ⟨hlt, hle, hre', hi', hhi', hsep⟩
  apply (swap_meets hi' hhi').bind
  rintro _ _ rfl
  apply Meets.pure
  have hlast : Rearranged lo hi c (c.swap i (hi - 1) hi' hhi') :=
    .swap _ _ (by omega) (by omega) (by omega) (by omega)
  exact ⟨by omega, by omega, (hre.trans hswap).trans (hre'.trans hlast), hsep⟩

/-! ### Insertion sort -/

theorem sinkLeft_meets (hr : Respects comp I le) (n j : ℕ) (hn : lo + n = j) (hj : j ≤ hi)
    (hhi : hi < a.size) (h : Sinking le lo hi j a) :
    Meets I (sinkLeft comp n j) a fun _ b => Rearranged lo hi a b ∧ SortedOn le lo hi b := by
  induction n generalizing j a with
  | zero =>
    apply Meets.pure
    exact ⟨.refl _ _ _, h.finish (by omega) hj fun h => by omega⟩
  | succ n ih =>
    apply compare_meets hr (by omega) (by omega)
    intro r hans
    cases r with
    | true =>
      apply (swap_meets (by omega) (by omega)).bind
      rintro _ _ rfl
      have hswap : Rearranged lo hi a (a.swap j (j - 1) (by omega) (by omega)) :=
        .swap _ _ (by omega) (by omega) (by omega) (by omega)
      apply (ih (j - 1) (by omega) (by omega) (by rwa [hswap.size])
        (h.step (by omega) (by omega) hans)).mono
      rintro _ b ⟨hre, hsorted⟩
      exact ⟨hswap.trans hre, hsorted⟩
    | false =>
      apply Meets.pure
      exact ⟨.refl _ _ _, h.finish (by omega) hj fun _ => hans⟩

theorem insertionRounds_meets (hr : Respects comp I le) (n i : ℕ) (hlo : lo < i) (hn : i + n = hi + 1)
    (hhi : hi < a.size) (h : SortedOn le lo (i - 1) a) :
    Meets I (insertionRounds comp lo n i) a fun _ b => Rearranged lo hi a b ∧ SortedOn le lo hi b := by
  induction n generalizing i a with
  | zero =>
    apply Meets.pure
    refine ⟨.refl _ _ _, ?_⟩
    rwa [show hi = i - 1 by omega]
  | succ n ih =>
    have hsinking : Sinking le lo i i a := by
      have hs := h.sinking
      rwa [Nat.sub_add_cancel (by omega)] at hs
    apply (sinkLeft_meets hr (i - lo) i (by omega) le_rfl (by omega) hsinking).bind
    rintro _ b ⟨hre, hsorted⟩
    apply (ih (i + 1) (by omega) (by omega) (by rwa [hre.size]) hsorted).mono
    rintro _ c ⟨hre', hsorted'⟩
    exact ⟨(hre.mono le_rfl (by omega)).trans hre', hsorted'⟩

theorem insertionSort_meets (hr : Respects comp I le) (hlh : lo ≤ hi) (hhi : hi < a.size) :
    Meets I (insertionSort comp lo hi) a fun _ b => Rearranged lo hi a b ∧ SortedOn le lo hi b :=
  insertionRounds_meets hr (hi - lo) (lo + 1) (by omega) (by omega) hhi
    fun k l hk hkl hl => by omega

/-! ### Heapsort -/

theorem pickLarger_meets (hr : Respects comp I le) {n largest : ℕ} (child : ℕ) (hl : largest < n)
    (hsize : lo + n ≤ a.size) :
    Meets I (pickLarger comp lo n largest child) a fun c b => a = b ∧ (c = largest ∨ c = child ∧ child < n) ∧
      Below le a (lo + largest) (lo + c) ∧ (child < n → Below le a (lo + child) (lo + c)) := by
  unfold pickLarger
  split_ifs with hchild
  · apply compare_meets hr (by omega) (by omega)
    intro r hans
    apply Meets.pure
    cases r with
    | true => exact ⟨rfl, .inr ⟨rfl, hchild⟩, hans, fun _ => Below.refl _⟩
    | false => exact ⟨rfl, .inl rfl, Below.refl _, fun _ => hans⟩
  · apply Meets.pure
    exact ⟨rfl, .inl rfl, Below.refl _, fun h => absurd h hchild⟩

theorem siftDown_meets (hr : Respects comp I le) {n r : ℕ} (fuel s : ℕ) (hrs : r ≤ s)
    (hs : s < n) (hfuel : n - s ≤ fuel) (hsize : lo + n ≤ a.size) (h : HeapExcept le lo n r s a) :
    Meets I (siftDown comp lo n fuel s) a fun _ b =>
      Rearranged lo (lo + n - 1) a b ∧ HeapFrom le lo n r b := by
  induction fuel generalizing s a with
  | zero => omega
  | succ fuel ih =>
    unfold siftDown
    split_ifs with hleaf
    · apply Meets.pure
      exact ⟨.refl _ _ _, h.finish fun q hq hqn => by unfold IsChild at hq; omega⟩
    · apply (pickLarger_meets hr (2 * s + 1) hs hsize).bind
      rintro c₁ _ ⟨rfl, hc₁, hroot₁, hleft⟩
      have hc₁n : c₁ < n := by omega
      apply (pickLarger_meets hr (2 * s + 2) hc₁n hsize).bind
      rintro c _ ⟨rfl, hc, hroot₂, hright⟩
      have hroot : Below le a (lo + s) (lo + c) := hroot₁.trans (by omega) hroot₂
      have hchildren : ∀ q, IsChild q s → q < n → Below le a (lo + q) (lo + c) := by
        intro q hq hqn
        cases hq with
        | inl hq => exact hq ▸ (hleft (by omega)).trans (by omega) hroot₂
        | inr hq => exact hq ▸ hright (by omega)
      split_ifs with hstop
      · apply Meets.pure
        exact ⟨.refl _ _ _, h.finish fun q hq hqn => hstop ▸ hchildren q hq hqn⟩
      · have hchild : IsChild c s := by unfold IsChild; omega
        have hcn : c < n := by omega
        have hsc : s < c := by unfold IsChild at hchild; omega
        apply (swap_meets (by omega) (by omega)).bind
        rintro _ _ rfl
        have hswap : Rearranged lo (lo + n - 1) a (a.swap (lo + s) (lo + c) (by omega) (by omega)) :=
          .swap _ _ (by omega) (by omega) (by omega) (by omega)
        apply (ih c (by omega) hcn (by omega) (by simpa using hsize)
          (h.step hrs hchild hcn hsize hroot hchildren)).mono
        rintro _ b ⟨hre, hheap⟩
        exact ⟨hswap.trans hre, hheap⟩

theorem heapify_meets (hr : Respects comp I le) {n : ℕ} (m : ℕ) (hm : m ≤ n) (hsize : lo + n ≤ a.size)
    (h : HeapFrom le lo n m a) :
    Meets I (heapify comp lo n m) a fun _ b =>
      Rearranged lo (lo + n - 1) a b ∧ HeapFrom le lo n 0 b := by
  induction m generalizing a with
  | zero => exact Meets.pure ⟨.refl _ _ _, h⟩
  | succ i ih =>
    apply (siftDown_meets hr (n + 1) i le_rfl (by omega) (by omega) hsize h.except).bind
    rintro _ b ⟨hre, hheap⟩
    apply (ih (by omega) (by rwa [hre.size]) hheap).mono
    rintro _ c ⟨hre', hheap'⟩
    exact ⟨hre.trans hre', hheap'⟩

/-- The state of the second phase: a heap of `m + 1` elements, and above it the rest in order. -/
structure Draining (le : Item V → Item V → Prop) (lo hi m : ℕ) (a : Array (Item V)) : Prop where
  heap : HeapFrom le lo (m + 1) 0 a
  tail : ∀ k l, lo ≤ k → k < l → lo + m < l → l ≤ hi → Below le a k l

theorem drain_meets (hr : Respects comp I le) (m : ℕ) (hm : lo + m ≤ hi) (hhi : hi < a.size)
    (h : Draining le lo hi m a) :
    Meets I (drain comp lo m) a fun _ b => Rearranged lo hi a b ∧ SortedOn le lo hi b := by
  induction m generalizing a with
  | zero =>
    apply Meets.pure
    exact ⟨.refl _ _ _, fun k l hk hkl hl => h.tail k l hk hkl (by omega) hl⟩
  | succ i ih =>
    apply (swap_meets (by omega) (by omega)).bind
    rintro _ _ rfl
    have hswap : Rearranged lo (lo + (i + 1)) a (a.swap lo (lo + (i + 1)) (by omega) (by omega)) :=
      .swap _ _ (by omega) (by omega) (by omega) (by omega)
    have hroot : ∀ q, q < i + 2 → Below le a (lo + q) lo := h.heap.root (by omega)
    have hexcept : HeapExcept le lo (i + 1) 0 0 (a.swap lo (lo + (i + 1)) (by omega) (by omega)) := by
      constructor
      · intro p q _ hq hqi hp
        unfold IsChild at hq
        rw [below_swap, exchange_of_ne (by omega) (by omega), exchange_of_ne (by omega) (by omega)]
        exact h.heap p q (Nat.zero_le p) hq (by omega)
      · intro p q _ hp
        unfold IsChild at hp
        omega
    apply (siftDown_meets hr (i + 2) 0 le_rfl (by omega) (by omega) (by rw [hswap.size]; omega)
      hexcept).bind
    rintro _ b ⟨hre, hheap⟩
    have hre' : Rearranged lo hi a b :=
      (hswap.mono le_rfl (by omega)).trans (hre.mono le_rfl (by omega))
    -- The elements of the heap stay below the root that was moved behind them.
    have htail : ∀ k l, lo ≤ k → k < l → lo + i < l → l ≤ hi →
        Below le (a.swap lo (lo + (i + 1)) (by omega) (by omega)) k l := by
      intro k l hk hkl hl hlh
      rw [below_swap]
      by_cases hl' : l = lo + (i + 1)
      · rw [hl', exchange_right]
        by_cases hk' : k = lo
        · rw [hk', exchange_left]
          exact hroot (i + 1) (by omega)
        · rw [exchange_of_ne hk' (by omega)]
          have hq := hroot (k - lo) (by omega)
          rwa [Nat.add_sub_cancel' hk] at hq
      · rw [exchange_of_ne (k := l) (by omega) hl']
        by_cases hk' : k = lo
        · rw [hk', exchange_left]
          exact h.tail _ l (by omega) (by omega) (by omega) hlh
        · by_cases hk'' : k = lo + (i + 1)
          · rw [hk'', exchange_right]
            exact h.tail _ l le_rfl (by omega) (by omega) hlh
          · rw [exchange_of_ne hk' hk'']
            exact h.tail k l hk hkl (by omega) hlh
    have hdraining : Draining le lo hi i b := by
      refine ⟨hheap, fun k l hk hkl hl hlh => ?_⟩
      by_cases hki : k ≤ lo + i
      · exact hre.below (by omega) (fun q hq hqi => htail q l hq (by omega) hl hlh) k hk (by omega)
      · exact (htail k l hk hkl hl hlh).congr (hre.frame k (by omega)) (hre.frame l (by omega))
    apply (ih (by omega) (by rwa [hre'.size]) hdraining).mono
    rintro _ c ⟨hre'', hsorted⟩
    exact ⟨hre'.trans hre'', hsorted⟩

theorem heapsort_meets (hr : Respects comp I le) (hlh : lo ≤ hi) (hhi : hi < a.size) :
    Meets I (heapsort comp lo hi) a fun _ b => Rearranged lo hi a b ∧ SortedOn le lo hi b := by
  have hstart : HeapFrom le lo (hi - lo + 1) ((hi - lo + 1) / 2) a := by
    intro p q hp hq hqn
    unfold IsChild at hq
    omega
  apply (heapify_meets hr ((hi - lo + 1) / 2) (by omega) (by omega) hstart).bind
  rintro _ b ⟨hre, hheap⟩
  replace hre : Rearranged lo hi a b := hre.mono le_rfl (by omega)
  have hdraining : Draining le lo hi (hi - lo) b := ⟨hheap, fun k l _ _ _ _ => by omega⟩
  apply (drain_meets hr (hi - lo) (by omega) (by rwa [hre.size]) hdraining).mono
  rintro _ c ⟨hre', hsorted⟩
  exact ⟨hre.trans hre', hsorted⟩

/-! ### Introsort -/

/-- A section around a pivot is sorted when both its parts are. -/
theorem introsortImpl_meets (hr : Respects comp I le) (depth lo hi : ℕ) (hlh : lo ≤ hi)
    (hhi : hi < a.size) :
    Meets I (introsortImpl comp depth lo hi) a fun _ b =>
      Rearranged lo hi a b ∧ SortedOn le lo hi b := by
  induction depth generalizing lo hi a with
  | zero =>
    unfold introsortImpl
    split_ifs with hshort
    · exact insertionSort_meets hr hlh hhi
    · exact heapsort_meets hr hlh hhi
  | succ depth ih =>
    unfold introsortImpl
    split_ifs with hshort
    · exact insertionSort_meets hr hlh hhi
    · apply (partition_meets hr (by omega) hhi).bind
      rintro p b ⟨hlp, hph, hre, hsep⟩
      have hsize := hre.size
      have left : Meets I (if lo < p then introsortImpl comp depth lo (p - 1) else pure ()) b
          fun _ c => Rearranged lo hi b c ∧ Separated le lo hi p c ∧ SortedOn le lo (p - 1) c := by
        split_ifs with hlo
        · apply (ih lo (p - 1) (by omega) (by omega)).mono
          rintro _ c ⟨hc, hsorted⟩
          exact ⟨hc.mono le_rfl (by omega), hsep.left hlo hc, hsorted⟩
        · exact Meets.pure ⟨.refl _ _ _, hsep, fun k l _ _ _ => by omega⟩
      apply left.bind
      rintro _ c ⟨hre₁, hsep₁, hsorted₁⟩
      have hsize₁ := hre₁.size
      have right : Meets I (if p < hi then introsortImpl comp depth (p + 1) hi else pure ()) c
          fun _ d => Rearranged lo hi c d ∧ Separated le lo hi p d ∧ SortedOn le lo (p - 1) d ∧
            SortedOn le (p + 1) hi d := by
        split_ifs with hlo
        · apply (ih (p + 1) hi (by omega) (by omega)).mono
          rintro _ d ⟨hd, hsorted⟩
          exact ⟨hd.mono (by omega) le_rfl, hsep₁.right hd, hd.sortedOn (by omega) hsorted₁, hsorted⟩
        · exact Meets.pure ⟨.refl _ _ _, hsep₁, hsorted₁, fun k l _ _ _ => by omega⟩
      apply right.mono
      rintro _ d ⟨hre₂, hsep₂, hlow, hhigh⟩
      have hsize₂ := hre₂.size
      exact ⟨(hre.trans hre₁).trans hre₂, hsep₂.sortedOn (by omega) hlow hhigh⟩

theorem introsort_meets (hr : Respects comp I le) :
    Meets I (introsort comp) a fun _ b => b.Perm a ∧ SortedOn le 0 (a.size - 1) b := by
  intro s hs
  unfold introsort
  split_ifs with hsmall
  · exact ⟨hs, .refl a, fun k l _ _ _ => by simp only at hsmall; omega⟩
  · simp only at hsmall ⊢
    have himpl := introsortImpl_meets hr (Nat.clog 2 a.size * 2) 0 (a.size - 1) (Nat.zero_le _)
      (by omega : a.size - 1 < a.size)
    have hperm : Meets I (introsortImpl comp (Nat.clog 2 a.size * 2) 0 (a.size - 1)) a fun _ b =>
        b.Perm a ∧ SortedOn le 0 (a.size - 1) b := himpl.mono fun _ b hb => ⟨hb.1.perm, hb.2⟩
    exact hperm s hs

end LuajitRs.Sort
