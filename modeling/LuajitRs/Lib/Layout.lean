import Mathlib.Data.List.Basic
import Mathlib.Order.Bounds.Basic
import Mathlib.Algebra.Order.Ring.Nat
import Mathlib.Tactic.Ring

/-! Layout of data with alignments: one piece behind the other, or all at the same place. Two layouts with different
alignments put the pieces at the same places when rounding agrees at every end. -/
namespace LuajitRs.Lib.Layout

/-- The least multiple of `a` from `x` on; for a power of two, `x + a - 1` with the low bits cleared. -/
def alignUp (x a : ℕ) : ℕ := (x + a - 1) / a * a

section AlignUp
variable {a : ℕ} (x : ℕ)

theorem dvd_alignUp : a ∣ alignUp x a := Nat.dvd_mul_left _ _

theorem alignUp_lt (ha : 0 < a) : alignUp x a < x + a := by
  have h := Nat.div_mul_le_self (x + a - 1) a
  simp only [alignUp]
  omega

theorem le_alignUp (ha : 0 < a) : x ≤ alignUp x a := by
  have hdiv := Nat.div_add_mod (x + a - 1) a
  have hmod := Nat.mod_lt (x + a - 1) ha
  rw [mul_comm] at hdiv
  simp only [alignUp]
  omega

/-- A multiple in front of the rest does not take part in the rounding. -/
theorem alignUp_add {x : ℕ} (y : ℕ) (ha : 0 < a) (hx : a ∣ x) : alignUp (x + y) a = x + alignUp y a := by
  obtain ⟨k, rfl⟩ := hx
  have hsum : a * k + y + a - 1 = (y + a - 1) + a * k := by omega
  rw [alignUp, hsum, Nat.add_mul_div_left _ _ ha, add_mul, alignUp]
  ring_nf

end AlignUp

/-- A piece of data: its size and the alignment that it asks for. -/
structure Member where
  size : ℕ
  align : ℕ
  pos : 0 < align
  deriving DecidableEq, Repr

/-- With its size rounded up to its alignment. -/
def Member.padded (m : Member) : Member := ⟨alignUp m.size m.align, m.align, m.pos⟩

@[simp] theorem Member.padded_align (m : Member) : m.padded.align = m.align := rfl

/-! ### One behind the other -/

/-- The places of the members, each at the least multiple of its alignment behind the end of the one before. -/
def offsetsFrom : ℕ → List Member → List ℕ
  | _, [] => []
  | e, m :: ms => alignUp e m.align :: offsetsFrom (alignUp e m.align + m.size) ms

/-- The end of the last member. -/
def endFrom : ℕ → List Member → ℕ
  | e, [] => e
  | e, m :: ms => endFrom (alignUp e m.align + m.size) ms

def maxAlign (ms : List Member) : ℕ := (ms.map Member.align).foldr max 1

/-- The size of the largest member. -/
def widest (ms : List Member) : ℕ := (ms.map Member.size).foldr max 0

theorem offsetsFrom_snoc (e : ℕ) (ms : List Member) (m : Member) :
    offsetsFrom e (ms ++ [m]) = offsetsFrom e ms ++ [alignUp (endFrom e ms) m.align] := by
  induction ms generalizing e with
  | nil => rfl
  | cons n ms ih => simp only [List.cons_append, offsetsFrom, endFrom, ih]

theorem endFrom_snoc (e : ℕ) (ms : List Member) (m : Member) :
    endFrom e (ms ++ [m]) = alignUp (endFrom e ms) m.align + m.size := by
  induction ms generalizing e with
  | nil => rfl
  | cons n ms ih => simp only [List.cons_append, endFrom, ih]

theorem maxAlign_snoc (ms : List Member) (m : Member) : maxAlign (ms ++ [m]) = max (maxAlign ms) m.align := by
  induction ms with
  | nil => simp [maxAlign, max_comm]
  | cons n ms ih =>
    simp only [maxAlign, List.cons_append, List.map_cons, List.foldr_cons] at ih ⊢
    rw [ih, max_assoc]

theorem widest_snoc (ms : List Member) (m : Member) : widest (ms ++ [m]) = max (widest ms) m.size := by
  induction ms with
  | nil => simp [widest]
  | cons n ms ih =>
    simp only [widest, List.cons_append, List.map_cons, List.foldr_cons] at ih ⊢
    rw [ih, max_assoc]

theorem length_offsetsFrom (e : ℕ) (ms : List Member) : (offsetsFrom e ms).length = ms.length := by
  induction ms generalizing e with
  | nil => rfl
  | cons m ms ih => simp only [offsetsFrom, List.length_cons, ih]

theorem maxAlign_pos (ms : List Member) : 0 < maxAlign ms := by
  induction ms with
  | nil => simp [maxAlign]
  | cons m ms _ => exact lt_of_lt_of_le m.pos (le_max_left _ _)

theorem maxAlign_le {ms : List Member} {A : ℕ} (hA : 0 < A) (h : ∀ m ∈ ms, m.align ≤ A) : maxAlign ms ≤ A := by
  induction ms with
  | nil => exact hA
  | cons m ms ih =>
    exact max_le (h m List.mem_cons_self) (ih fun n hn => h n (List.mem_cons_of_mem m hn))

theorem size_le_widest {ms : List Member} {m : Member} (hm : m ∈ ms) : m.size ≤ widest ms := by
  induction ms with
  | nil => cases hm
  | cons n ms ih =>
    rcases List.mem_cons.mp hm with rfl | hm
    · exact le_max_left _ _
    · exact (ih hm).trans (le_max_right _ _)

theorem le_endFrom (e : ℕ) (ms : List Member) : e ≤ endFrom e ms := by
  induction ms generalizing e with
  | nil => exact le_rfl
  | cons m ms ih =>
    have hup := le_alignUp e m.pos
    have hrest := ih (alignUp e m.align + m.size)
    simp only [endFrom]
    omega

/-- Every member starts behind the end so far, at a multiple of its alignment, and ends within the whole. -/
theorem offsetsFrom_bounds {e : ℕ} {ms : List Member} {p : ℕ × Member} (hp : p ∈ (offsetsFrom e ms).zip ms) :
    e ≤ p.1 ∧ p.2.align ∣ p.1 ∧ p.1 + p.2.size ≤ endFrom e ms := by
  induction ms generalizing e with
  | nil => cases hp
  | cons m ms ih =>
    have hup := le_alignUp e m.pos
    rcases List.mem_cons.mp hp with rfl | hp
    · exact ⟨hup, dvd_alignUp e, le_endFrom _ ms⟩
    · obtain ⟨hle, hdvd, hend⟩ := ih hp
      exact ⟨by omega, hdvd, hend⟩

/-- No two members overlap. -/
theorem offsetsFrom_pairwise (e : ℕ) (ms : List Member) :
    ((offsetsFrom e ms).zip ms).Pairwise fun p q => p.1 + p.2.size ≤ q.1 := by
  induction ms generalizing e with
  | nil => exact List.Pairwise.nil
  | cons m ms ih =>
    apply List.Pairwise.cons
    · intro q hq
      exact (offsetsFrom_bounds hq).1
    · exact ih _

/-! ### Structs and unions -/

/-- The places of the members; in a union every one is at the start. -/
def offsets (isUnion : Bool) (ms : List Member) : List ℕ :=
  if isUnion then ms.map fun _ => 0 else offsetsFrom 0 ms

/-- The end of the members before the padding at the end. -/
def extent (isUnion : Bool) (ms : List Member) : ℕ := if isUnion then widest ms else endFrom 0 ms

/-- The size of the whole: a multiple of the largest alignment. -/
def size (isUnion : Bool) (ms : List Member) : ℕ := alignUp (extent isUnion ms) (maxAlign ms)

def whole (isUnion : Bool) (ms : List Member) : Member := ⟨size isUnion ms, maxAlign ms, maxAlign_pos ms⟩

theorem extent_le_size (isUnion : Bool) (ms : List Member) : extent isUnion ms ≤ size isUnion ms :=
  le_alignUp _ (maxAlign_pos ms)

/-! ### Rounding to other alignments -/

/-- Up to `M` of slack, a remainder that is large enough is the number itself. -/
theorem mod_eq_iff {x y e M : ℕ} (hx : x < e + M) (hy : e ≤ y) : x % M = y ↔ x = y ∧ y < M := by
  constructor
  · intro h
    rcases lt_or_ge x M with hlt | hge
    · rw [Nat.mod_eq_of_lt hlt] at h
      exact ⟨h, h ▸ hlt⟩
    · have hle := Nat.mod_le (x - M) M
      rw [Nat.mod_eq_sub_mod hge] at h
      omega
  · rintro ⟨rfl, hlt⟩
    exact Nat.mod_eq_of_lt hlt

section Agree
variable (ra ma : ℕ)

/-- At every pair, rounding the end `t` to the first alignment gives what rounding the end `e` to the second one
gives; behind it `t` is padded to the first alignment and `e` is not. At the end it is the same for `ra` and `ma`. -/
def AgreeFrom : ℕ → ℕ → List (Member × Member) → Prop
  | t, e, [] => alignUp t ra = alignUp e ma
  | t, e, (r, m) :: ps =>
    alignUp t r.align = alignUp e m.align ∧
    AgreeFrom (alignUp e m.align + alignUp r.size r.align) (alignUp e m.align + m.size) ps

instance decidableAgreeFrom : ∀ t e ps, Decidable (AgreeFrom ra ma t e ps)
  | t, e, [] => inferInstanceAs (Decidable (alignUp t ra = alignUp e ma))
  | t, e, (r, m) :: ps =>
    have := decidableAgreeFrom (alignUp e m.align + alignUp r.size r.align) (alignUp e m.align + m.size) ps
    inferInstanceAs (Decidable (_ ∧ _))

variable {ra ma}

/-- A layout with every size padded to its alignment, its places and its size kept modulo `M`. -/
theorem layoutFrom_mod_iff {M A : ℕ} (hA : A + A ≤ M) (hra : 0 < ra) (hraA : ra ≤ A) (hma : 0 < ma)
    {ps : List (Member × Member)} (halign : ∀ p ∈ ps, p.1.align ≤ A) (hsize : ∀ p ∈ ps, p.1.size = p.2.size)
    {t e : ℕ} (hte : t < e + A) :
    ((offsetsFrom t ((ps.map Prod.fst).map Member.padded)).map (· % M) = offsetsFrom e (ps.map Prod.snd) ∧
        alignUp (endFrom t ((ps.map Prod.fst).map Member.padded)) ra % M =
          alignUp (endFrom e (ps.map Prod.snd)) ma) ↔
      AgreeFrom ra ma t e ps ∧ alignUp (endFrom e (ps.map Prod.snd)) ma < M := by
  induction ps generalizing t e with
  | nil =>
    have hup := alignUp_lt t hra
    simpa [offsetsFrom, endFrom, AgreeFrom] using
      mod_eq_iff (M := M) (by omega : alignUp t ra < e + M) (le_alignUp e hma)
  | cons p ps ih =>
    obtain ⟨r, m⟩ := p
    have hr : r.align ≤ A := halign (r, m) List.mem_cons_self
    have hs : r.size = m.size := hsize (r, m) List.mem_cons_self
    have hup := alignUp_lt t r.pos
    have hhead := mod_eq_iff (M := M) (by omega : alignUp t r.align < e + M) (le_alignUp e m.pos)
    have hpad := alignUp_lt r.size r.pos
    have htail := ih (fun q hq => halign q (List.mem_cons_of_mem _ hq))
      (fun q hq => hsize q (List.mem_cons_of_mem _ hq))
      (show alignUp e m.align + alignUp r.size r.align < alignUp e m.align + m.size + A by omega)
    simp only [List.map_cons, offsetsFrom, endFrom, List.cons.injEq, AgreeFrom, hhead, Member.padded]
    constructor
    · rintro ⟨⟨⟨heq, -⟩, hrest⟩, hend⟩
      rw [heq] at hrest hend
      obtain ⟨hagree, hlt⟩ := htail.mp ⟨hrest, hend⟩
      exact ⟨⟨heq, hagree⟩, hlt⟩
    · rintro ⟨⟨heq, hagree⟩, hlt⟩
      obtain ⟨hrest, hend⟩ := htail.mpr ⟨hagree, hlt⟩
      -- the place of the member is not behind the end of the whole
      have hle := le_endFrom (alignUp e m.align + m.size) (ps.map Prod.snd)
      have hround := le_alignUp (endFrom (alignUp e m.align + m.size) (ps.map Prod.snd)) hma
      rw [heq]
      exact ⟨⟨⟨rfl, by omega⟩, hrest⟩, hend⟩

end Agree

end LuajitRs.Lib.Layout
