import LuajitRs.Lib.Nearest
import LuajitRs.Stdlib.Math.Scale
import LuajitRs.Util.Strfmt.Integer
import Mathlib.Data.Int.Log
import Mathlib.Data.List.DropRight

/-! Decimal texts of doubles: the fixed and the scientific form of the standard library, the text of a number as a
string, and the bodies of `%f`, `%e` and `%g`. -/
namespace LuajitRs.Strfmt
open Lib

/-! ### The forms of the standard library -/

/-- So many of the last digits. -/
def lowDigits : ℕ → ℕ → List UInt8
  | 0, _ => []
  | p + 1, n => lowDigits p (n / 10) ++ [ch '0' + UInt8.ofNat (n % 10)]

/-- The text of `n / 10^p`, with `p` digits behind the point. -/
def decimalText (p n : ℕ) : List UInt8 :=
  numeral 10 false (n / 10^p) ++ if p = 0 then [] else ch '.' :: lowDigits p n

/-- `{:.*}` of a magnitude. -/
def fixedText (p : ℕ) (x : F64) : List UInt8 :=
  if x.isNaN then "NaN".toList.map ch
  else if x.expo = 2047 then "inf".toList.map ch
  else decimalText p (Nearest.roundEven (|x.toRat| * 10^p)).toNat

/-- The digits of a finite magnitude as an integer with `p + 1` digits, and the exponent of the first one. -/
def scientific (p : ℕ) (x : F64) : ℕ × ℤ :=
  if x.isZero then (0, 0)
  else
    let e := Int.log 10 |x.toRat|
    let m := (Nearest.roundEven (|x.toRat| / 10^(e - p))).toNat
    if m = 10^(p + 1) then (10^p, e + 1) else (m, e)

/-- A precision is limited to 16 bits. -/
def checkPrec (p : ℕ) : Except Fault Unit := if p < 2^16 then .ok () else .error .overflow

/-- The two sides of the letter in `{:.*e}` of a magnitude; infinity and NaN have no letter to split at. -/
def splitExp (p : ℕ) (x : F64) : Except Fault (List UInt8 × ℤ) := do
  checkPrec p
  if x.expo = 2047 then .error .outOfBounds
  else
    let (m, e) := scientific p x
    pure (decimalText p m, e)

/-- A signed exponent with at least two digits. -/
def expDigits (e : ℤ) : List UInt8 :=
  (if e < 0 then ch '-' else ch '+') :: (if e.natAbs < 10 then [ch '0'] else []) ++ numeral 10 false e.natAbs

def trimZeros (s : List UInt8) : List UInt8 := (s.rdropWhile (· = ch '0')).rdropWhile (· = ch '.')

/-! ### Numbers as strings -/

/-- The text of a number that is no integer of 53 bits, with the limit of the buffer. -/
def g14Float (x : F64) : List UInt8 :=
  let sign := if x.signBit then [ch '-'] else []
  let (m, e) := scientific 13 x
  if e < -4 ∨ 14 ≤ e then (trimZeros (sign ++ decimalText 13 m) ++ ch 'e' :: expDigits e).take 64
  else
    let s := (sign ++ fixedText (13 - e).toNat x).take 64
    if ch '.' ∈ s then trimZeros s else s

def g14 (x : F64) : List UInt8 :=
  if x.feq .zero then if x.signBit then [ch '-', ch '0'] else [ch '0']
  else if x.isNaN then "nan".toList.map ch
  else if x.expo = 2047 then if x.signBit then "-inf".toList.map ch else "inf".toList.map ch
  else
    let i := x.asInt64.toInt
    if i.natAbs < 2^53 ∧ (F64.ofInt i).feq x then (if i < 0 then [ch '-'] else []) ++ numeral 10 false i.natAbs
    else g14Float x

/-! ### Bodies -/

/-- The conversions of a number to a decimal text. -/
inductive FloatConv
  | f | F | e | E | g | G
  deriving DecidableEq, Repr

def FloatConv.byte : FloatConv → UInt8
  | f => ch 'f'
  | F => ch 'F'
  | e => ch 'e'
  | E => ch 'E'
  | g => ch 'g'
  | G => ch 'G'

def FloatConv.ofByte (b : UInt8) : Option FloatConv := [f, F, e, E, g, G].find? fun c => c.byte = b

/-- With the flag `#` there is always a point. -/
def withPoint (hash : Bool) (s : List UInt8) : List UInt8 := if hash ∧ ch '.' ∉ s then s ++ [ch '.'] else s

def fmtE (x : F64) (prec : ℕ) (upper hash : Bool) : Except Fault (List UInt8) := do
  let (m, e) ← splitExp prec x
  pure (withPoint hash m ++ (if upper then ch 'E' else ch 'e') :: expDigits e)

def fmtG (x : F64) (prec : ℕ) (hash : Bool) : Except Fault (List UInt8) :=
  if x.feq .zero then .ok [ch '0']
  else do
    -- The exponent of the rounded value decides the style.
    let (mant, exp) ← splitExp (prec - 1) x
    if exp < -4 ∨ (prec : ℤ) ≤ exp then
      pure ((if hash then mant else trimZeros mant) ++ ch 'e' :: expDigits exp)
    else
      let decimals := (prec - 1 - exp).toNat
      checkPrec decimals
      let s := fixedText decimals x
      pure (if hash then s else if ch '.' ∈ s then trimZeros s else s)

/-- The text of the magnitude, without a sign. -/
def fmtFloatBody (s : Spec) (c : FloatConv) (x : F64) : Except Fault (List UInt8) :=
  let p := s.prec.getD 6
  match c with
  | .f | .F => do
    checkPrec p
    pure (withPoint s.hash (fixedText p x))
  | .e => fmtE x p false s.hash
  | .E => fmtE x p true s.hash
  | .g => fmtG x (if s.prec.isSome then max p 1 else 6) s.hash
  | .G => do
    let t ← fmtG x (if s.prec.isSome then max p 1 else 6) s.hash
    pure (t.map Ascii.toUppercase)

/-! ### When a number has a body -/

/-- When a float has a text: no scientific form of an infinity or a NaN, and precisions of 16 bits. -/
def FloatOk (s : Spec) (x : F64) : FloatConv → Prop
  | .f | .F => s.prec.getD 6 < 2^16
  | .e | .E => s.prec.getD 6 < 2^16 ∧ x.expo ≠ 2047
  | .g | .G =>
    let p := if s.prec.isSome then max (s.prec.getD 6) 1 else 6
    let e := (scientific (p - 1) x).2
    x.isZero = true ∨ (p - 1 < 2^16 ∧ x.expo ≠ 2047 ∧ (e < -4 ∨ p ≤ e ∨ p - 1 - e < 2^16))

section Bodies
variable {x : F64} {p : ℕ}

theorem splitExp_ok (hp : p < 2^16) (hx : x.expo ≠ 2047) :
    splitExp p x = .ok (decimalText p (scientific p x).1, (scientific p x).2) := by
  rw [splitExp, checkPrec, if_pos hp, ok_bind, if_neg hx]
  rfl

theorem splitExp_error (h : ¬ (p < 2^16 ∧ x.expo ≠ 2047)) : ∃ e, splitExp p x = .error e := by
  rw [splitExp, checkPrec]
  by_cases hp : p < 2^16
  · rw [if_pos hp, ok_bind, if_pos (by_contra fun hx => h ⟨hp, hx⟩)]
    exact ⟨_, rfl⟩
  · rw [if_neg hp]
    exact ⟨_, rfl⟩

theorem fmtE_ok_iff (upper hash : Bool) : (∃ body, fmtE x p upper hash = .ok body) ↔ p < 2^16 ∧ x.expo ≠ 2047 := by
  rw [fmtE]
  constructor
  · rintro ⟨body, hrun⟩
    by_contra hno
    obtain ⟨e, he⟩ := splitExp_error hno
    rw [he] at hrun
    cases hrun
  · rintro ⟨hp, hx⟩
    rw [splitExp_ok hp hx]
    exact ⟨_, rfl⟩

theorem fmtG_ok_iff (hash : Bool) : (∃ body, fmtG x p hash = .ok body) ↔
    x.isZero = true ∨ (p - 1 < 2^16 ∧ x.expo ≠ 2047 ∧
      ((scientific (p - 1) x).2 < -4 ∨ p ≤ (scientific (p - 1) x).2 ∨ p - 1 - (scientific (p - 1) x).2 < 2^16)) := by
  rw [fmtG]
  cases hz : x.isZero with
  | true =>
    have hfeq : x.feq .zero = true := by
      rcases of_decide_eq_true hz with rfl | rfl
      · rfl
      · rfl
    rw [if_pos hfeq]
    exact ⟨fun _ => .inl rfl, fun _ => ⟨_, rfl⟩⟩
  | false =>
    rw [Scale.feq_zero hz, if_neg (by decide)]
    by_cases hsplit : p - 1 < 2^16 ∧ x.expo ≠ 2047
    · rw [splitExp_ok hsplit.1 hsplit.2, ok_bind]
      dsimp only
      generalize (scientific (p - 1) x).2 = e
      by_cases hstyle : e < -4 ∨ (p : ℤ) ≤ e
      · rw [if_pos hstyle]
        refine ⟨fun _ => .inr ⟨hsplit.1, hsplit.2, ?_⟩, fun _ => ⟨_, rfl⟩⟩
        rw [← or_assoc]
        exact .inl hstyle
      · rw [if_neg hstyle, checkPrec]
        by_cases hdec : (p - 1 - e : ℤ).toNat < 2^16
        · rw [if_pos hdec]
          refine ⟨fun _ => .inr ⟨hsplit.1, hsplit.2, .inr (.inr (by omega))⟩, fun _ => ⟨_, rfl⟩⟩
        · rw [if_neg hdec]
          refine ⟨fun ⟨_, hrun⟩ => (by cases hrun), ?_⟩
          rintro (h | ⟨-, -, h⟩)
          · cases h
          · omega
    · obtain ⟨e, he⟩ := splitExp_error hsplit
      rw [he]
      refine ⟨fun ⟨_, hrun⟩ => (by cases hrun), ?_⟩
      rintro (h | h)
      · cases h
      · exact absurd ⟨h.1, h.2.1⟩ hsplit

theorem fmtFloatBody_ok_iff (s : Spec) (c : FloatConv) : (∃ body, fmtFloatBody s c x = .ok body) ↔ FloatOk s x c := by
  cases c with
  | f | F =>
    rw [fmtFloatBody, FloatOk, checkPrec]
    split_ifs with hp
    · exact ⟨fun _ => hp, fun _ => ⟨_, rfl⟩⟩
    · exact ⟨fun ⟨_, hrun⟩ => (by cases hrun), fun h => absurd h hp⟩
  | e => exact fmtE_ok_iff _ _
  | E => exact fmtE_ok_iff _ _
  | g => exact fmtG_ok_iff _
  | G =>
    rw [FloatOk, ← fmtG_ok_iff s.hash, fmtFloatBody]
    constructor
    · rintro ⟨body, hrun⟩
      cases hg : fmtG x (if s.prec.isSome then max (s.prec.getD 6) 1 else 6) s.hash with
      | error e =>
        rw [hg] at hrun
        cases hrun
      | ok t => exact ⟨t, rfl⟩
    · rintro ⟨t, ht⟩
      rw [ht]
      exact ⟨_, rfl⟩

end Bodies

/-! ### Texts have no blanks -/

theorem digit_ne_blank : ∀ d < 10, digitByte false d ≠ ch ' ' := by decide

theorem numeral_ne_blank (v : ℕ) : ∀ b ∈ numeral 10 false v, b ≠ ch ' ' := by
  obtain ⟨vals, -, hlt, htext, -⟩ := denotes_numeral false v (show 1 < 10 by decide)
  intro b hb
  rw [htext] at hb
  obtain ⟨d, hd, rfl⟩ := List.mem_map.mp hb
  exact digit_ne_blank d (hlt d hd)

theorem lowDigits_ne_blank (p n : ℕ) : ∀ b ∈ lowDigits p n, b ≠ ch ' ' := by
  induction p generalizing n with
  | zero => simp [lowDigits]
  | succ p ih =>
    intro b hb
    rw [lowDigits, List.mem_append, List.mem_singleton] at hb
    obtain hb | rfl := hb
    · exact ih _ b hb
    · rw [decimalDigit_eq _ (Nat.mod_lt _ (by decide))]
      exact digit_ne_blank _ (Nat.mod_lt _ (by decide))

theorem decimalText_ne_blank (p n : ℕ) : ∀ b ∈ decimalText p n, b ≠ ch ' ' := by
  intro b hb
  rw [decimalText, List.mem_append] at hb
  obtain hb | hb := hb
  · exact numeral_ne_blank _ b hb
  · split_ifs at hb
    · cases hb
    · obtain rfl | hb := List.mem_cons.mp hb
      · decide
      · exact lowDigits_ne_blank _ _ b hb

theorem expDigits_ne_blank (e : ℤ) : ∀ b ∈ expDigits e, b ≠ ch ' ' := by
  intro b hb
  rw [expDigits, List.cons_append, List.mem_cons, List.mem_append] at hb
  obtain rfl | hb | hb := hb
  · split_ifs <;> decide
  · split_ifs at hb
    · rw [List.mem_singleton.mp hb]
      decide
    · cases hb
  · exact numeral_ne_blank _ b hb

theorem mem_trimZeros {s : List UInt8} {b : UInt8} (hb : b ∈ trimZeros s) : b ∈ s :=
  (List.rdropWhile_prefix _ _).subset ((List.rdropWhile_prefix _ _).subset hb)

theorem fixedText_ne_blank (p : ℕ) (x : F64) : ∀ b ∈ fixedText p x, b ≠ ch ' ' := by
  rw [fixedText]
  split_ifs
  · simp [ch]
  · simp [ch]
  · exact decimalText_ne_blank _ _

theorem g14Float_ne_blank (x : F64) : ∀ b ∈ g14Float x, b ≠ ch ' ' := by
  have hsign : ∀ b ∈ (if x.signBit then [ch '-'] else []), b ≠ ch ' ' := by
    cases x.signBit <;> simp [ch]
  have hmant : ∀ b ∈ (if x.signBit then [ch '-'] else []) ++ decimalText 13 (scientific 13 x).1, b ≠ ch ' ' :=
    fun b hb => (List.mem_append.mp hb).elim (hsign b) (decimalText_ne_blank _ _ b)
  have hfixed (p : ℕ) : ∀ b ∈ ((if x.signBit then [ch '-'] else []) ++ fixedText p x).take 64, b ≠ ch ' ' :=
    fun b hb => (List.mem_append.mp (List.mem_of_mem_take hb)).elim (hsign b) (fixedText_ne_blank _ _ b)
  rw [g14Float]
  dsimp only
  generalize (if x.signBit then [ch '-'] else []) = sign at hsign hmant hfixed ⊢
  split_ifs
  · intro b hb
    obtain hb | hb := List.mem_append.mp (List.mem_of_mem_take hb)
    · exact hmant b (mem_trimZeros hb)
    · obtain rfl | hb := List.mem_cons.mp hb
      · decide
      · exact expDigits_ne_blank _ b hb
  · exact fun b hb => hfixed _ b (mem_trimZeros hb)
  · exact hfixed _

theorem g14_ne_blank (x : F64) : ∀ b ∈ g14 x, b ≠ ch ' ' := by
  rw [g14]
  dsimp only
  split_ifs
  · simp [ch]
  · simp [ch]
  · simp [ch]
  · simp [ch]
  · simp [ch]
  · intro b hb
    obtain hb | hb := List.mem_append.mp hb
    · rw [List.mem_singleton.mp hb]
      decide
    · exact numeral_ne_blank _ b hb
  · intro b hb
    exact numeral_ne_blank _ b hb
  · exact g14Float_ne_blank x

end LuajitRs.Strfmt
