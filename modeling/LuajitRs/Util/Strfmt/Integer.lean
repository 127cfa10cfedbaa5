import LuajitRs.Lib.Ensures
import LuajitRs.Util.Strfmt
import Mathlib.Data.Nat.Digits.Lemmas

/-! The integer conversions of `string.format`: what a field has to be for a value and a written spec, and when the
field that is written is one. -/
namespace LuajitRs.Strfmt
open Lib

/-! ### Digits -/

/-- The digits in the order of their values. -/
def digitBytes (upper : Bool) : List UInt8 :=
  (if upper then "0123456789ABCDEF" else "0123456789abcdef").toList.map ch

def digitByte (upper : Bool) (d : ℕ) : UInt8 := (digitBytes upper).getD d 0

/-- The bytes are digits in the base that write the number. -/
def Denotes (base : ℕ) (upper : Bool) (ds : List UInt8) (v : ℕ) : Prop :=
  ∃ vals : List ℕ, vals ≠ [] ∧ (∀ d ∈ vals, d < base) ∧ ds = vals.map (digitByte upper) ∧
    Nat.ofDigits base vals.reverse = v

theorem idxOf_digitByte (upper : Bool) : ∀ d < 16, (digitBytes upper).idxOf (digitByte upper d) = d := by
  cases upper <;> decide

theorem hexDigit_eq (upper : Bool) : ∀ d < 16, hexDigit upper d = digitByte upper d := by
  cases upper <;> decide

theorem decimalDigit_eq : ∀ d < 10, ch '0' + UInt8.ofNat d = digitByte false d := by decide

section Digits
variable {base v : ℕ} {upper : Bool} {ds : List UInt8}

theorem Denotes.unique {w : ℕ} (hbase : base ≤ 16) (hv : Denotes base upper ds v) (hw : Denotes base upper ds w) :
    v = w := by
  have hvals {vals : List ℕ} (hlt : ∀ d ∈ vals, d < base) :
      (vals.map (digitByte upper)).map (digitBytes upper).idxOf = vals := by
    have hid : ∀ d ∈ vals, ((digitBytes upper).idxOf ∘ digitByte upper) d = id d :=
      fun d hd => idxOf_digitByte upper d ((hlt d hd).trans_le hbase)
    rw [List.map_map, List.map_congr_left hid, List.map_id]
  obtain ⟨vals, -, hlt, rfl, rfl⟩ := hv
  obtain ⟨vals', -, hlt', heq, rfl⟩ := hw
  rw [← hvals hlt, heq, hvals hlt']

theorem Denotes.zeros (k : ℕ) (hbase : 0 < base) (h : Denotes base upper ds v) :
    Denotes base upper (.replicate k (digitByte upper 0) ++ ds) v := by
  obtain ⟨vals, hne, hlt, rfl, rfl⟩ := h
  refine ⟨.replicate k 0 ++ vals, by simp [hne], fun d hd => ?_, by simp, ?_⟩
  · obtain hz | hd := List.mem_append.mp hd
    · rw [List.eq_of_mem_replicate hz]
      exact hbase
    · exact hlt d hd
  · rw [List.reverse_append, List.reverse_replicate, Nat.ofDigits_append_replicate_zero]

/-- The digits of a number, the highest first. -/
def numeral (base : ℕ) (upper : Bool) (v : ℕ) : List UInt8 :=
  if v = 0 then [digitByte upper 0] else (Nat.digits base v).reverse.map (digitByte upper)

/-- How many digits write a number. -/
def digitCount (base v : ℕ) : ℕ := max 1 (Nat.digits base v).length

theorem denotes_numeral (upper : Bool) (v : ℕ) (hbase : 1 < base) : Denotes base upper (numeral base upper v) v := by
  unfold numeral
  split
  · next h0 =>
    refine ⟨[0], by simp, fun d hd => ?_, rfl, by simp [h0]⟩
    rw [List.mem_singleton.mp hd]
    omega
  · next h0 =>
    refine ⟨(Nat.digits base v).reverse, ?_, fun d hd => ?_, rfl, ?_⟩
    · rw [Ne, List.reverse_eq_nil_iff]
      exact Nat.digits_ne_nil_iff_ne_zero.mpr h0
    · exact Nat.digits_lt_base hbase (List.mem_reverse.mp hd)
    · rw [List.reverse_reverse, Nat.ofDigits_digits]

theorem length_numeral (base : ℕ) (upper : Bool) (v : ℕ) : (numeral base upper v).length = digitCount base v := by
  unfold numeral digitCount
  split
  · next h0 => simp [h0]
  · next h0 =>
    have := List.length_pos_of_ne_nil (Nat.digits_ne_nil_iff_ne_zero (b := base).mpr h0)
    simp only [List.length_map, List.length_reverse]
    omega

theorem digitByte_eq_zero (upper : Bool) : ∀ d < 16, digitByte upper d = ch '0' → d = 0 := by
  cases upper <;> decide

/-- Only zero is written with a leading zero. -/
theorem head_numeral (upper : Bool) (v : ℕ) (hbase : 1 < base) (h16 : base ≤ 16) :
    (numeral base upper v).head? = some (ch '0') ↔ v = 0 := by
  unfold numeral
  split
  · next h0 => simp [h0]; cases upper <;> rfl
  · next h0 =>
    refine iff_of_false (fun hhead => ?_) h0
    have hne := Nat.digits_ne_nil_iff_ne_zero (b := base).mpr h0
    rw [List.head?_map, List.head?_reverse, List.getLast?_eq_some_getLast hne, Option.map_some, Option.some.injEq] at hhead
    have hlast := Nat.getLast_digit_ne_zero base h0
    have hlt : (Nat.digits base v).getLast hne < base := Nat.digits_lt_base hbase (List.getLast_mem hne)
    exact hlast (digitByte_eq_zero upper _ (by omega) hhead)

theorem itoaLoop_eq (room : ℕ) (n : ℤ) (ds : List UInt8) (hn : n.natAbs < 10^room) :
    itoaLoop room n ds = .ok ((Nat.digits 10 n.natAbs).reverse.map (digitByte false) ++ ds) := by
  induction room generalizing n ds with
  | zero =>
    have h0 : n = 0 := by omega
    rw [itoaLoop, if_pos h0, h0]
    rfl
  | succ room ih =>
    rw [itoaLoop]
    by_cases h0 : n = 0
    · rw [if_pos h0, h0]
      rfl
    · rw [if_neg h0]
      have hdigits := Nat.digits_def' (show 1 < 10 by decide) (show 0 < n.natAbs by omega)
      have hdiv : (n.tdiv 10).natAbs = n.natAbs / 10 := Int.natAbs_tdiv n 10
      have hmod : (n.tmod 10).natAbs = n.natAbs % 10 := Int.natAbs_tmod n 10
      rw [pow_succ] at hn
      rw [ih _ _ (by omega), hdiv, hmod, hdigits, decimalDigit_eq _ (Nat.mod_lt _ (by decide))]
      simp

theorem itoa_eq {n : ℤ} (hlo : -2^63 ≤ n) (hhi : n < 2^63) : itoa n = .ok (numeral 10 false n.natAbs) := by
  unfold itoa numeral
  by_cases h0 : n = 0
  · rw [if_pos h0, if_pos (by omega)]
    rfl
  · rw [if_neg h0, if_neg (by omega), itoaLoop_eq 32 n [] (by omega), List.append_nil]

theorem radixLoop_eq {bits : ℕ} {digit : ℕ → UInt8} (upper : Bool) (hbits : 0 < bits)
    (hdigit : ∀ d < 2^bits, digit d = digitByte upper d) (room n : ℕ) (ds : List UInt8) (hn : n < (2^bits)^room) :
    radixLoop bits digit room n ds = .ok ((Nat.digits (2^bits) n).reverse.map (digitByte upper) ++ ds) := by
  have hbase : 1 < 2^bits := Nat.one_lt_two_pow (by omega)
  induction room generalizing n ds with
  | zero =>
    have h0 : n = 0 := Nat.lt_one_iff.mp hn
    rw [radixLoop, if_pos h0, h0, Nat.digits_zero]
    rfl
  | succ room ih =>
    rw [radixLoop]
    by_cases h0 : n = 0
    · rw [if_pos h0, h0, Nat.digits_zero]
      rfl
    · rw [if_neg h0]
      have hdiv : n >>> bits < (2^bits)^room := by
        rw [Nat.shiftRight_eq_div_pow]
        apply Nat.div_lt_of_lt_mul
        rwa [← pow_succ']
      have hdigits := Nat.digits_def' hbase (show 0 < n by omega)
      rw [ih _ _ hdiv, Nat.shiftRight_eq_div_pow, Nat.and_two_pow_sub_one_eq_mod,
        hdigit _ (Nat.mod_lt _ (by omega)), hdigits]
      simp

theorem utohex_eq {n : ℕ} (upper : Bool) (hn : n < 2^64) : utohex n upper = .ok (numeral 16 upper n) := by
  unfold utohex numeral
  split
  · cases upper <;> rfl
  · rw [radixLoop_eq upper (by decide) (hexDigit_eq upper) 32 n [] (by norm_num; omega), List.append_nil]
    rfl

theorem utooct_eq {n : ℕ} (hn : n < 2^64) : utooct n = .ok (numeral 8 false n) := by
  unfold utooct numeral
  split
  · rfl
  · have hdigit : ∀ d < 2^3, ch '0' + UInt8.ofNat d = digitByte false d := fun d hd => decimalDigit_eq d (by omega)
    rw [radixLoop_eq false (by decide) hdigit 32 n [] (by norm_num; omega), List.append_nil]
    rfl

end Digits

/-! ### Written specs -/

/-- The text of a spec: flags, the digits of the width, and the digits of the precision behind a point. A width does
not begin with a zero, which would be a flag. -/
structure SpecText where
  flags : List UInt8
  width : List UInt8
  prec : Option (List UInt8)
  flags_ok : ∀ b ∈ flags, isFlag b = true
  width_ok : ∀ b ∈ width, Ascii.isDigit b = true
  width_head : width.head? ≠ some (ch '0')
  prec_ok : ∀ b ∈ prec.getD [], Ascii.isDigit b = true

namespace SpecText

theorem no_flags : ∀ b ∈ ([] : List UInt8), isFlag b = true := List.forall_mem_nil _

theorem no_digits : ∀ b ∈ ([] : List UInt8), Ascii.isDigit b = true := List.forall_mem_nil _

variable (f : SpecText)

def left : Bool := ch '-' ∈ f.flags
def zero : Bool := ch '0' ∈ f.flags
def space : Bool := ch ' ' ∈ f.flags
def plus : Bool := ch '+' ∈ f.flags
def hash : Bool := ch '#' ∈ f.flags

/-- The width that is written, zero without one. -/
def widthVal : ℕ := Strscan.natOf f.width

/-- The precision that is written, zero without one. -/
def precVal : ℕ := Strscan.natOf (f.prec.getD [])

def precBytes : List UInt8 :=
  match f.prec with
  | none => []
  | some ds => ch '.' :: ds

def bytes : List UInt8 := f.flags ++ (f.width ++ f.precBytes)

/-- The spec that the text is parsed to. -/
def spec : Spec := ⟨f.left, f.zero, f.space, f.plus, f.hash, parseUsize f.width, parseUsize (f.prec.getD [])⟩

end SpecText

section Parse
variable {p : UInt8 → Bool} {xs ys : List UInt8} {f : SpecText} {b : UInt8} {rest : List UInt8}

/-- A scan for `p` ends before the list. -/
def Stops (p : UInt8 → Bool) (ys : List UInt8) : Prop := ∀ b, ys.head? = some b → p b = false

theorem takeWhile_append_stops (hxs : ∀ b ∈ xs, p b = true) (hys : Stops p ys) : (xs ++ ys).takeWhile p = xs := by
  induction xs with
  | nil =>
    cases ys with
    | nil => rfl
    | cons y ys => simp [hys y rfl]
  | cons x xs ih =>
    rw [List.cons_append, List.takeWhile_cons, if_pos (hxs x (by simp)), ih fun b hb => hxs b (by simp [hb])]

theorem dropWhile_append_stops (hxs : ∀ b ∈ xs, p b = true) (hys : Stops p ys) : (xs ++ ys).dropWhile p = ys := by
  induction xs with
  | nil =>
    cases ys with
    | nil => rfl
    | cons y ys => simp [hys y rfl]
  | cons x xs ih =>
    rw [List.cons_append, List.dropWhile_cons, if_pos (hxs x (by simp)), ih fun b hb => hxs b (by simp [hb])]

/-- What may follow a spec: no flag, no digit and no point. -/
def Closes (ys : List UInt8) : Prop := Stops isFlag ys ∧ Stops Ascii.isDigit ys ∧ ys.head? ≠ some (ch '.')

theorem isFlag_of_isDigit : ∀ b, Ascii.isDigit b = true → b ≠ ch '0' → isFlag b = false := by decide +kernel

theorem stops_width (hys : Closes ys) : Stops isFlag (f.width ++ (f.precBytes ++ ys)) := by
  intro b hb
  cases hw : f.width with
  | nil =>
    rw [hw, List.nil_append] at hb
    unfold SpecText.precBytes at hb
    cases hp : f.prec with
    | none =>
      rw [hp] at hb
      exact hys.1 b hb
    | some ds =>
      rw [hp] at hb
      cases hb
      rfl
  | cons d ds =>
    rw [hw] at hb
    cases hb
    refine isFlag_of_isDigit b (f.width_ok b (by simp [hw])) fun h0 => f.width_head ?_
    rw [hw, h0]
    rfl

theorem stops_prec (hys : Closes ys) : Stops Ascii.isDigit (f.precBytes ++ ys) := by
  intro b hb
  unfold SpecText.precBytes at hb
  cases hp : f.prec with
  | none =>
    rw [hp] at hb
    exact hys.2.1 b hb
  | some ds =>
    rw [hp] at hb
    cases hb
    rfl

theorem foldl_setFlag (flags : List UInt8) (s : Spec) (hflags : ∀ b ∈ flags, isFlag b = true) :
    flags.foldl Spec.setFlag s = { s with
      left := s.left || ch '-' ∈ flags
      zero := s.zero || ch '0' ∈ flags
      space := s.space || ch ' ' ∈ flags
      plus := s.plus || ch '+' ∈ flags
      hash := s.hash || ch '#' ∈ flags } := by
  induction flags generalizing s with
  | nil => simp
  | cons b flags ih =>
    rw [List.foldl_cons, ih _ fun b' hb' => hflags b' (by simp [hb'])]
    have hb := hflags b (by simp)
    simp only [isFlag, Bool.or_eq_true, decide_eq_true_eq] at hb
    obtain (((rfl | rfl) | rfl) | rfl) | rfl := hb <;> simp [Spec.setFlag]

theorem parseSpecBytes_bytes (f : SpecText) : parseSpecBytes f.bytes = f.spec := by
  have hnil : Closes [] := ⟨nofun, nofun, nofun⟩
  have hwidth := stops_width (f := f) hnil
  have hprec := stops_prec (f := f) hnil
  rw [List.append_nil] at hwidth hprec
  unfold parseSpecBytes SpecText.bytes
  dsimp only
  rw [takeWhile_append_stops f.flags_ok hwidth, dropWhile_append_stops f.flags_ok hwidth,
    takeWhile_append_stops f.width_ok hprec, dropWhile_append_stops f.width_ok hprec, foldl_setFlag _ _ f.flags_ok]
  have hprecDigits := takeWhile_append_stops f.prec_ok hnil.2.1
  rw [List.append_nil] at hprecDigits
  unfold SpecText.precBytes SpecText.spec
  have hflags : ({ Spec.default with
      left := Spec.default.left || ch '-' ∈ f.flags
      zero := Spec.default.zero || ch '0' ∈ f.flags
      space := Spec.default.space || ch ' ' ∈ f.flags
      plus := Spec.default.plus || ch '+' ∈ f.flags
      hash := Spec.default.hash || ch '#' ∈ f.flags } : Spec) =
    ⟨f.left, f.zero, f.space, f.plus, f.hash, none, none⟩ := by
    simp [Spec.default, SpecText.left, SpecText.zero, SpecText.space, SpecText.plus, SpecText.hash]
  have hwidthSet : (if f.width = [] then ⟨f.left, f.zero, f.space, f.plus, f.hash, none, none⟩ else
      ⟨f.left, f.zero, f.space, f.plus, f.hash, parseUsize f.width, none⟩ : Spec) =
      ⟨f.left, f.zero, f.space, f.plus, f.hash, parseUsize f.width, none⟩ := by
    split
    · next h =>
      rw [h]
      rfl
    · rfl
  rw [hflags]
  dsimp only
  rw [hwidthSet]
  cases hp : f.prec with
  | none => rfl
  | some ds =>
    rw [hp] at hprecDigits
    dsimp only
    rw [if_pos (by rfl), List.drop_one, List.tail_cons]
    dsimp only [Option.getD_some] at hprecDigits ⊢
    rw [hprecDigits]

theorem scanSpec_bytes (f : SpecText) {ys : List UInt8} (hys : Closes ys) : scanSpec (f.bytes ++ ys) = (f.bytes, ys) := by
  have happend : f.bytes ++ ys = f.flags ++ (f.width ++ (f.precBytes ++ ys)) := by
    simp [SpecText.bytes, List.append_assoc]
  have hwidth := stops_width (f := f) hys
  have hprec := stops_prec (f := f) hys
  rw [happend]
  unfold scanSpec
  dsimp only
  rw [takeWhile_append_stops f.flags_ok hwidth, dropWhile_append_stops f.flags_ok hwidth,
    takeWhile_append_stops f.width_ok hprec, dropWhile_append_stops f.width_ok hprec]
  unfold SpecText.bytes SpecText.precBytes
  cases hp : f.prec with
  | none =>
    rw [List.nil_append, if_neg hys.2.2, List.append_nil]
  | some ds =>
    have hds : ∀ b ∈ ds, Ascii.isDigit b = true := by
      have := f.prec_ok
      rwa [hp] at this
    rw [List.cons_append, if_pos (by rfl), List.drop_one, List.tail_cons, takeWhile_append_stops hds hys.2.1,
      dropWhile_append_stops hds hys.2.1, List.append_assoc]

theorem byte_ne_point (c : IntConv) : c.byte ≠ ch '.' := by cases c <;> decide

theorem byte_ne_percent (c : IntConv) : c.byte ≠ ch '%' := by cases c <;> decide

theorem closes_conv (c : IntConv) (rest : List UInt8) : Closes (c.byte :: rest) := by
  refine ⟨?_, ?_, ?_⟩
  · rintro b ⟨⟩
    cases c <;> rfl
  · rintro b ⟨⟩
    cases c <;> rfl
  · exact fun hpoint => byte_ne_point c (Option.some.inj hpoint)

theorem percent_notMem (f : SpecText) : ch '%' ∉ f.bytes := by
  have hdigit : Ascii.isDigit (ch '%') = false := rfl
  rw [SpecText.bytes, List.mem_append, List.mem_append]
  rintro (hmem | hmem | hmem)
  · exact absurd (f.flags_ok _ hmem) (by decide)
  · exact Bool.false_ne_true (hdigit.symm.trans (f.width_ok _ hmem))
  · unfold SpecText.precBytes at hmem
    cases hp : f.prec with
    | none =>
      rw [hp] at hmem
      cases hmem
    | some ds =>
      rw [hp] at hmem
      obtain hpoint | hmem := List.mem_cons.mp hmem
      · exact absurd hpoint (by decide)
      · exact Bool.false_ne_true (hdigit.symm.trans (f.prec_ok _ (by rwa [hp])))

/-- A written spec with its conversion is compiled to one part. -/
theorem compile_byte (f : SpecText) (hc : Closes (b :: rest)) (hb : b ≠ ch '%') :
    compile (ch '%' :: (f.bytes ++ b :: rest)) = (compile rest).map (.conv f.spec b :: ·) := by
  have hscan := scanSpec_bytes f hc
  have hhead : (f.bytes ++ b :: rest).head? ≠ some (ch '%') := by
    intro hhead
    cases hbytes : f.bytes with
    | nil =>
      rw [hbytes] at hhead
      exact hb (Option.some.inj hhead)
    | cons c cs =>
      rw [hbytes, List.cons_append, List.head?_cons, Option.some.injEq] at hhead
      refine percent_notMem f ?_
      rw [hbytes, hhead]
      exact List.mem_cons_self
  unfold compile
  rw [compileFrom, if_pos rfl, if_neg hhead]
  split
  · next h =>
    rw [hscan] at h
    cases h
  · next c' rest' h =>
    rw [hscan] at h ⊢
    cases h
    dsimp only
    rw [parseSpecBytes_bytes]
    cases compileFrom [] rest <;> rfl

theorem compile_conv (f : SpecText) (c : IntConv) (rest : List UInt8) :
    compile (ch '%' :: (f.bytes ++ c.byte :: rest)) = (compile rest).map (.conv f.spec c.byte :: ·) :=
  compile_byte f (closes_conv c rest) (byte_ne_percent c)

end Parse

/-! ### Fields -/

namespace IntConv
variable (c : IntConv)

def base : IntConv → ℕ
  | d | i | u => 10
  | x | X => 16
  | o => 8

def upper : IntConv → Bool
  | X => true
  | _ => false

def signed : IntConv → Bool
  | d | i => true
  | _ => false

/-- The number that the digits have to write: the magnitude, or the word itself. -/
def value (n : BitVec 64) : ℕ := if c.signed then n.toInt.natAbs else n.toNat

end IntConv

section Fields
variable (c : IntConv) (f : SpecText) (n : BitVec 64)

/-- The sign that the value and the flags demand. -/
def signText : List UInt8 :=
  if c.signed then
    if n.toInt < 0 then [ch '-'] else if f.plus then [ch '+'] else if f.space then [ch ' '] else []
  else []

/-- The prefix that the flag `#` demands of a hexadecimal number other than zero. -/
def prefixText : List UInt8 :=
  if f.hash ∧ c.base = 16 ∧ n ≠ 0 then [ch '0', if c.upper then ch 'X' else ch 'x'] else []

/-- The parts of a field, with so many spaces before and after. -/
structure Layout (field : List UInt8) (before : ℕ) (digits : List UInt8) (after : ℕ) : Prop where
  field_eq : field = .replicate before (ch ' ') ++ signText c f n ++ prefixText c f n ++ digits ++
    .replicate after (ch ' ')
  denotes : Denotes c.base c.upper digits (c.value n)
  precision : f.precVal ≤ digits.length
  /-- The flag `#` demands a leading zero of an octal number. -/
  octal : f.hash → c = .o → digits.head? = some (ch '0')
  width : f.widthVal ≤ field.length
  left : f.left → before = 0
  right : ¬ f.left → after = 0
  /-- The flag `0` pads with zeros, unless the spec has a precision. -/
  zeros : f.zero → ¬ f.left → f.prec = none → before = 0

/-- A field for the value under the spec. -/
def IntField (field : List UInt8) : Prop := ∃ before digits after, Layout c f n field before digits after

/-- When the field that is written is one, behind `len` bytes of output. -/
structure Meets (len : ℕ) : Prop where
  unsigned : c = .u → 0 ≤ n.toInt ∨ n.toInt = -2^63
  precision : f.precVal ≤ digitCount c.base (c.value n)
  hex : f.hash → c.base = 16 → n = 0
  octal : f.hash → c = .o →
    n = 0 ∨ f.zero ∧ ¬ f.left ∧ f.prec.getD [] = [] ∧ digitCount c.base (c.value n) < f.widthVal
  room : len + max f.widthVal ((signText c f n).length + digitCount c.base (c.value n)) < 2^63

end Fields

/-! ### The field that is written -/

/-- The padding of a field: spaces before it, zeros behind the sign, and spaces after it. -/
def spacesBefore (s : Spec) (total : ℕ) : ℕ :=
  if s.left || s.zero && s.prec.isNone then 0 else s.width.getD 0 - total

def zerosBefore (s : Spec) (total : ℕ) : ℕ :=
  if !s.left && (s.zero && s.prec.isNone) then s.width.getD 0 - total else 0

def spacesAfter (s : Spec) (total : ℕ) : ℕ := if s.left then s.width.getD 0 - total else 0

def paddedField (s : Spec) (sign body : List UInt8) : List UInt8 :=
  let total := sign.length + body.length
  .replicate (spacesBefore s total) (ch ' ') ++ sign ++ (.replicate (zerosBefore s total) (ch '0') ++ body) ++
    .replicate (spacesAfter s total) (ch ' ')

theorem length_paddedField (s : Spec) (sign body : List UInt8) :
    (paddedField s sign body).length = max (s.width.getD 0) (sign.length + body.length) := by
  unfold paddedField spacesBefore zerosBefore spacesAfter
  cases s.left <;> cases s.zero <;> cases s.prec <;> simp <;> omega

theorem pushPadded_eq (out : List UInt8) (s : Spec) (body : List UInt8) (sign : UInt8) :
    pushPadded out s body sign false = inCapacity (out ++ paddedField s (signBytes sign) body) := by
  unfold pushPadded paddedField spacesBefore zerosBefore spacesAfter
  dsimp only
  cases hl : s.left with
  | true => simp
  | false =>
    cases hz : s.zero && s.prec.isNone with
    | false =>
      have hcond : (s.zero && !false && (false || s.prec.isNone) &&
          decide ((signBytes sign).length + body.length < s.width.getD 0)) = false := by
        rw [Bool.not_false, Bool.and_true, Bool.false_or, hz, Bool.false_and]
      rw [hcond]
      simp
    | true =>
      have hz' : s.zero = true ∧ s.prec.isNone = true := by simpa using hz
      by_cases hlt : (signBytes sign).length + body.length < s.width.getD 0
      · simp [hz', hlt]
      · have h0 : s.width.getD 0 - ((signBytes sign).length + body.length) = 0 := by omega
        simp [hlt, h0]

section Written
variable (c : IntConv) (f : SpecText) (n : BitVec 64)

/-- The number whose digits are written. -/
def printed : ℕ :=
  match c with
  | .d | .i | .u => n.toInt.natAbs
  | .x | .X | .o => n.toNat

/-- The field that a conversion writes. -/
def writtenField : List UInt8 := paddedField f.spec (signText c f n) (numeral c.base c.upper (printed c n))

theorem signBytes_intSign : signBytes (intSign f.spec n.toInt) =
    if n.toInt < 0 then [ch '-'] else if f.plus then [ch '+'] else if f.space then [ch ' '] else [] := by
  unfold intSign SpecText.spec
  dsimp only
  split_ifs <;> rfl

theorem pushInt_eq (out : List UInt8) : pushInt c f.spec out n = inCapacity (out ++ writtenField c f n) := by
  have hlo : -2^63 ≤ n.toInt := by have := BitVec.le_toInt n; omega
  have hhi : n.toInt < 2^63 := by have := BitVec.toInt_lt (x := n); omega
  have hitoa := itoa_eq hlo hhi
  unfold pushInt writtenField signText printed
  cases c with
  | d | i =>
    dsimp only
    rw [hitoa, ok_bind, pushPadded_eq, signBytes_intSign]
    rfl
  | u =>
    dsimp only
    rw [hitoa, ok_bind, pushPadded_eq]
    rfl
  | x =>
    dsimp only
    rw [utohex_eq false n.isLt, ok_bind, pushPadded_eq]
    rfl
  | X =>
    dsimp only
    rw [utohex_eq true n.isLt, ok_bind, pushPadded_eq]
    rfl
  | o =>
    dsimp only
    rw [utooct_eq n.isLt, ok_bind, pushPadded_eq]
    rfl

/-- The word of `%u` is written as a signed one. -/
theorem printed_eq_value_iff : printed c n = c.value n ↔ (c = .u → 0 ≤ n.toInt ∨ n.toInt = -2^63) := by
  have hcond := BitVec.toInt_eq_toNat_cond n
  have hlt := n.isLt
  cases c with
  | d | i | x | X | o => exact iff_of_true rfl nofun
  | u =>
    change n.toInt.natAbs = n.toNat ↔ (IntConv.u = .u → 0 ≤ n.toInt ∨ n.toInt = -2^63)
    simp only [forall_const]
    split at hcond <;> omega

theorem base_bounds : 1 < c.base ∧ c.base ≤ 16 := by cases c <;> decide

theorem width_eq (hw : f.widthVal < 2^63) : f.spec.width.getD 0 = f.widthVal := by
  unfold SpecText.spec parseUsize SpecText.widthVal at *
  dsimp only
  split_ifs with h0 hlt
  · rw [h0]
    rfl
  · rfl
  · omega

theorem prec_eq_none (hp : f.precVal < 2^64) : f.spec.prec.isNone = true ↔ f.prec.getD [] = [] := by
  unfold SpecText.spec parseUsize SpecText.precVal at *
  dsimp only
  split_ifs with h0
  · exact iff_of_true rfl h0
  · exact iff_of_false Bool.false_ne_true h0

/-! ### The digits of a field -/

def isDigitByte (b : UInt8) : Bool := b ∈ digitBytes true ++ digitBytes false

theorem isDigitByte_digitByte (upper : Bool) : ∀ d < 16, isDigitByte (digitByte upper d) = true := by
  cases upper <;> decide

variable {c f n} in
theorem Denotes.filter {ds : List UInt8} {v : ℕ} (h : Denotes c.base c.upper ds v) : ds.filter isDigitByte = ds := by
  obtain ⟨vals, -, hlt, rfl, -⟩ := h
  rw [List.filter_eq_self]
  intro b hb
  obtain ⟨d, hd, rfl⟩ := List.mem_map.mp hb
  exact isDigitByte_digitByte _ d ((hlt d hd).trans_le (base_bounds c).2)

theorem filter_signText : (signText c f n).filter isDigitByte = [] := by
  unfold signText
  split_ifs <;> rfl

theorem filter_spaces (k : ℕ) : (List.replicate k (ch ' ')).filter isDigitByte = [] := by
  rw [List.filter_replicate]
  rfl

/-- The digits that are written, with the zeros of the padding. -/
def writtenDigits : List UInt8 :=
  .replicate (zerosBefore f.spec ((signText c f n).length + (numeral c.base c.upper (printed c n)).length)) (ch '0') ++
    numeral c.base c.upper (printed c n)

theorem digitByte_zero (upper : Bool) : digitByte upper 0 = ch '0' := by cases upper <;> rfl

theorem denotes_writtenDigits : Denotes c.base c.upper (writtenDigits c f n) (printed c n) := by
  have hnumeral := denotes_numeral c.upper (printed c n) (base_bounds c).1
  unfold writtenDigits
  rw [← digitByte_zero c.upper]
  exact hnumeral.zeros _ (by have := (base_bounds c).1; omega)

theorem filter_writtenField : (writtenField c f n).filter isDigitByte = writtenDigits c f n := by
  unfold writtenField paddedField
  dsimp only
  rw [List.filter_append, List.filter_append, List.filter_append, filter_spaces, filter_spaces, filter_signText,
    ← writtenDigits, (denotes_writtenDigits c f n).filter, List.nil_append, List.nil_append, List.append_nil]

theorem mem_writtenField {b : UInt8} (hb : b ∈ writtenField c f n) (hd : isDigitByte b = false) :
    b ∈ [ch ' ', ch '-', ch '+'] := by
  unfold writtenField paddedField at hb
  dsimp only at hb
  rw [← writtenDigits] at hb
  have hdigit : b ∉ writtenDigits c f n := by
    intro hmem
    rw [← (denotes_writtenDigits c f n).filter, List.mem_filter, hd] at hmem
    exact Bool.false_ne_true hmem.2
  have hspace (k : ℕ) (hmem : b ∈ List.replicate k (ch ' ')) : b ∈ [ch ' ', ch '-', ch '+'] := by
    rw [List.eq_of_mem_replicate hmem]
    exact List.mem_cons_self
  have hsign (hmem : b ∈ signText c f n) : b ∈ [ch ' ', ch '-', ch '+'] := by
    unfold signText at hmem
    split_ifs at hmem <;> simp_all
  rw [List.mem_append, List.mem_append, List.mem_append] at hb
  obtain ((hmem | hmem) | hmem) | hmem := hb
  · exact hspace _ hmem
  · exact hsign hmem
  · exact absurd hmem hdigit
  · exact hspace _ hmem

/-- The field that is written has no prefix, so one that is demanded is missing. -/
theorem Layout.hex {before after : ℕ} {digits : List UInt8}
    (h : Layout c f n (writtenField c f n) before digits after) : prefixText c f n = [] := by
  by_contra hne
  have hx : (if c.upper then ch 'X' else ch 'x') ∈ writtenField c f n := by
    have hmem : (if c.upper then ch 'X' else ch 'x') ∈ prefixText c f n := by
      unfold prefixText at hne ⊢
      split at hne
      · next hp =>
        rw [if_pos hp]
        exact List.mem_cons_of_mem _ List.mem_cons_self
      · exact absurd rfl hne
    rw [h.field_eq]
    simp only [List.mem_append]
    exact .inl (.inl (.inr hmem))
  cases hu : c.upper with
  | true =>
    rw [hu] at hx
    exact absurd (mem_writtenField c f n hx (by decide)) (by decide)
  | false =>
    rw [hu] at hx
    exact absurd (mem_writtenField c f n hx (by decide)) (by decide)

theorem Layout.digits_eq {before after : ℕ} {digits : List UInt8}
    (h : Layout c f n (writtenField c f n) before digits after) : digits = writtenDigits c f n := by
  rw [← filter_writtenField]
  conv_rhs => rw [h.field_eq]
  rw [h.hex, List.append_nil, List.filter_append, List.filter_append, List.filter_append, filter_spaces, filter_spaces,
    filter_signText, h.denotes.filter, List.nil_append, List.nil_append, List.append_nil]

/-! ### When the field is right -/

theorem zerosBefore_pos {s : Spec} {total : ℕ} :
    0 < zerosBefore s total ↔ s.left = false ∧ s.zero = true ∧ s.prec.isNone = true ∧ total < s.width.getD 0 := by
  unfold zerosBefore
  cases s.left <;> cases s.zero <;> cases s.prec.isNone <;> simp

theorem length_writtenField : (writtenField c f n).length =
    max (f.spec.width.getD 0) ((signText c f n).length + digitCount c.base (printed c n)) := by
  rw [writtenField, length_paddedField, length_numeral]

/-- The leading digit that is written. -/
theorem head_writtenDigits : (writtenDigits c f n).head? = some (ch '0') ↔
    0 < zerosBefore f.spec ((signText c f n).length + digitCount c.base (printed c n)) ∨ printed c n = 0 := by
  unfold writtenDigits
  rw [length_numeral]
  cases zerosBefore f.spec ((signText c f n).length + digitCount c.base (printed c n)) with
  | zero =>
    rw [List.replicate_zero, List.nil_append, head_numeral _ _ (base_bounds c).1 (base_bounds c).2]
    simp
  | succ k => exact iff_of_true rfl (.inl (Nat.succ_pos k))

/-- A field that is right was written under the conditions. -/
theorem Layout.meets {before after len : ℕ} {digits : List UInt8}
    (h : Layout c f n (writtenField c f n) before digits after) (hlen : len + (writtenField c f n).length < 2^63) :
    Meets c f n len := by
  have hdigits := h.digits_eq
  have hdenotes := h.denotes
  rw [hdigits] at hdenotes
  have hvalue : printed c n = c.value n := (denotes_writtenDigits c f n).unique (base_bounds c).2 hdenotes
  have hcount : digitCount c.base (printed c n) = digitCount c.base (c.value n) := by rw [hvalue]
  have hwidth : f.spec.width.getD 0 = f.widthVal := width_eq f (by have := h.width; omega)
  have hfield := length_writtenField c f n
  have hprec : f.precVal ≤ (writtenDigits c f n).length := hdigits ▸ h.precision
  have hlong : (writtenDigits c f n).length ≤ (writtenField c f n).length := by
    rw [← filter_writtenField]
    exact List.length_filter_le _ _
  have hnone := prec_eq_none f (by omega)
  refine ⟨(printed_eq_value_iff c n).mp hvalue, ?_, fun hhash hbase => ?_, fun hhash ho => ?_, ?_⟩
  · by_cases hz : 0 < zerosBefore f.spec ((signText c f n).length + digitCount c.base (printed c n))
    · have hempty := hnone.mp (zerosBefore_pos.mp hz).2.2.1
      have h0 : f.precVal = 0 := by
        rw [SpecText.precVal, hempty]
        rfl
      omega
    · rw [writtenDigits, length_numeral, show zerosBefore f.spec _ = 0 by omega, List.replicate_zero, List.nil_append,
        length_numeral, hvalue] at hprec
      exact hprec
  · by_contra hn
    have := h.hex
    rw [prefixText, if_pos ⟨hhash, hbase, hn⟩] at this
    cases this
  · have hhead := h.octal hhash ho
    rw [hdigits, head_writtenDigits] at hhead
    obtain hz | h0 := hhead
    · obtain ⟨hl, hz, hp, hlt⟩ := zerosBefore_pos.mp hz
      refine .inr ⟨hz, ?_, hnone.mp hp, ?_⟩
      · exact fun hl' => Bool.false_ne_true (hl.symm.trans hl')
      · omega
    · rw [ho] at h0
      exact .inl (BitVec.eq_of_toNat_eq h0)
  · omega

/-- Under the conditions the field is right. -/
theorem Meets.layout {len : ℕ} (h : Meets c f n len) :
    len + (writtenField c f n).length < 2^63 ∧ IntField c f n (writtenField c f n) := by
  have hvalue := (printed_eq_value_iff c n).mpr h.unsigned
  have hroom := h.room
  have hwidth := width_eq f (by omega)
  have hfield := length_writtenField c f n
  rw [hwidth, hvalue] at hfield
  have hcount : digitCount c.base (printed c n) ≤ (writtenDigits c f n).length := by
    rw [writtenDigits, List.length_append, length_numeral]
    omega
  have hbare : prefixText c f n = [] := by
    unfold prefixText
    exact if_neg fun hp => hp.2.2 (h.hex hp.1 hp.2.1)
  obtain ⟨total, htotal⟩ : ∃ total, total = (signText c f n).length + (numeral c.base c.upper (printed c n)).length :=
    ⟨_, rfl⟩
  refine ⟨by omega, spacesBefore f.spec total, writtenDigits c f n, spacesAfter f.spec total, ?_⟩
  exact {
    field_eq := by
      rw [hbare, List.append_nil, htotal]
      rfl
    denotes := hvalue ▸ denotes_writtenDigits c f n
    precision := by
      have := h.precision
      rw [← hvalue] at this
      omega
    octal := by
      intro hhash ho
      rw [head_writtenDigits]
      obtain h0 | ⟨hz, hl, hp, hlt⟩ := h.octal hhash ho
      · right
        rw [h0, ho]
        rfl
      · left
        have hsign : signText c f n = [] := by
          rw [ho]
          rfl
        rw [zerosBefore_pos, hwidth, hvalue, hsign]
        have hnone := prec_eq_none f (by rw [SpecText.precVal, hp]; decide)
        refine ⟨?_, hz, hnone.mpr hp, ?_⟩
        · exact Bool.eq_false_iff.mpr hl
        · rw [List.length_nil]
          omega
    width := by omega
    left := fun hl => by
      have hl' : f.spec.left = true := hl
      unfold spacesBefore
      rw [hl']
      rfl
    right := fun hl => if_neg hl
    zeros := fun hz _ hp => by
      have hz' : f.spec.zero = true := hz
      have hp' : f.spec.prec = none := by
        unfold SpecText.spec
        rw [hp]
        rfl
      unfold spacesBefore
      rw [hz', hp']
      simp }

/-- A conversion appends a right field exactly under the conditions. -/
theorem pushInt_iff (out : List UInt8) :
    (∃ field, pushInt c f.spec out n = .ok (out ++ field) ∧ IntField c f n field) ↔ Meets c f n out.length := by
  rw [pushInt_eq]
  unfold inCapacity
  rw [List.length_append]
  constructor
  · rintro ⟨field, heq, before, digits, after, hl⟩
    split at heq
    · next hlen =>
      cases List.append_cancel_left (Except.ok.inj heq)
      exact Layout.meets c f n hl hlen
    · cases heq
  · intro h
    obtain ⟨hlen, hfield⟩ := Meets.layout c f n h
    exact ⟨writtenField c f n, if_pos hlen, hfield⟩

end Written

/-! ### The law -/

/-- A written spec is compiled to one part; a conversion of it takes one argument and appends its field for the word
that the number is converted to; and for every word the field is right exactly under the conditions. -/
theorem integer_law (c : IntConv) (f : SpecText) :
    (∀ rest, compile (ch '%' :: (f.bytes ++ c.byte :: rest)) = (compile rest).map (.conv f.spec c.byte :: ·)) ∧
    (∀ host args parts out ai, formatFrom host args (.conv f.spec c.byte :: parts) out ai =
      nextNum host args ai >>= fun r => orPanic (pushInt c f.spec out r.1.asInt64) >>= fun out =>
        formatFrom host args parts out r.2) ∧
    ∀ n out, (∃ field, pushInt c f.spec out n = .ok (out ++ field) ∧ IntField c f n field) ↔
      Meets c f n out.length := by
  refine ⟨compile_conv f c, fun host args parts out ai => ?_, pushInt_iff c f⟩
  have hbyte : IntConv.ofByte c.byte = some c := by cases c <;> rfl
  rw [formatFrom, formatConv, hbyte]
  dsimp only
  cases nextNum host args ai with
  | error e => rfl
  | ok r =>
    rw [ok_bind, ok_bind]
    cases orPanic (pushInt c f.spec out r.1.asInt64) <;> rfl

/-- A spec without flags, width and precision. -/
def SpecText.plain : SpecText := ⟨[], [], none, no_flags, no_digits, by simp, no_digits⟩

/-- `%u` writes the magnitude of a negative number. -/
theorem unsigned_magnitude : ¬ ∀ (c : IntConv) (f : SpecText) (n : BitVec 64),
    ∃ field, pushInt c f.spec [] n = .ok ([] ++ field) ∧ IntField c f n field := by
  intro hall
  have := ((pushInt_iff .u .plain (-1) []).mp (hall .u .plain (-1))).unsigned rfl
  revert this
  decide

end LuajitRs.Strfmt
