import LuajitRs.Util.Strscan
import Mathlib.Data.List.TakeWhile

/-! What the number scanner accepts. The classes of characters that it tells apart are settled once, over all bytes;
then the characters that a decimal number is made of, the suffix of a text that ends in one, and the texts on which
`scanNumber` and `scanNumberFull` come to the same loop. -/
namespace LuajitRs
namespace Strscan

/-- The characters of a decimal number. -/
def isDecChar (b : UInt8) : Bool := Ascii.isDigit b || b = ch '.' || isExpMark b || isSign b

/-- The letters of `infinity` and `nan`. -/
def isWordChar (b : UInt8) : Bool :=
  [ch 'i', ch 'n', ch 'f', ch 't', ch 'y', ch 'a'].contains (Ascii.toLowercase b)

/-- No letter of a suffix. -/
abbrev IsBare (b : UInt8) : Prop := isLowL b = false ∧ isLowU b = false ∧ isLowI b = false

private theorem decimalChars : ∀ b : UInt8,
    (Ascii.isDigit b = true → b ≠ ch '_' ∧ isSign b = false ∧ Ascii.toLowercase b ≠ ch 'i' ∧
      Ascii.toLowercase b ≠ ch 'n') ∧
    (isSign b = true → Ascii.isDigit b = false ∧ b ≠ ch '.' ∧ isExpMark b = false ∧ b ≠ ch '_' ∧ IsBare b) ∧
    (isExpMark b = true → Ascii.isAlphanumeric b = true ∧ b ≠ ch '_' ∧ (b ||| 0x20) = ch 'e') ∧
    (isDecChar b = true → b ≠ ch 'b' ∧ b ≠ ch 'B' ∧ b ≠ ch 'x' ∧ b ≠ ch 'X' ∧ b ≠ ch '_' ∧
      isLowL b = false ∧ isLowU b = false ∧ isLowI b = false ∧ Ascii.isWhitespace b = false) := by
  decide +kernel

private theorem markChars : ∀ b : UInt8,
    ((hexValue b).isSome = true → b ≠ ch '_' ∧ IsBare b) ∧
    (isHexExpMark b = true → b ≠ ch '_' ∧ IsBare b) ∧
    (isBinChar b = true → isLowL b = false ∧ isLowU b = false ∧ isLowI b = false ∧ b ≠ ch '.') ∧
    ((isLowL b || isLowU b || isLowI b) = true →
      b ≠ ch '_' ∧ isDecChar b = false ∧ Ascii.isWhitespace b = false) ∧
    ((b ||| 0x20) = ch 'x' ∨ (b ||| 0x20) = ch 'b' → b ≠ ch '_' ∧ isDecChar b = false ∧
      isWordChar b = false ∧ Ascii.isWhitespace b = false ∧ IsBare b) ∧
    ((b ||| 0x20) = ch 'x' → hexValue b = none ∧ b ≠ ch '.' ∧ isHexExpMark b = false) ∧
    (isLowL b = true → isLowI b = false) := by
  decide +kernel

section
variable {b : UInt8}

theorem digit_bare (h : Ascii.isDigit b = true) : b ≠ ch '_' ∧ isSign b = false :=
  ⟨((decimalChars b).1 h).1, ((decimalChars b).1 h).2.1⟩

theorem digit_word (h : Ascii.isDigit b = true) :
    Ascii.toLowercase b ≠ ch 'i' ∧ Ascii.toLowercase b ≠ ch 'n' := ((decimalChars b).1 h).2.2

theorem sign_bare (h : isSign b = true) :
    Ascii.isDigit b = false ∧ b ≠ ch '.' ∧ isExpMark b = false ∧ b ≠ ch '_' ∧ IsBare b :=
  (decimalChars b).2.1 h

theorem expMark_bare (h : isExpMark b = true) :
    Ascii.isAlphanumeric b = true ∧ b ≠ ch '_' ∧ (b ||| 0x20) = ch 'e' := (decimalChars b).2.2.1 h

theorem decChar_bare (h : isDecChar b = true) :
    b ≠ ch 'b' ∧ b ≠ ch 'B' ∧ b ≠ ch 'x' ∧ b ≠ ch 'X' ∧ b ≠ ch '_' ∧ isLowL b = false ∧ isLowU b = false ∧
      isLowI b = false ∧ Ascii.isWhitespace b = false := (decimalChars b).2.2.2 h

theorem hexDigit_bare (h : (hexValue b).isSome = true) : b ≠ ch '_' ∧ IsBare b := (markChars b).1 h

theorem hexMark_bare (h : isHexExpMark b = true) : b ≠ ch '_' ∧ IsBare b := (markChars b).2.1 h

theorem binChar_bare (h : isBinChar b = true) :
    isLowL b = false ∧ isLowU b = false ∧ isLowI b = false ∧ b ≠ ch '.' := (markChars b).2.2.1 h

/-- The letters of a suffix are no underscores and stand in no number without one. -/
theorem suffixChar_ne (h : (isLowL b || isLowU b || isLowI b) = true) :
    b ≠ ch '_' ∧ isDecChar b = false ∧ Ascii.isWhitespace b = false := (markChars b).2.2.2.1 h

/-- The letters of a prefix, which no decimal number has. -/
def IsMark (x : UInt8) : Prop := x = ch 'x' ∨ x = ch 'b'

theorem mark_ne {x : UInt8} (hx : IsMark x) (hb : (b ||| 0x20) = x) :
    b ≠ ch '_' ∧ isDecChar b = false ∧ isWordChar b = false ∧ Ascii.isWhitespace b = false ∧ IsBare b :=
  (markChars b).2.2.2.2.1 (hb ▸ hx)

theorem hexMark_ne (h : (b ||| 0x20) = ch 'x') :
    hexValue b = none ∧ b ≠ ch '.' ∧ isHexExpMark b = false := (markChars b).2.2.2.2.2.1 h

theorem lowL_ne (h : isLowL b = true) : isLowI b = false := (markChars b).2.2.2.2.2.2 h

end

end Strscan
end LuajitRs

namespace LuajitRs
namespace Strscan

theorem isDecChar_of_digit {b : UInt8} (h : Ascii.isDigit b = true) : isDecChar b = true := by
  simp [isDecChar, h]

/-- The text without its underscores. -/
def strip (s : List UInt8) : List UInt8 := s.filter (· ≠ ch '_')

@[simp] theorem strip_nil : strip [] = [] := rfl

theorem strip_cons (b : UInt8) (s : List UInt8) :
    strip (b :: s) = if b = ch '_' then strip s else b :: strip s := by
  simp only [strip, List.filter_cons, decide_not, Bool.not_eq_true', decide_eq_false_iff_not, ite_not]

theorem strip_append (s t : List UInt8) : strip (s ++ t) = strip s ++ strip t := List.filter_append ..

theorem strip_of_not_mem {s : List UInt8} (h : ch '_' ∉ s) : strip s = s :=
  List.filter_eq_self.mpr fun b hb => by simpa using fun he : b = ch '_' => h (he ▸ hb)

theorem mem_of_mem_strip {b : UInt8} {s : List UInt8} (h : b ∈ strip s) : b ∈ s := (List.mem_filter.mp h).1

/-! ### The loop over a decimal number -/

@[simp] theorem signed_sign {c : UInt8} {s : List UInt8} (h : isSign c = true) : (signed (c :: s)).2 = s := by
  simp [signed, h]

theorem signed_of_head {s : List UInt8} (h : s.head?.any isSign = false) : signed s = (false, s) := by
  cases s with
  | nil => rfl
  | cons c s => rw [signed, if_neg (by simpa using h)]

theorem decLoop_cons (sep : Bool) (f : DecFlags) (c : UInt8) (s : List UInt8) :
    decLoop sep f (c :: s) =
      if Ascii.isDigit c then
        decLoop sep (if f.exp then { f with expDigits := true } else { f with digit := true }) s
      else if c = ch '.' then if f.dot ∨ f.exp then none else decLoop sep { f with dot := true } s
      else if isExpMark c then
        if f.exp ∨ ¬f.digit then none else decLoop sep { f with exp := true } (signed s).2
      else if sep ∧ c = ch '_' then decLoop sep f s
      else none := by
  rw [decLoop.eq_def]
  cases s with
  | nil => rfl
  | cons d t =>
    simp only [signed]
    split_ifs <;> rfl

theorem decTokenLoop_cons (any exp : Bool) (c : UInt8) (s : List UInt8) :
    decTokenLoop any exp (c :: s) =
      if Ascii.isDigit c then ((decTokenLoop true exp s).1, (decTokenLoop true exp s).2 + 1)
      else if c = ch '.' then
        if exp then (any, 0) else ((decTokenLoop true exp s).1, (decTokenLoop true exp s).2 + 1)
      else if isExpMark c then
        if exp then (any, 0)
        else ((decTokenLoop any true (signed s).2).1,
          (decTokenLoop any true (signed s).2).2 + (s.length - (signed s).2.length) + 1)
      else (any, 0) := by
  rw [decTokenLoop.eq_def]
  cases s with
  | nil => rfl
  | cons d t =>
    simp only [signed]
    split_ifs <;> simp

attribute [elab_as_elim] decLoop.induct_unfolding

section DecLoop
variable {sep : Bool} {f g : DecFlags} {s : List UInt8}

theorem decLoop_chars (h : decLoop sep f s = some g) :
    ∀ b ∈ s, isDecChar b = true ∨ (sep = true ∧ b = ch '_') := by
  fun_induction decLoop sep f s with
  | case1 f => simp
  | case2 f c s hc ih => exact List.forall_mem_cons.mpr ⟨.inl (by simp [isDecChar, hc]), ih h⟩
  | case4 f s _ hf ih => exact List.forall_mem_cons.mpr ⟨.inl (by decide), ih h⟩
  | case6 f c _ _ hc hf d t hs ih =>
    refine List.forall_mem_cons.mpr ⟨.inl (by simp [isDecChar, hc]), ?_⟩
    exact List.forall_mem_cons.mpr ⟨.inl (by simp [isDecChar, hs]), ih h⟩
  | case7 f c _ _ hc hf d t hs ih => exact List.forall_mem_cons.mpr ⟨.inl (by simp [isDecChar, hc]), ih h⟩
  | case8 f c _ _ hc hf => exact List.forall_mem_singleton.mpr (.inl (by simp [isDecChar, hc]))
  | case9 f c s _ _ _ hs ih => exact List.forall_mem_cons.mpr ⟨.inr hs, ih h⟩
  | case3 => cases h
  | case5 => cases h
  | case10 => cases h

/-- A sign stands behind an exponent mark only. -/
theorem decLoop_head (h : decLoop sep f s = some g) : s.head?.any isSign = false := by
  cases s with
  | nil => rfl
  | cons c s =>
    rw [List.head?_cons, Option.any_some, Bool.eq_false_iff]
    intro hc
    obtain ⟨h1, h2, h3, h4, -⟩ := sign_bare hc
    rw [decLoop_cons, if_neg (by simp [h1]), if_neg h2, if_neg (by simp [h3]), if_neg (fun hs => h4 hs.2)] at h
    cases h

/-- On a text without underscores both loops do the same. -/
theorem decLoop_sep (h : ch '_' ∉ s) : decLoop true f s = decLoop false f s := by
  fun_induction decLoop true f s with
  | case1 f => rfl
  | case2 f c s hc ih => rw [decLoop_cons false, if_pos hc, ih (fun hm => h (.tail _ hm))]
  | case3 f s hf hd => rw [decLoop_cons false, if_neg hd, if_pos rfl, if_pos hf]
  | case4 f s hf hd ih => rw [decLoop_cons false, if_neg hd, if_pos rfl, if_neg hf, ih (fun hm => h (.tail _ hm))]
  | case5 f c s hd hp hc hf => rw [decLoop_cons false, if_neg hd, if_neg hp, if_pos hc, if_pos hf]
  | case6 f c hd hp hc hf d t hs ih =>
    rw [decLoop_cons false, if_neg hd, if_neg hp, if_pos hc, if_neg hf, signed_sign hs,
      ih (fun hm => h (.tail _ (.tail _ hm)))]
  | case7 f c hd hp hc hf d t hs ih =>
    rw [decLoop_cons false, if_neg hd, if_neg hp, if_pos hc, if_neg hf, signed_of_head (by simpa using hs),
      ih (fun hm => h (.tail _ hm))]
  | case8 f c hd hp hc hf =>
    rw [decLoop_cons false, if_neg hd, if_neg hp, if_pos hc, if_neg hf]
    rfl
  | case9 f c s hd hp hc hs ih => exact absurd (hs.2 ▸ .head _) h
  | case10 f c s hd hp hc hs => rw [decLoop_cons false, if_neg hd, if_neg hp, if_neg hc, if_neg (by simp)]

/-- What is accepted with underscores is accepted without them. -/
theorem decLoop_strip (h : decLoop true f s = some g) : decLoop true f (strip s) = some g := by
  have hdigit : ∀ b : UInt8, Ascii.isDigit b → b ≠ ch '_' := fun b h => (digit_bare h).1
  have hexp : ∀ b : UInt8, isExpMark b → b ≠ ch '_' := fun b h => (expMark_bare h).2.1
  have hsign : ∀ b : UInt8, isSign b → b ≠ ch '_' := fun b h => (sign_bare h).2.2.2.1
  fun_induction decLoop true f s with
  | case1 f => exact h
  | case2 f c s hc ih => rw [strip_cons, if_neg (hdigit c hc), decLoop_cons, if_pos hc, ih h]
  | case4 f s hf hd ih =>
    have hdot : ch '.' ≠ ch '_' := by decide
    rw [strip_cons, if_neg hdot, decLoop_cons, if_neg hd, if_pos rfl, if_neg hf, ih h]
  | case6 f c hd hp hc hf d t hs ih =>
    rw [strip_cons, if_neg (hexp c hc), strip_cons, if_neg (hsign d hs), decLoop_cons, if_neg hd, if_neg hp,
      if_pos hc, if_neg hf, signed_sign hs, ih h]
  | case7 f c hd hp hc hf d t hs ih =>
    have ih := ih h
    rw [strip_cons, if_neg (hexp c hc), decLoop_cons, if_neg hd, if_neg hp, if_pos hc, if_neg hf,
      signed_of_head (decLoop_head ih), ih]
  | case8 f c hd hp hc hf =>
    rw [strip_cons, if_neg (hexp c hc), decLoop_cons, if_neg hd, if_neg hp, if_pos hc, if_neg hf]
    exact h
  | case9 f c s hd hp hc hs ih => rw [strip_cons, if_pos hs.2, ih h]
  | case3 => cases h
  | case5 => cases h
  | case10 => cases h

/-- `dec_token_len` passes the whole of an accepted text. -/
theorem decTokenLoop_of_decLoop (h : decLoop false f s = some g) {seen : Bool}
    (hseen : f.digit = true ∨ f.dot = true → seen = true) :
    (decTokenLoop seen f.exp s).2 = s.length ∧
      (g.digit = true ∨ g.dot = true → (decTokenLoop seen f.exp s).1 = true) := by
  fun_induction decLoop false f s generalizing seen with
  | case1 f =>
    cases h
    exact ⟨rfl, hseen⟩
  | case2 f c s hc ih =>
    obtain ⟨h2, h1⟩ := ih h fun _ => (rfl : true = true)
    have he : (if f.exp = true then { f with expDigits := true } else { f with digit := true }).exp = f.exp := by
      split <;> rfl
    rw [he] at h1 h2
    rw [decTokenLoop_cons, if_pos hc]
    exact ⟨by simp [h2], h1⟩
  | case4 f s hf hd ih =>
    obtain ⟨h2, h1⟩ := ih h fun _ => (rfl : true = true)
    rw [decTokenLoop_cons, if_neg hd, if_pos rfl, if_neg (fun he => hf (Or.inr he))]
    exact ⟨by simp [h2], h1⟩
  | case6 f c hd hp hc hf d t hs ih =>
    obtain ⟨h2, h1⟩ := ih h hseen
    rw [decTokenLoop_cons, if_neg hd, if_neg hp, if_pos hc, if_neg (fun he => hf (.inl he)), signed_sign hs]
    exact ⟨by simp [h2], h1⟩
  | case7 f c hd hp hc hf d t hs ih =>
    obtain ⟨h2, h1⟩ := ih h hseen
    rw [decTokenLoop_cons, if_neg hd, if_neg hp, if_pos hc, if_neg (fun he => hf (.inl he)),
      signed_of_head (by simpa using hs)]
    exact ⟨by simp [h2], h1⟩
  | case8 f c hd hp hc hf =>
    cases h
    rw [decTokenLoop_cons, if_neg hd, if_neg hp, if_pos hc, if_neg (fun he => hf (.inl he))]
    exact ⟨rfl, hseen⟩
  | case9 f c s hd hp hc hs ih => exact absurd hs.1 (by simp)
  | case3 => cases h
  | case5 => cases h
  | case10 => cases h

theorem decLoop_mono (h : decLoop sep f s = some g) :
    (f.digit = true → g.digit = true) ∧ (f.dot = true → g.dot = true) ∧ (f.exp = true → g.exp = true) := by
  fun_induction decLoop sep f s with
  | case1 f =>
    cases h
    exact ⟨id, id, id⟩
  | case2 f c s hc ih =>
    obtain ⟨h1, h2, h3⟩ := ih h
    cases he : f.exp <;> simp only [he] at h1 h2 h3
    · exact ⟨fun _ => h1 rfl, h2, fun hx => nomatch hx⟩
    · exact ⟨h1, h2, fun _ => h3 rfl⟩
  | case4 f s hf hd ih => exact ⟨(ih h).1, fun _ => (ih h).2.1 rfl, (ih h).2.2⟩
  | case6 f c hd hp hc hf d t hs ih => exact ⟨(ih h).1, (ih h).2.1, fun _ => (ih h).2.2 rfl⟩
  | case7 f c hd hp hc hf d t hs ih => exact ⟨(ih h).1, (ih h).2.1, fun _ => (ih h).2.2 rfl⟩
  | case8 f c hd hp hc hf =>
    cases h
    exact ⟨id, id, fun _ => rfl⟩
  | case9 f c s hd hp hc hs ih => exact ih h
  | case3 => cases h
  | case5 => cases h
  | case10 => cases h

/-- Without a point and an exponent the text is a string of digits. -/
theorem decLoop_digits (h : decLoop false f s = some g) (hdot : g.dot = false) (hexp : g.exp = false) :
    ∀ b ∈ s, Ascii.isDigit b = true := by
  induction s generalizing f with
  | nil => simp
  | cons c s ih =>
    rw [decLoop_cons] at h
    by_cases hc : Ascii.isDigit c
    · rw [if_pos hc] at h
      exact List.forall_mem_cons.mpr ⟨hc, ih h⟩
    · rw [if_neg hc] at h
      split_ifs at h
      · have := (decLoop_mono h).2.1 rfl
        simp [hdot] at this
      · have := (decLoop_mono h).2.2 rfl
        simp [hexp] at this
      · simp_all

/-- Without a digit before it neither a second point nor an exponent is accepted. -/
theorem decLoop_first {c : UInt8} (h : decLoop false f (c :: s) = some g) (hd : f.digit = false)
    (hp : c ≠ ch '.' ∨ f.dot = true) : Ascii.isDigit c = true := by
  by_contra hc
  have hnone : f.exp = true ∨ ¬f.digit = true := .inr (by simp [hd])
  rw [decLoop_cons, if_neg hc] at h
  by_cases hdot : c = ch '.'
  · rw [if_pos hdot, if_pos (.inl (hp.resolve_left fun h => h hdot))] at h
    cases h
  · rw [if_neg hdot, if_pos hnone] at h
    simp at h

/-- An accepted text begins with a digit or a point, and a digit follows the point unless it stands alone. -/
theorem decLoop_start (h : decLoop false {} s = some g) (hs : s ≠ []) :
    s = [ch '.'] ∨ (∃ d t, s = d :: t ∧ Ascii.isDigit d = true) ∨
      ∃ d t, s = ch '.' :: d :: t ∧ Ascii.isDigit d = true ∧ decLoop false { dot := true } (d :: t) = some g := by
  cases s with
  | nil => exact absurd rfl hs
  | cons c s =>
    by_cases hc : c = ch '.'
    · subst hc
      have hdot : ¬Ascii.isDigit (ch '.') = true := by decide
      rw [decLoop_cons, if_neg hdot, if_pos rfl, if_neg (by simp)] at h
      cases s with
      | nil => exact .inl rfl
      | cons d t => exact .inr (.inr ⟨d, t, rfl, decLoop_first h rfl (.inr rfl), h⟩)
    · exact .inr (.inl ⟨c, s, rfl, decLoop_first h rfl (.inl hc)⟩)

theorem decLoop_digit (h : decLoop false {} s = some g) (hs : s ≠ []) : g.digit = true ∨ s = [ch '.'] := by
  have hmono : ∀ (f : DecFlags) d t, f.exp = false → decLoop false f (d :: t) = some g →
      Ascii.isDigit d = true → g.digit = true := by
    intro f d t he h hd
    rw [decLoop_cons, if_pos hd, if_neg (by simp [he])] at h
    exact (decLoop_mono h).1 rfl
  obtain h' | ⟨d, t, rfl, hd⟩ | ⟨d, t, -, hd, h'⟩ := decLoop_start h hs
  · exact .inr h'
  · exact .inl (hmono _ d t rfl h hd)
  · exact .inl (hmono _ d t rfl h' hd)

end DecLoop

/-! ### The parser on the texts of the scanner -/

theorem parseF64_digits {s : List UInt8} (h : ∀ b ∈ s, Ascii.isDigit b = true) (hs : s ≠ []) :
    parseF64 s = some (.ofNat (natOf s)) := by
  have htake : s.takeWhile Ascii.isDigit = s := List.takeWhile_eq_self_iff.mpr h
  have hdrop : s.dropWhile Ascii.isDigit = [] := List.dropWhile_eq_nil_iff.mpr h
  cases s with
  | nil => exact absurd rfl hs
  | cons c s =>
    have h1 := (digit_bare (h c (.head _))).2
    obtain ⟨h2, h3⟩ := digit_word (h c (.head _))
    have hn : parseNumber (c :: s) = some (.ofNat (natOf (c :: s))) := by
      simp [parseNumber, htake, hdrop, F64.ofDecimal]
    rw [parseF64, signed_of_head (by simpa using h1)]
    simp only [List.map_cons, List.cons.injEq, h2, h3, false_and, or_self, if_false, hn]
    rfl

theorem parseF64_point : parseF64 [ch '.'] = none := by decide

theorem mem_signed {b : UInt8} {s : List UInt8} (h : b ∈ s) : isSign b = true ∨ b ∈ (signed s).2 := by
  cases s with
  | nil => cases h
  | cons c s =>
    by_cases hc : isSign c
    · rw [signed_sign hc]
      rcases List.mem_cons.mp h with rfl | h
      · exact .inl hc
      · exact .inr h
    · rw [signed_of_head (by simpa using hc)]
      exact .inr h

theorem parseExponent_chars {s : List UInt8} {e : ℤ} (h : parseExponent s = some e) :
    ∀ b ∈ s, isDecChar b = true := by
  intro b hb
  rcases mem_signed hb with hs | hb
  · simp [isDecChar, hs]
  · unfold parseExponent at h
    simp only at h
    split at h
    next hd => exact isDecChar_of_digit (List.all_eq_true.mp hd.2 b hb)
    next => cases h

theorem numberRest_chars {v : F64} (t m : List UInt8) (k : ℕ) (h : (match t with
      | [] => some (F64.ofDecimal (natOf m) (-k))
      | c :: t => if isExpMark c then (parseExponent t).map fun e => F64.ofDecimal (natOf m) (e - k) else none) =
        some v) : ∀ b ∈ t, isDecChar b = true := by
  cases t with
  | nil => simp
  | cons c t =>
    simp only at h
    split at h
    next hc =>
      obtain ⟨e, he, -⟩ := Option.map_eq_some_iff.mp h
      exact List.forall_mem_cons.mpr ⟨by simp [isDecChar, hc], parseExponent_chars he⟩
    next => cases h

theorem parseNumber_chars {s : List UInt8} {v : F64} (h : parseNumber s = some v) :
    ∀ b ∈ s, isDecChar b = true := by
  have htake : ∀ t : List UInt8, ∀ b ∈ t.takeWhile Ascii.isDigit, isDecChar b = true := fun t b hb =>
    isDecChar_of_digit (List.mem_takeWhile_imp hb)
  intro b hb
  rw [← List.takeWhile_append_dropWhile (p := Ascii.isDigit) (l := s)] at hb
  rcases List.mem_append.mp hb with hb | hb
  · exact htake s b hb
  · unfold parseNumber at h
    cases hd : s.dropWhile Ascii.isDigit with
    | nil => simp [hd] at hb
    | cons c t =>
      rw [hd] at h hb
      by_cases hc : c = ch '.'
      · simp only [hc, if_true] at h
        split at h
        · cases h
        · rcases List.mem_cons.mp hb with rfl | hb
          · simp [isDecChar, hc]
          · rw [← List.takeWhile_append_dropWhile (p := Ascii.isDigit) (l := t)] at hb
            rcases List.mem_append.mp hb with hb | hb
            · exact htake t b hb
            · exact numberRest_chars _ _ _ h b hb
      · simp only [hc, if_false] at h
        split at h
        · cases h
        · exact numberRest_chars (c :: t) _ 0 h b hb

theorem parseF64_chars {s : List UInt8} {v : F64} (h : parseF64 s = some v) :
    ∀ b ∈ s, isDecChar b = true ∨ isWordChar b = true := by
  intro b hb
  rcases mem_signed hb with hs | hb
  · exact .inl (by simp [isDecChar, hs])
  · have hword : ∀ w : List UInt8, (signed s).2.map Ascii.toLowercase = w →
        w.all [ch 'i', ch 'n', ch 'f', ch 't', ch 'y', ch 'a'].contains = true → isWordChar b = true :=
      fun w hw hall => List.all_eq_true.mp hall _ (hw ▸ List.mem_map_of_mem hb)
    obtain ⟨m, hm, -⟩ := Option.map_eq_some_iff.mp h
    split_ifs at hm with h1 h2
    · refine .inr ?_
      rcases h1 with h1 | h1
      · exact hword _ h1 rfl
      · exact hword _ h1 rfl
    · exact .inr (hword _ h2 rfl)
    · exact .inl (parseNumber_chars hm b hb)

end Strscan
end LuajitRs
