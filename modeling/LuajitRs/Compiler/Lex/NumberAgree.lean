import LuajitRs.Compiler.Lex.Scan
import LuajitRs.Util.Strscan.Readers

/-! The lexer and `tonumber` on the same text. A literal is what `scanNumberFull` makes of its characters
without the underscores, or a binary number that the lexer reads itself. Underscores, suffixes and binary
digits belong to the lexer alone; on the other decimal numbers all readers agree, up to the whole numbers
that do not fit 64 bits. -/
namespace LuajitRs
open Strscan

/-- The token of a scanned number. -/
def ScanNumberResult.token (r : ScanNumberResult) : TokVal :=
  { ({} : TokVal).setCdata r.u r.suffix with num := r.n }

theorem ScanNumberResult.token_isCdata {r : ScanNumberResult} :
    r.token.isCdata = false ↔ r.suffix = .none := by
  unfold token TokVal.setCdata
  split
  next h => simp [h]
  next h => simp [h]

namespace LexState
variable (ls : LexState) (b d : UInt8) (t : List UInt8)

def grow (ls : LexState) (l : List UInt8) : LexState := { ls with sb := ls.sb ++ l }

@[simp] theorem sb_facing : (ls.facing t).sb = ls.sb := rfl
@[simp] theorem sb_grow (l : List UInt8) : (ls.grow l).sb = ls.sb ++ l := rfl

@[simp] theorem grow_nil : ls.grow [] = ls := by
  cases ls
  simp [grow]

theorem grow_save (l : List UInt8) : (ls.save b).grow l = ls.grow (b :: l) := by
  simp [grow, save]

/-! ### The loops -/

theorem skipUnderscores_facing (fuel : ℕ) (hf : t.length < fuel) :
    skipUnderscores fuel (ls.facing (b :: t)) = .ok (ls.facing (t.dropWhile (· = ch '_'))) := by
  induction t generalizing fuel b with
  | nil =>
    obtain ⟨fuel, rfl⟩ : ∃ k, fuel = k + 1 := ⟨fuel - 1, by simp at hf; omega⟩
    rfl
  | cons d t ih =>
    obtain ⟨fuel, rfl⟩ : ∃ k, fuel = k + 1 := ⟨fuel - 1, by simp at hf; omega⟩
    rw [skipUnderscores, nextChar_facing, c_facing, List.head?_cons]
    by_cases hd : d = ch '_'
    · rw [if_pos (by rw [hd]), ih d fuel (by simpa using hf), List.dropWhile_cons_of_pos (by simpa using hd)]
    · rw [if_neg (by simpa using hd), List.dropWhile_cons_of_neg (by simpa using hd)]

theorem binaryDigits_facing (fuel : ℕ) (hf : t.length < fuel) :
    binaryDigits fuel (ls.facing (b :: t)) =
      .ok ((ls.grow (strip (t.takeWhile isBinChar))).facing (t.dropWhile isBinChar)) := by
  induction t generalizing fuel b ls with
  | nil =>
    obtain ⟨fuel, rfl⟩ : ∃ k, fuel = k + 1 := ⟨fuel - 1, by simp at hf; omega⟩
    rw [List.takeWhile_nil, strip_nil, grow_nil]
    rfl
  | cons d t ih =>
    obtain ⟨fuel, rfl⟩ : ∃ k, fuel = k + 1 := ⟨fuel - 1, by simp at hf; omega⟩
    have hlen : t.length < fuel := by simpa using hf
    rw [binaryDigits, nextChar_facing, c_facing, List.head?_cons]
    simp only
    by_cases hd : isBinChar d
    · rw [if_pos hd, List.takeWhile_cons_of_pos hd, List.dropWhile_cons_of_pos hd, strip_cons]
      by_cases hu : d = ch '_'
      · rw [if_neg (by simpa using hu), if_pos hu, ih ls d fuel hlen]
      · rw [if_pos hu, if_neg hu, save_facing, ih _ d fuel hlen, grow_save]
    · rw [if_neg hd, List.takeWhile_cons_of_neg hd, List.dropWhile_cons_of_neg hd, strip_nil, grow_nil]

theorem suffixLetters_facing (fuel : ℕ) (hf : t.length < fuel) :
    suffixLetters fuel (ls.facing t) =
      .ok ((ls.grow (t.takeWhile isSuffixChar)).facing (t.dropWhile isSuffixChar)) := by
  induction t generalizing fuel ls with
  | nil =>
    obtain ⟨fuel, rfl⟩ : ∃ k, fuel = k + 1 := ⟨fuel - 1, by simp at hf; omega⟩
    rw [List.takeWhile_nil, grow_nil]
    rfl
  | cons d t ih =>
    obtain ⟨fuel, rfl⟩ : ∃ k, fuel = k + 1 := ⟨fuel - 1, by simp at hf; omega⟩
    rw [suffixLetters, c_facing, List.head?_cons]
    simp only
    by_cases hd : isSuffixChar d
    · rw [if_pos hd, save_facing, nextChar_facing, ih _ fuel (by simpa using hf), grow_save,
        List.takeWhile_cons_of_pos hd, List.dropWhile_cons_of_pos hd]
    · rw [if_neg hd, List.takeWhile_cons_of_neg hd, List.dropWhile_cons_of_neg hd, grow_nil]

/-- The last loop of `lex_number` takes every character of the text. -/
def accepts (xp : UInt8) : Option UInt8 → List UInt8 → Bool
  | _, [] => true
  | c, b :: t => isNumberChar xp c b && accepts xp (if b = ch '_' then c else some b) t

theorem numberChars_facing (xp : UInt8) (fuel : ℕ) (c : Option UInt8) (hf : t.length < fuel) :
    ∃ ls', numberChars xp fuel c (ls.facing t) = .ok ls' ∧
      if accepts xp c t then ls' = (ls.grow (strip t)).facing [] else ls'.c ≠ none := by
  induction t generalizing fuel c ls with
  | nil =>
    obtain ⟨fuel, rfl⟩ : ∃ k, fuel = k + 1 := ⟨fuel - 1, by simp at hf; omega⟩
    exact ⟨_, rfl, by rw [accepts, if_pos rfl, strip_nil, grow_nil]⟩
  | cons d t ih =>
    obtain ⟨fuel, rfl⟩ : ∃ k, fuel = k + 1 := ⟨fuel - 1, by simp at hf; omega⟩
    have hlen : t.length < fuel := by simpa using hf
    rw [numberChars, c_facing, List.head?_cons, accepts, strip_cons]
    simp only
    by_cases hd : isNumberChar xp c d
    · rw [if_pos hd, hd, Bool.true_and]
      by_cases hu : d = ch '_'
      · rw [if_neg (by simpa using hu), if_pos hu, if_pos hu, nextChar_facing]
        exact ih ls fuel c hlen
      · rw [if_pos hu, if_neg hu, if_neg hu, save_facing, nextChar_facing, ← grow_save]
        exact ih _ fuel (some d) hlen
    · rw [if_neg hd, Bool.eq_false_iff.mpr hd, Bool.false_and]
      exact ⟨_, rfl, by simp⟩

/-! ### Numbers that end with the text -/

/-- The token of a number behind which the text ends. -/
def final : LexResult (F64 × TokVal × LexState) → Option TokVal
  | .ok r => if r.2.2.c = none then some { r.2.1 with num := r.1 } else none
  | .error _ => none

theorem lexDigits_final (xp : UInt8) (c : Option UInt8) :
    final ((ls.facing t).lexDigits xp c {}) =
      if accepts xp c t then (scanNumberFull (ls.sb ++ strip t)).map ScanNumberResult.token else none := by
  obtain ⟨ls', hls, h⟩ := numberChars_facing ls t xp _ c (Nat.lt_succ_self _)
  rw [← remaining_facing ls t] at hls
  rw [lexDigits, hls]
  simp only [bind, Except.bind]
  by_cases ha : accepts xp c t
  · rw [if_pos ha] at h ⊢
    subst h
    rw [sb_facing, sb_grow]
    cases scanNumberFull (ls.sb ++ strip t) with
    | none => rfl
    | some r => rfl
  · rw [if_neg ha] at h ⊢
    cases scanNumberFull ls'.sb with
    | none => rfl
    | some r => simp [final, pure, Except.pure, h]

theorem lexBinary_final :
    final ((ls.facing (b :: t)).lexBinary {}) =
      if (t.dropWhile isBinChar).all isSuffixChar then
        let sb := ls.sb ++ strip (t.takeWhile isBinChar) ++ t.dropWhile isBinChar
        (scanBinToU64 (binarySuffix sb).1).map fun u =>
          ScanNumberResult.token ⟨.ofNat u.toNat, u, (binarySuffix sb).2⟩
      else none := by
  have h1 := binaryDigits_facing ls b t ((ls.facing (b :: t)).remaining + 1) (by rw [remaining_facing, List.length_cons]; omega)
  have h2 := suffixLetters_facing (ls.grow (strip (t.takeWhile isBinChar))) (t.dropWhile isBinChar) _
    (Nat.lt_succ_self _)
  rw [← remaining_facing (ls.grow (strip (t.takeWhile isBinChar)))] at h2
  rw [lexBinary, h1]
  simp only [bind, Except.bind, Nat.succ_eq_add_one] at h2 ⊢
  rw [h2]
  simp only [sb_facing, sb_grow]
  by_cases ha : (t.dropWhile isBinChar).all isSuffixChar
  · rw [if_pos ha, List.takeWhile_eq_self_iff.mpr (List.all_eq_true.mp ha),
      List.dropWhile_eq_nil_iff.mpr (List.all_eq_true.mp ha)]
    cases scanBinToU64 (binarySuffix (ls.sb ++ strip (t.takeWhile isBinChar) ++ t.dropWhile isBinChar)).1 with
    | none => rfl
    | some u => rfl
  · have hne : (t.dropWhile isBinChar).dropWhile isSuffixChar ≠ [] := fun hn =>
      ha (List.all_eq_true.mpr (List.dropWhile_eq_nil_iff.mp hn))
    have hc : ((t.dropWhile isBinChar).dropWhile isSuffixChar).head? ≠ none := by simpa using hne
    rw [if_neg ha]
    split
    · simp [final, pure, Except.pure, hne]
    · rfl

/-! ### Numeric literals -/

theorem whole_final (r : LexResult (F64 × TokVal × LexState)) :
    whole (r.map fun r => some (numberToken r)) = final r := by
  cases r with
  | ok r => rfl
  | error e => rfl

theorem scanNumeral_facing :
    (blank.facing t).scanNumeral {} =
      if isDigit t.head? then ((blank.facing t).lexNumber {}).map fun r => some (numberToken r)
      else if t.head? = some (ch '.') ∧ isDigit (blank.facing t).saveNext.c then
        ((blank.facing t).saveNext.lexNumber {}).map fun r => some (numberToken r)
      else .ok none :=
  rfl

variable {b d t}

theorem literal_digit (hd : Ascii.isDigit d = true) :
    literal (d :: t) = final ((blank.facing (d :: t)).lexNumber {}) := by
  rw [literal, scanNumeral_facing, if_pos (by exact hd), whole_final]

theorem literal_point (hd : Ascii.isDigit d = true) :
    literal (ch '.' :: d :: t) = final (((blank.save (ch '.')).facing (d :: t)).lexNumber {}) := by
  have hp : ¬isDigit (ch '.' :: d :: t).head? = true := by
    show ¬isDigit (some (ch '.')) = true
    decide
  rw [literal, scanNumeral_facing, if_neg hp, saveNext_facing, if_pos ⟨rfl, hd⟩, whole_final]

/-- A literal begins with a digit, or with a point and a digit. -/
theorem literal_some {v : TokVal} (h : literal t = some v) :
    ∃ pre d s, ∃ ls : LexState, t = pre ++ d :: s ∧ (pre = [] ∨ pre = [ch '.']) ∧ Ascii.isDigit d = true ∧
      ls.sb = pre ∧ final ((ls.facing (d :: s)).lexNumber {}) = some v := by
  cases t with
  | nil => cases h
  | cons d s =>
    by_cases hd : Ascii.isDigit d
    · rw [literal_digit hd] at h
      exact ⟨[], d, s, blank, rfl, .inl rfl, hd, rfl, h⟩
    · have hnd : ¬isDigit (d :: s).head? = true := hd
      by_cases hp : d = ch '.' ∧ ∃ e u, s = e :: u ∧ Ascii.isDigit e = true
      · obtain ⟨rfl, e, u, rfl, he⟩ := hp
        rw [literal_point he] at h
        exact ⟨[ch '.'], e, u, blank.save (ch '.'), rfl, .inr rfl, he, rfl, h⟩
      · have hnone : ¬((d :: s).head? = some (ch '.') ∧ isDigit (blank.facing (d :: s)).saveNext.c = true) := by
          rintro ⟨hc, hs⟩
          rw [saveNext_facing, c_facing] at hs
          cases s with
          | nil => cases hs
          | cons e u => exact hp ⟨Option.some.inj hc, e, u, rfl, hs⟩
        rw [literal, scanNumeral_facing, if_neg hnd, if_neg hnone] at h
        cases h

/-! ### The number behind the first digit -/

/-- The texts of a binary literal. -/
def binary (t : List UInt8) : Bool := hasPrefix (ch 'b') (strip t)
/-- The texts of a hexadecimal literal. -/
def hexadecimal (t : List UInt8) : Bool := hasPrefix (ch 'x') (strip t)

theorem strip_dropWhile (t : List UInt8) : strip (t.dropWhile (· = ch '_')) = strip t := by
  induction t with
  | nil => rfl
  | cons d t ih =>
    by_cases hd : d = ch '_'
    · rw [List.dropWhile_cons_of_pos (by simpa using hd), ih, strip_cons, if_pos hd]
    · rw [List.dropWhile_cons_of_neg (by simpa using hd)]

theorem lowerIs_some (b x : UInt8) : lowerIs (some b) x = true ↔ (b ||| 0x20) = x := decide_eq_true_iff

/-- Behind the digits of a number stands what `scanNumberFull` accepts, or the letters of a binary
literal. -/
theorem lexNumber_final {ls : LexState} {v : TokVal} (hd : Ascii.isDigit d = true)
    (h : final ((ls.facing (d :: t)).lexNumber {}) = some v) :
    (∃ r, scanNumberFull (ls.sb ++ strip (d :: t)) = some r ∧ v = r.token) ∨
      ∃ b s u, d = ch '0' ∧ t.dropWhile (· = ch '_') = b :: s ∧ (b ||| 0x20) = ch 'b' ∧
        (s.dropWhile isBinChar).all isSuffixChar = true ∧
        scanBinToU64 (binarySuffix (ls.sb ++ ch '0' :: strip (s.takeWhile isBinChar) ++
          s.dropWhile isBinChar)).1 = some u ∧
        v = ScanNumberResult.token ⟨.ofNat u.toNat, u, (binarySuffix (ls.sb ++ ch '0' ::
          strip (s.takeWhile isBinChar) ++ s.dropWhile isBinChar)).2⟩ := by
  have hu := (digit_bare hd).1
  have hdigits : ∀ (ls' : LexState) xp c s, final ((ls'.facing s).lexDigits xp c {}) = some v →
      ls'.sb ++ strip s = ls.sb ++ strip (d :: t) →
      ∃ r, scanNumberFull (ls.sb ++ strip (d :: t)) = some r ∧ v = r.token := by
    intro ls' xp c s h hs
    rw [lexDigits_final, hs] at h
    split at h
    next =>
      obtain ⟨r, hr, rfl⟩ := Option.map_eq_some_iff.mp h
      exact ⟨r, hr, rfl⟩
    next => cases h
  unfold lexNumber at h
  by_cases h0 : d = ch '0'
  · subst h0
    have hskip := skipUnderscores_facing (ls.save (ch '0')) (ch '0') t
      (((ls.save (ch '0')).facing (ch '0' :: t)).remaining + 1)
      (by rw [remaining_facing, List.length_cons]; omega)
    have hc : (ls.facing (ch '0' :: t)).c = some (ch '0') := rfl
    rw [if_pos hc] at h
    simp only [save_facing] at h
    rw [hskip] at h
    simp only [bind, Except.bind] at h
    have hsb : (ls.save (ch '0')).sb ++ strip (t.dropWhile (· = ch '_')) = ls.sb ++ strip (ch '0' :: t) := by
      rw [strip_dropWhile, strip_cons, if_neg hu]
      simp [save]
    cases hs : t.dropWhile (· = ch '_') with
    | nil =>
      rw [hs] at h hsb
      rw [if_neg (by simp [lowerIs])] at h
      exact .inl (hdigits _ _ _ _ h hsb)
    | cons b s =>
      rw [hs] at h hsb
      rw [c_facing, List.head?_cons] at h
      by_cases hb : (b ||| 0x20) = ch 'b'
      · rw [if_pos ((lowerIs_some b _).mpr hb), lexBinary_final] at h
        split at h
        next hall =>
          obtain ⟨u, hu, rfl⟩ := Option.map_eq_some_iff.mp h
          refine .inr ⟨b, s, u, rfl, rfl, hb, hall, ?_⟩
          have hpre : ls.sb ++ ch '0' :: strip (s.takeWhile isBinChar) =
              (ls.save (ch '0')).sb ++ strip (s.takeWhile isBinChar) := by simp [save]
          rw [hpre]
          exact ⟨hu, rfl⟩
        next => cases h
      · rw [if_neg (fun hl => hb ((lowerIs_some b _).mp hl))] at h
        exact .inl (hdigits _ _ _ _ h hsb)
  · rw [if_neg (by simpa using h0)] at h
    exact .inl (hdigits ls _ _ _ h rfl)

/-! ### Binary literals -/

theorem binarySuffix_text (sb : List UInt8) :
    ∃ tail, sb = (binarySuffix sb).1 ++ tail ∧ SuffixText (binarySuffix sb).2 tail ∧
      (binarySuffix sb).2 ≠ .imag ∧ ∀ b ∈ tail, isSuffixChar b = true := by
  unfold binarySuffix
  split
  next hu =>
    obtain ⟨u, a, b, hs, h1, h2, h3⟩ := endsUll_cases hu
    exact ⟨_, hs, .ull h1 h2 h3, nofun, by simp [isSuffixChar, h1, h2, h3]⟩
  split
  next hl =>
    obtain ⟨a, b, hs, h1, h2⟩ := endsLl_cases hl
    exact ⟨_, hs, .ll h1 h2, nofun, by simp [isSuffixChar, h1, h2]⟩
  next => exact ⟨[], (List.append_nil sb).symm, .none, nofun, fun b hb => (nomatch hb)⟩

/-- Letters of a suffix behind other characters can be told from them. -/
theorem append_suffix_inj {l m l' m' : List UInt8} (h : l ++ m = l' ++ m')
    (hl : ∀ b ∈ l, isSuffixChar b = false) (hm : ∀ b ∈ m, isSuffixChar b = true)
    (hl' : ∀ b ∈ l', isSuffixChar b = false) (hm' : ∀ b ∈ m', isSuffixChar b = true) : l = l' ∧ m = m' := by
  have hfilter : ∀ l m : List UInt8, (∀ b ∈ l, isSuffixChar b = false) → (∀ b ∈ m, isSuffixChar b = true) →
      (l ++ m).filter (fun b => !isSuffixChar b) = l := by
    intro l m hl hm
    rw [List.filter_append, List.filter_eq_self.mpr (by simpa using hl),
      List.filter_eq_nil_iff.mpr (by simpa using hm), List.append_nil]
  have he : l = l' := by rw [← hfilter l m hl hm, h, hfilter l' m' hl' hm']
  subst he
  exact ⟨rfl, List.append_cancel_left h⟩

/-- What the buffer of a binary literal says about its text. -/
theorem binary_buffer {pre ds letters : List UInt8} {u : UInt64} (hpre : pre = [] ∨ pre = [ch '.'])
    (hds : ∀ b ∈ ds, isBinChar b = true) (hl : letters.all isSuffixChar = true)
    (hu : scanBinToU64 (binarySuffix (pre ++ ch '0' :: strip ds ++ letters)).1 = some u) :
    pre = [] ∧ scanBinToU64 ds = some u ∧
      SuffixText (binarySuffix (pre ++ ch '0' :: strip ds ++ letters)).2 letters ∧
      (binarySuffix (pre ++ ch '0' :: strip ds ++ letters)).2 ≠ .imag := by
  obtain ⟨tail, hsb, htext, himag, htail⟩ := binarySuffix_text (pre ++ ch '0' :: strip ds ++ letters)
  have hbody := scanBinLoop_chars hu
  have hbin : ∀ b : UInt8, isBinChar b = true → isSuffixChar b = false := by
    intro b hb
    obtain ⟨h1, h2, -⟩ := binChar_bare hb
    simp [isSuffixChar, h1, h2]
  have hfront : ∀ b ∈ pre ++ ch '0' :: strip ds, isSuffixChar b = false := by
    have hp : ∀ b ∈ pre, isSuffixChar b = false := by
      rcases hpre with rfl | rfl
      · exact fun b hb => (nomatch hb)
      · exact List.forall_mem_singleton.mpr (by decide)
    refine List.forall_mem_append.mpr ⟨hp, List.forall_mem_cons.mpr ⟨by decide, fun b hb => ?_⟩⟩
    exact hbin b (hds b (mem_of_mem_strip hb))
  obtain ⟨hb, hlet⟩ := append_suffix_inj hsb hfront (List.all_eq_true.mp hl)
    (fun b hb => hbin b (hbody b hb)) htail
  rw [← hb] at hu hbody
  have hnil : pre = [] := by
    rcases hpre with rfl | rfl
    · rfl
    · exact absurd rfl (binChar_bare (hbody (ch '.') (.head _))).2.2.2
  subst hnil
  refine ⟨rfl, ?_, hlet ▸ htext, himag⟩
  rw [List.nil_append, scanBinToU64, scanBinLoop, if_pos rfl, scanBinLoop_strip] at hu
  exact hu

/-- `scanNumberFull` refuses a binary literal without a suffix, whose text is no float, and one with an
underscore in front of the letter; it reads all others. -/
theorem full_binary {us ds tail : List UInt8} {suf : NumSuffix} {u : UInt64} {b : UInt8}
    (hus : ∀ c ∈ us, c = ch '_') (hb : (b ||| 0x20) = ch 'b') (hu : scanBinToU64 ds = some u)
    (ht : SuffixText suf tail) (hsuf : suf ≠ .imag) :
    scanNumberFull (ch '0' :: us ++ b :: ds ++ tail) =
      if us = [] ∧ suf ≠ .none then some ⟨.ofNat u.toNat, u, suf⟩ else none := by
  have hmark := mark_ne (.inr rfl) hb
  have hbare : Bare (ch '0' :: us ++ b :: ds) := by
    refine List.forall_mem_append.mpr ⟨List.forall_mem_cons.mpr ⟨by decide, fun c hc => ?_⟩,
      List.forall_mem_cons.mpr ⟨hmark.2.2.2.2, scanBinToU64_bare hu⟩⟩
    exact hus c hc ▸ underscore_bare
  have hsplit := splitSuffix_append hbare ht
  have hmem : b ∈ ch '0' :: us ++ b :: ds := by simp
  have hne : ch '0' :: us ++ b :: ds ++ tail ≠ [] := by simp
  have hparse : parseF64 (ch '0' :: us ++ b :: ds) = none := by
    cases hp : parseF64 (ch '0' :: us ++ b :: ds) with
    | none => rfl
    | some v =>
      obtain h | h := parseF64_chars hp b hmem
      · exact absurd (hmark.2.1 ▸ h) Bool.false_ne_true
      · exact absurd (hmark.2.2.1 ▸ h) Bool.false_ne_true
  have hbody : scanBody (ch '0' :: us ++ b :: ds) = if us = [] then some (u, true) else none := by
    cases us with
    | nil =>
      have hx : ¬hasPrefix (ch 'x') (ch '0' :: b :: ds) = true := by
        rw [hasPrefix, decide_eq_true rfl, Bool.true_and, decide_eq_true_iff, hb]
        decide
      have hp : hasPrefix (ch 'b') (ch '0' :: b :: ds) = true := by simp [hasPrefix, hb]
      rw [if_pos rfl, List.singleton_append, scanBody, if_neg hx, if_pos hp, List.drop_succ_cons,
        List.drop_succ_cons, List.drop_zero, hu]
      rfl
    | cons c us =>
      obtain rfl := hus c (.head _)
      have hx : ∀ x, IsMark x → ¬hasPrefix x (ch '0' :: ch '_' :: us ++ b :: ds) = true := by
        intro x hx hp
        obtain ⟨c, t, hc, hcx⟩ := hasPrefix_mem hp
        simp only [List.cons_append, List.cons.injEq, true_and] at hc
        exact (mark_ne hx hcx).1 hc.1.symm
      rw [if_neg (by simp), scanBody, if_neg (hx _ (.inl rfl)), if_neg (hx _ (.inr rfl))]
      cases hd : scanDecToF64 (ch '0' :: ch '_' :: us ++ b :: ds) with
      | none => rfl
      | some p =>
        obtain h | h := (scanDecToF64_strip hd).1 b hmem
        · exact absurd (hmark.2.1 ▸ h) Bool.false_ne_true
        · exact absurd h hmark.1
  rw [scanNumberFull, if_neg hne, hsplit]
  simp only [hbody]
  by_cases hus : us = []
  · rw [if_pos hus]
    by_cases hs : suf = .none
    · have hv : fullValue (ch '0' :: us ++ b :: ds) .none (u, true) = none :=
        (if_pos ⟨rfl, .inl rfl⟩).trans hparse
      rw [if_neg (fun h => h.2 hs), hs, Option.bind_eq_bind, Option.bind_some, hv]
      rfl
    · rw [if_pos ⟨hus, hs⟩]
      simp [fullValue, hs, hsuf]
  · rw [if_neg hus, if_neg (fun h => hus h.1)]
    rfl

/-! ### The readers on the text of a literal -/

/-- A literal is what `scanNumberFull` reads without the underscores, or a binary number. -/
theorem literal_cases {v : TokVal} (h : literal t = some v) :
    (∃ r, scanNumberFull (strip t) = some r ∧ v = r.token) ∨
      ∃ us b ds tail u suf, t = ch '0' :: us ++ b :: ds ++ tail ∧ (∀ c ∈ us, c = ch '_') ∧
        (b ||| 0x20) = ch 'b' ∧ scanBinToU64 ds = some u ∧ SuffixText suf tail ∧ suf ≠ .imag ∧
        v = ScanNumberResult.token ⟨.ofNat u.toNat, u, suf⟩ := by
  obtain ⟨pre, d, s, ls, rfl, hpre, hd, hsb, hf⟩ := literal_some h
  obtain ⟨r, hr, rfl⟩ | ⟨b, s', u, rfl, hdrop, hb, hall, hu, rfl⟩ := lexNumber_final hd hf
  · have hstrip : strip pre = pre := by
      rcases hpre with rfl | rfl
      · rfl
      · decide
    rw [hsb] at hr
    exact .inl ⟨r, by rwa [strip_append, hstrip], rfl⟩
  · rw [hsb] at hu
    have hds : ∀ c ∈ s'.takeWhile isBinChar, isBinChar c = true := fun c hc => List.mem_takeWhile_imp hc
    obtain ⟨rfl, hbin, htext, himag⟩ := binary_buffer hpre hds hall hu
    refine .inr ⟨s.takeWhile (· = ch '_'), b, s'.takeWhile isBinChar, s'.dropWhile isBinChar, u, _, ?_,
      fun c hc => by simpa using List.mem_takeWhile_imp hc, hb, hbin, htext, himag, by rw [hsb]⟩
    conv_lhs => rw [← List.takeWhile_append_dropWhile (p := (· = ch '_')) (l := s), hdrop,
      ← List.takeWhile_append_dropWhile (p := isBinChar) (l := s')]
    simp

theorem literal_full {v : TokVal} (h : literal t = some v) :
    (∀ r, scanNumberFull t = some r → v = r.token) ∧
      (ch '_' ∉ t → v.isCdata = true ∨ binary t = false → ∃ r, scanNumberFull t = some r ∧ v = r.token) := by
  obtain ⟨r, hr, rfl⟩ | ⟨us, b, ds, tail, u, suf, rfl, hus, hb, hu, ht, hsuf, rfl⟩ := literal_cases h
  · refine ⟨fun r' hr' => ?_, fun hm _ => ⟨r, strip_of_not_mem hm ▸ hr, rfl⟩⟩
    rw [scanNumberFull_strip hr'] at hr
    rw [Option.some.inj hr]
  · rw [full_binary hus hb hu ht hsuf]
    refine ⟨fun r hr => ?_, fun hm hc => ?_⟩
    · split at hr
      · rw [← Option.some.inj hr]
      · cases hr
    · have hnil : us = [] := by
        cases us with
        | nil => rfl
        | cons c us => exact absurd (hus c (.head _) ▸ by simp) hm
      subst hnil
      have hs : suf ≠ .none := by
        rintro rfl
        rcases hc with hc | hc
        · cases hc
        · have hz : ch '0' ≠ ch '_' := by decide
          have hp : binary (ch '0' :: b :: ds ++ tail) = true := by
            rw [binary, List.cons_append, List.cons_append, hasPrefix_strip (.inr rfl) hb, hasPrefix,
              decide_eq_true rfl, decide_eq_true hb]
            rfl
          exact absurd (hp.symm.trans hc) Bool.noConfusion
      exact ⟨_, if_pos ⟨rfl, hs⟩, rfl⟩

/-- What belongs to the lexer alone: `tonumber` takes no suffix, no underscore and no binary digits. -/
theorem literal_scanNumber_none {v : TokVal} (h : literal t = some v)
    (hc : v.isCdata = true ∨ ch '_' ∈ t ∨ binary t = true) : scanNumber t = none := by
  cases hn : scanNumber t with
  | none => rfl
  | some x =>
    have hchars := scanNumber_chars hn
    have hu : ch '_' ∉ t := by
      intro hm
      obtain hd | hd := hchars _ hm
      · exact (decChar_bare hd).2.2.2.2.1 rfl
      · cases hd
    have hb : ∀ b ∈ t, (b ||| 0x20) ≠ ch 'b' := by
      intro b hm hb
      obtain ⟨-, h1, -, h2, -⟩ := mark_ne (.inr rfl) hb
      have hd := hchars b hm
      simp [h1, h2] at hd
    have hs : ∀ b ∈ t, (isLowL b || isLowU b || isLowI b) = false := by
      intro b hm
      rw [Bool.eq_false_iff]
      intro hb
      obtain ⟨-, h1, h2⟩ := suffixChar_ne hb
      have hd := hchars b hm
      simp [h1, h2] at hd
    exfalso
    obtain ⟨r, hr, rfl⟩ | ⟨us, b, ds, tail, u, suf, rfl, -, hb', -⟩ := literal_cases h
    · rcases hc with hc | hc | hc
      · rw [strip_of_not_mem hu] at hr
        obtain ⟨-, p, n, -, -, rfl⟩ := scanNumberFull_eq_some.mp hr
        obtain ⟨tail, ht, htext⟩ := splitSuffix_text t
        have hsuf : (splitSuffix t).2 ≠ .none := fun hs =>
          Bool.false_ne_true ((ScanNumberResult.token_isCdata.mpr hs).symm.trans hc)
        obtain ⟨b, hbt⟩ := htext.exists_mem hsuf
        have hbs := hs b (ht ▸ List.mem_append_right _ hbt)
        exact Bool.false_ne_true (hbs.symm.trans (htext.chars b hbt))
      · exact hu hc
      · rw [binary, strip_of_not_mem hu] at hc
        obtain ⟨c, s, rfl, hcb⟩ := hasPrefix_mem hc
        exact hb c (by simp) hcb
    · exact hb b (by simp) hb'

theorem literal_scanNumber {v : TokVal} (h : literal t = some v) (hc : v.isCdata = false) (hu : ch '_' ∉ t)
    (hx : hexadecimal t = false) (hb : binary t = false) (hr : InRange t) : scanNumber t = some v.num := by
  obtain ⟨r, hfull, rfl⟩ := (literal_full h).2 hu (.inr hb)
  rw [hexadecimal, strip_of_not_mem hu] at hx
  rw [binary, strip_of_not_mem hu] at hb
  exact scanNumber_of_full hfull (ScanNumberResult.token_isCdata.mp hc) hu hx hb hr

/-- The lexer takes every character of a decimal number. -/
theorem accepts_of_decLoop {f g : DecFlags} {c : Option UInt8} (h : decLoop false f t = some g) :
    accepts (ch 'e') c t = true := by
  have hdigit : ∀ b : UInt8, Ascii.isDigit b → isIdent (some b) = true := by
    intro b hb
    simp [isIdent, Ascii.isAlphanumeric, hb]
  have hexp : ∀ b : UInt8, isExpMark b → isIdent (some b) = true ∧ b ≠ ch '_' ∧
      lowerIs (some b) (ch 'e') = true := by
    intro b hb
    obtain ⟨h1, h2, h3⟩ := expMark_bare hb
    exact ⟨by simp [isIdent, h1], h2, (lowerIs_some b _).mpr h3⟩
  fun_induction decLoop false f t generalizing c with
  | case1 f => rfl
  | case2 f b s hd ih => rw [accepts, isNumberChar, hdigit b hd, ih h]; rfl
  | case4 f s hf hd ih => rw [accepts, isNumberChar, ih h]; simp
  | case6 f b hd hp he hf d s hs ih =>
    have hb := hexp b he
    rw [accepts, accepts, if_neg hb.2.1, ih h, isNumberChar, isNumberChar, hb.1, hs, hb.2.2]
    simp
  | case7 f b hd hp he hf d s hs ih => rw [accepts, isNumberChar, (hexp b he).1, ih h]; rfl
  | case8 f b hd hp he hf => rw [accepts, isNumberChar, (hexp b he).1]; rfl
  | case9 f b s hd hp he hs ih => exact absurd hs.1 (by simp)
  | case3 => cases h
  | case5 => cases h
  | case10 => cases h

/-- The lexer reads a decimal number up to its end. -/
theorem lexNumber_of_decLoop {ls : LexState} {f g : DecFlags} (hd : Ascii.isDigit d = true)
    (h : decLoop false f (d :: t) = some g) :
    final ((ls.facing (d :: t)).lexNumber {}) =
      (scanNumberFull (ls.sb ++ d :: t)).map ScanNumberResult.token := by
  have hchars : ∀ b ∈ d :: t, isDecChar b = true := fun b hb =>
    (decLoop_chars h b hb).resolve_right fun h => (nomatch h.1)
  have hu : ch '_' ∉ d :: t := fun hm => (decChar_bare (hchars _ hm)).2.2.2.2.1 rfl
  have hut : ch '_' ∉ t := fun hm => hu (.tail _ hm)
  unfold lexNumber
  by_cases h0 : d = ch '0'
  · subst h0
    have hc : (ls.facing (ch '0' :: t)).c = some (ch '0') := rfl
    have hskip := skipUnderscores_facing (ls.save (ch '0')) (ch '0') t
      (((ls.save (ch '0')).facing (ch '0' :: t)).remaining + 1)
      (by rw [remaining_facing, List.length_cons]; omega)
    have hdrop : t.dropWhile (· = ch '_') = t :=
      List.dropWhile_eq_self_iff.mpr fun hl he => hut (of_decide_eq_true he ▸ List.getElem_mem hl)
    have hlow : ∀ x, IsMark x → ¬lowerIs ((ls.save (ch '0')).facing t).c x = true := by
      intro x hx hl
      rw [c_facing] at hl
      cases t with
      | nil => cases hl
      | cons b s =>
        have hm := (mark_ne hx ((lowerIs_some b x).mp hl)).2.1
        exact Bool.false_ne_true (hm.symm.trans (hchars b (.tail _ (.head _))))
    have ht : ∃ f, decLoop false f t = some g := by
      rw [decLoop_cons, if_pos hd] at h
      exact ⟨_, h⟩
    obtain ⟨f', hf'⟩ := ht
    rw [if_pos hc]
    simp only [save_facing]
    rw [hskip, hdrop]
    simp only [bind, Except.bind]
    rw [if_neg (hlow _ (.inr rfl)), if_neg (hlow _ (.inl rfl)), lexDigits_final,
      if_pos (accepts_of_decLoop hf'), strip_of_not_mem hut]
    simp [save]
  · rw [if_neg (by simpa using h0), lexDigits_final, if_pos (accepts_of_decLoop h), strip_of_not_mem hu]

/-- An unsigned number that `tonumber` accepts is a literal with the same value. -/
theorem literal_of_scanNumber {x : F64} (h : scanNumber t = some x) (hsign : t.head?.any isSign = false)
    (hs : surrounded t = false) (hr : InRange t) : literal t = some { num := x } := by
  obtain ⟨⟨g, hg, hdigit⟩, u, hfull⟩ := full_of_scanNumber h hs hsign hr
  have hnum : (scanNumberFull t).map ScanNumberResult.token = some { num := x } := by
    rw [hfull]
    rfl
  have hne : t ≠ [] := by
    rintro rfl
    cases hg
    cases hdigit
  obtain rfl | ⟨d, s, rfl, hd⟩ | ⟨d, s, rfl, hd, hg'⟩ := decLoop_start hg hne
  · cases hg
    cases hdigit
  · rw [literal_digit hd, lexNumber_of_decLoop hd hg]
    exact hnum
  · rw [literal_point hd, lexNumber_of_decLoop hd hg']
    exact hnum

/-- The readers agree on a text: a literal has the value that `tonumber` and `scanNumberFull` give it, and
an unsigned number without white space around it is a literal. -/
def ReadersAgree (t : List UInt8) : Prop :=
  (∀ v, literal t = some v →
    scanNumber t = some v.num ∧ ∃ r, scanNumberFull t = some r ∧ v = r.token) ∧
  ∀ x, scanNumber t = some x → t.head?.any isSign = false → surrounded t = false →
    ∃ v, literal t = some v ∧ v.num = x

/-- `1LL` is a literal and no number for `tonumber`. -/
theorem readers_disagree : ¬∀ t, ReadersAgree t := by
  intro h
  have hlit : (literal [ch '1', ch 'L', ch 'L']).isSome = true := by decide
  obtain ⟨v, hv⟩ := Option.isSome_iff_exists.mp hlit
  have hnum := ((h [ch '1', ch 'L', ch 'L']).1 v hv).1
  have hnone : scanNumber [ch '1', ch 'L', ch 'L'] = none := by decide
  rw [hnone] at hnum
  cases hnum

/-- The number readers on every text. A literal without a suffix, an underscore and a prefix has its value
from `tonumber` as well; the others are refused there. `scanNumberFull` gives a literal its value and its
kind if it accepts it, and accepts all but plain binary numbers and underscores. What `tonumber` accepts is a
literal with the same value. -/
theorem readers_agree (t : List UInt8) :
    (∀ v, literal t = some v →
      (v.isCdata = true ∨ ch '_' ∈ t ∨ binary t = true → scanNumber t = none) ∧
      (v.isCdata = false → ch '_' ∉ t → hexadecimal t = false → binary t = false → InRange t →
        scanNumber t = some v.num) ∧
      (∀ r, scanNumberFull t = some r → v = r.token) ∧
      (ch '_' ∉ t → v.isCdata = true ∨ binary t = false → ∃ r, scanNumberFull t = some r ∧ v = r.token)) ∧
    ∀ x, scanNumber t = some x → t.head?.any isSign = false → surrounded t = false → InRange t →
      literal t = some { num := x } := by
  refine ⟨fun v hv => ⟨literal_scanNumber_none hv, fun hc hu hx hb hr => ?_, literal_full hv⟩,
    fun x hx hsign hs hr => literal_of_scanNumber hx hsign hs hr⟩
  exact literal_scanNumber hv hc hu hx hb hr

theorem readers_agree_seven : scanNumber [ch '7'] = literal [ch '7'] >>= fun v => some v.num := by
  have h := readers_agree [ch '7']
  have hlit : (literal [ch '7']).isSome = true := by decide
  obtain ⟨v, hv⟩ := Option.isSome_iff_exists.mp hlit
  have hc : (literal [ch '7']).any (fun v => v.isCdata) = false := by decide
  have hr : InRange [ch '7'] := fun _ => by decide
  rw [hv] at hc ⊢
  exact (h.1 v hv).2.1 hc (by decide) (by decide) (by decide) hr

end LexState
end LuajitRs
