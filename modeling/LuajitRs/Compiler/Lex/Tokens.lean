import LuajitRs.Compiler.Lex.Scan
import LuajitRs.Lib.Ensures

/-! Reading tokens is total. Every loop of the lexer passes a character in each round, and the slices that it takes
of the token buffer lie within it; what is left is a token, or the panic that carries a `CompileError`. -/
namespace LuajitRs
open Lib

def LexFault.IsCompile : LexFault → Prop
  | .compile _ => True
  | .diverge => False

def LoadFault.IsCompile : LoadFault → Prop
  | .lex e => e.IsCompile
  | .panic => False

/-- The function returns, with `Q`, or refuses the source text. -/
abbrev Reads {α : Type} (r : LexResult α) (Q : α → Prop) : Prop := Ensures LexFault.IsCompile r Q

/-- The same for functions that take slices. -/
abbrev Loads {α : Type} (r : Load α) (Q : α → Prop) : Prop := Ensures LoadFault.IsCompile r Q

theorem Reads.loads {α : Type} {r : LexResult α} {Q : α → Prop} (h : Reads r Q) : Loads (Load.lex r) Q := by
  cases r with
  | ok a => exact h
  | error e => exact h

theorem Loads.slice {α : Type} {s : List α} {lo hi : ℕ} (hlo : lo ≤ hi) (hhi : hi ≤ s.length) :
    Loads (Load.slice s lo hi) fun _ => True := by
  rw [Load.slice, if_pos ⟨hlo, hhi⟩]
  exact trivial

theorem Loads.lenSub {α : Type} {s : List α} {n : ℕ} (h : n ≤ s.length) :
    Loads (Load.lenSub s n) fun m => m = s.length - n := by
  rw [Load.lenSub, if_pos h]
  rfl

/-- Two postconditions, one of them without regard to errors. -/
theorem Reads.and {α : Type} {r : LexResult α} {P Q : α → Prop} (h : Reads r P) (h' : Ensures (fun _ => True) r Q) :
    Reads r fun a => P a ∧ Q a := by
  cases r with
  | ok a => exact ⟨h, h'⟩
  | error e => exact h

namespace LexState
variable {ls : LexState} {n k : ℕ}

theorem reads_error {α : Type} {Q : α → Prop} (msg : String) : Reads (ls.error msg) Q := trivial

theorem Within.reads {r : LexResult LexState} (h : Within n r) : Reads r fun ls => ls.remaining ≤ n := by
  cases r with
  | ok ls => exact h
  | error e =>
    cases e with
    | compile text => exact trivial
    | diverge => exact absurd rfl h

/-! ### What the lexer does to its state -/

/-- Properties that saving a character, moving on and counting lines keep. -/
structure Closed (P : LexState → Prop) : Prop where
  save : ∀ {ls} b, P ls → P (ls.save b)
  next : ∀ {ls}, P ls → P ls.nextChar
  line : ∀ {ls} n h, P ls → P { ls with linenumber := n, linenumber_lt := h }

/-- If the function returns a state, it has the property. -/
abbrev Keeps (P : LexState → Prop) (r : LexResult LexState) : Prop := Ensures (fun _ => True) r P

section Closed
variable {P : LexState → Prop} (c : Closed P)
include c

theorem Closed.saveNext (h : P ls) : P ls.saveNext := c.next (c.save _ h)

theorem Closed.newline (h : P ls) : Keeps P ls.newline := by
  have hskip : P ls.skipEol := by
    rw [skipEol]
    split
    · exact c.next (c.next h)
    · exact c.next h
  rw [LexState.newline]
  split
  · exact c.line _ _ hskip
  · exact trivial

theorem Closed.hexEscape (h : P ls) : Keeps P ls.hexEscape := by
  rw [LexState.hexEscape]
  refine (Ensures.bind (P := fun _ => True) ?_ fun hi _ => Ensures.bind (P := fun _ => True) ?_ fun lo _ => ?_)
  · cases ls.nextChar.xdigit <;> trivial
  · cases ls.nextChar.nextChar.xdigit <;> trivial
  · exact c.next (c.save _ (c.next (c.next h)))

theorem Closed.codePoint (fuel d : ℕ) (h : P ls) :
    Ensures (fun _ => True) (LexState.codePoint fuel d ls) fun r => P r.2 := by
  induction fuel generalizing d ls with
  | zero => exact trivial
  | succ fuel ih =>
    rw [LexState.codePoint]
    refine Ensures.bind (P := fun _ => True) (by cases ls.xdigit <;> trivial) fun e _ => ?_
    simp only
    split
    · exact trivial
    · split
      · exact c.next h
      · exact ih _ (c.next h)

theorem Closed.saveUtf8 (d : ℕ) (h : P ls) : Keeps P (LexState.saveUtf8 ls d) := by
  rw [LexState.saveUtf8]
  split
  · split
    · exact c.save _ (c.save _ h)
    · exact c.save _ h
  · split
    · exact c.save _ (c.save _ (c.save _ (c.save _ h)))
    · split
      · exact trivial
      · exact c.save _ (c.save _ (c.save _ h))

theorem Closed.unicodeEscape (h : P ls) : Keeps P ls.unicodeEscape := by
  rw [LexState.unicodeEscape]
  simp only
  split
  · exact trivial
  · exact (c.codePoint _ 0 (c.next (c.next h))).bind fun r hr => c.saveUtf8 r.1 (c.next hr)

theorem Closed.skipSpace (fuel : ℕ) (h : P ls) : Keeps P (LexState.skipSpace fuel ls) := by
  induction fuel generalizing ls with
  | zero => exact trivial
  | succ fuel ih =>
    rw [LexState.skipSpace]
    split
    · refine Ensures.bind (P := P) ?_ fun ls' h' => ih h'
      split
      · exact c.newline h
      · exact c.next h
    · exact h

theorem Closed.decimalEscape (b : UInt8) (h : P ls) : Keeps P (ls.decimalEscape b) := by
  rw [LexState.decimalEscape]
  simp only
  split
  · split
    · split
      · exact trivial
      · exact c.save _ (c.next (c.next (c.next h)))
    · exact c.save _ (c.next (c.next h))
  · exact c.save _ (c.next h)

theorem Closed.escape (h : P ls) : Keeps P ls.escape := by
  rw [LexState.escape]
  split
  · exact h
  · split
    · exact c.next (c.save _ h)
    · split
      · exact c.hexEscape h
      split
      · exact c.unicodeEscape h
      split
      · exact c.skipSpace _ (c.next h)
      split
      · exact c.newline (c.save _ h)
      split
      · exact c.decimalEscape _ h
      · exact trivial

theorem Closed.stringLoop (delim : Option UInt8) (fuel : ℕ) (h : P ls) : Keeps P (LexState.stringLoop delim fuel ls) := by
  induction fuel generalizing ls with
  | zero => exact trivial
  | succ fuel ih =>
    rw [LexState.stringLoop]
    split
    · exact h
    · refine Ensures.bind (P := P) ?_ fun ls' h' => ih h'
      rw [LexState.stringStep]
      split
      · exact trivial
      · split
        · exact trivial
        · split
          · exact c.escape (c.next h)
          · exact c.saveNext h

end Closed

/-- The token buffer only grows. -/
theorem closed_sb (k : ℕ) : Closed fun ls => k ≤ ls.sb.length where
  save b h := by simp only [save, List.length_append]; omega
  next h := by
    rw [nextChar]
    split <;> exact h
  line _ _ h := h

/-! ### Long brackets -/

theorem remaining_saveNext (ls : LexState) : ls.saveNext.remaining = ls.nextChar.remaining :=
  remaining_nextChar_save ls _

theorem length_sb_saveNext (ls : LexState) : ls.saveNext.sb.length = ls.sb.length + 1 := by
  rw [saveNext, nextChar]
  split <;> rw [save, List.length_append, List.length_singleton]

/-- Every equals sign is saved, and the bracket in front of them. -/
theorem reads_skipEqLoop (fuel count : ℕ) (hc : ls.c ≠ none) (hf : ls.remaining < fuel + 1) (h0 : 0 < fuel) :
    Reads (skipEqLoop fuel count ls) fun r => r.2.remaining < ls.remaining ∧ count ≤ r.1 ∧
      ls.sb.length + (r.1 - count) + 1 ≤ r.2.sb.length := by
  have hlt := remaining_nextChar_lt hc
  induction fuel generalizing count ls with
  | zero => omega
  | succ fuel ih =>
    rw [skipEqLoop]
    split
    · next h =>
      have hc' : ls.saveNext.c ≠ none := by rw [h.1]; exact Option.some_ne_none _
      have hlt' := remaining_nextChar_lt hc'
      have hrem := remaining_saveNext ls
      have hlen := length_sb_saveNext ls
      refine (ih (count + 1) hc' (by omega) (by omega) hlt').mono fun r hr => ?_
      omega
    · have hlen := length_sb_saveNext ls
      refine ⟨by rw [remaining_saveNext]; exact hlt, le_rfl, ?_⟩
      simp only
      omega

/-- A long bracket of level `sep` puts its characters but the last into the buffer. -/
theorem reads_skipEq (hc : ls.c ≠ none) : Reads ls.skipEq fun r => r.2.remaining < ls.remaining ∧
    (0 ≤ r.1 → ls.sb.length + r.1.toNat + 1 ≤ r.2.sb.length) ∧ r.1.toNat + ls.sb.length < r.2.sb.length := by
  rw [skipEq]
  refine (reads_skipEqLoop _ 0 hc (by omega) (by omega)).bind fun r hr => ?_
  split
  · exact ⟨hr.1, fun _ => by simp only [Int.toNat_natCast]; omega, by simp only [Int.toNat_natCast]; omega⟩
  · exact ⟨hr.1, fun h => by omega, by simp only; omega⟩

/-- In each round the loop of a long bracket passes a character; at its end the closing bracket is in the buffer. -/
theorem reads_longStringStep (sep : ℤ) (isStr : Bool) : Reads (ls.longStringStep isStr sep) fun r =>
    r.2.remaining < ls.remaining ∧
      (isStr = true → ls.sb.length + (if r.1 then sep.toNat + 2 else 0) ≤ r.2.sb.length) := by
  rw [longStringStep]
  cases hb : ls.c with
  | none => exact reads_error _
  | some b =>
    have hc : ls.c ≠ none := by rw [hb]; exact Option.some_ne_none b
    have hlt := remaining_nextChar_lt hc
    simp only
    split
    · refine (reads_skipEq hc).bind fun r hr => ?_
      split
      · next hsep =>
        refine ⟨?_, fun _ => ?_⟩
        · have hle := remaining_nextChar_le r.2
          simp only [remaining_saveNext]
          omega
        · simp only [length_sb_saveNext, if_true, ← hsep]
          omega
      · refine ⟨hr.1, fun _ => ?_⟩
        simp only [Bool.false_eq_true, if_false]
        omega
    · split
      · have hnext : (ls.save 10).nextChar.remaining ≤ ls.nextChar.remaining := (remaining_nextChar_save ls 10).le
        have hsb : Keeps (fun ls' => ls.sb.length ≤ ls'.sb.length) (ls.save 10).newline :=
          (closed_sb _).newline ((closed_sb _).save 10 le_rfl)
        refine ((within_newline _ hnext).reads.and hsb).bind fun ls' hls' => ?_
        refine ⟨?_, fun hstr => ?_⟩
        · cases isStr
          · exact lt_of_le_of_lt hls'.1 hlt
          · exact lt_of_le_of_lt hls'.1 hlt
        · rw [if_pos hstr]
          exact hls'.2
      · refine ⟨by rw [remaining_saveNext]; exact hlt, fun _ => ?_⟩
        rw [length_sb_saveNext]
        exact Nat.le_succ _

theorem reads_longStringLoop (sep : ℤ) (isStr : Bool) (fuel : ℕ) (hf : ls.remaining < fuel) :
    Reads (longStringLoop isStr sep fuel ls) fun ls' => ls'.remaining ≤ ls.remaining ∧
      (isStr = true → ls.sb.length + sep.toNat + 2 ≤ ls'.sb.length) := by
  induction fuel generalizing ls with
  | zero => omega
  | succ fuel ih =>
    rw [longStringLoop]
    refine (reads_longStringStep sep isStr).bind fun r hr => ?_
    split
    · next hdone =>
      rw [if_pos hdone] at hr
      exact ⟨hr.1.le, fun h => by have := hr.2 h; omega⟩
    · next hdone =>
      rw [if_neg hdone] at hr
      refine (ih (by omega)).mono fun ls' h => ⟨by omega, fun hs => ?_⟩
      have h1 := h.2 hs
      have h2 := hr.2 hs
      omega

/-- The slice between the brackets lies within the buffer. -/
theorem loads_longString (isStr : Bool) {sep : ℤ} (hsep : isStr = true → sep.toNat + 1 ≤ ls.sb.length) :
    Loads (ls.longString isStr sep) fun r => r.2.remaining ≤ ls.nextChar.remaining := by
  rw [longString]
  have hfirst : Reads (if ls.saveNext.isEol then ls.saveNext.newline else .ok ls.saveNext) fun ls' =>
      ls'.remaining ≤ ls.nextChar.remaining ∧ ls.sb.length + 1 ≤ ls'.sb.length := by
    have hlen := length_sb_saveNext ls
    split
    · have hnext : ls.saveNext.nextChar.remaining ≤ ls.nextChar.remaining :=
        (remaining_nextChar_le _).trans (remaining_saveNext ls).le
      have hsb : Keeps (fun ls' => ls.sb.length + 1 ≤ ls'.sb.length) ls.saveNext.newline := (closed_sb _).newline hlen.ge
      exact (within_newline _ hnext).reads.and hsb
    · exact ⟨(remaining_saveNext ls).le, hlen.ge⟩
  refine hfirst.loads.bind fun ls₁ h₁ => ?_
  refine (reads_longStringLoop sep isStr _ (Nat.lt_succ_self _)).loads.bind fun ls₂ h₂ => ?_
  split
  · next hstr =>
    have hroom := h₂.2 hstr
    have hsep := hsep hstr
    refine (Loads.lenSub (by omega)).bind fun stop hstop => ?_
    refine (Loads.slice (by omega) (by omega)).bind fun s _ => ?_
    exact h₂.1.trans h₁.1
  · exact h₂.1.trans h₁.1

/-- Skipping a line never fails. -/
theorem skipLine_ok (fuel : ℕ) (hf : ls.remaining < fuel) :
    ∃ ls', skipLine fuel ls = .ok ls' ∧ ls'.remaining ≤ ls.remaining ∧ ls'.linenumber = ls.linenumber := by
  induction fuel generalizing ls with
  | zero => omega
  | succ fuel ih =>
    rw [skipLine]
    split
    · exact ⟨ls, rfl, le_rfl, rfl⟩
    · next h =>
      have hlt := remaining_nextChar_lt fun hc => h (.inr hc)
      have hfuel : ls.nextChar.remaining < fuel := by omega
      obtain ⟨ls', hls', hle, hline⟩ := ih hfuel
      refine ⟨ls', hls', by omega, hline.trans ?_⟩
      rw [nextChar]
      split <;> rfl

theorem loads_scanComment : Loads ls.scanComment fun ls' => ls'.remaining ≤ ls.remaining := by
  have hlevel : Reads ls.commentLevel fun r => r.2.remaining ≤ ls.remaining := by
    rw [commentLevel]
    split
    · next hc =>
      have hne : ls.c ≠ none := by rw [hc]; exact Option.some_ne_none _
      exact (reads_skipEq hne).bind fun r hr => hr.1.le
    · exact le_refl ls.remaining
  rw [scanComment]
  refine hlevel.loads.bind fun r hr => ?_
  have hle := remaining_nextChar_le r.2
  split
  · exact (loads_longString false (by rintro ⟨⟩)).bind fun s h => h.trans (hle.trans hr)
  · obtain ⟨ls', hls', hle', -⟩ := skipLine_ok _ (Nat.lt_succ_self r.2.remaining)
    rw [hls']
    exact hle'.trans hr

/-! ### Tokens -/

theorem reads_string (hc : ls.c ≠ none) : Reads ls.string fun r => r.2.remaining < ls.remaining ∧ 2 ≤ r.2.sb.length := by
  have hlt := remaining_nextChar_lt hc
  have hrem := remaining_saveNext ls
  have hfirst : 1 ≤ ls.saveNext.sb.length := by
    rw [length_sb_saveNext]
    exact Nat.le_add_left 1 _
  have hsb := (closed_sb 1).stringLoop ls.c (ls.saveNext.remaining + 1) hfirst
  rw [string]
  refine ((within_stringLoop ls.c _ ls.saveNext (Nat.lt_succ_self _)).reads.and hsb).bind fun ls' h => ?_
  have hle := remaining_nextChar_le ls'
  have hrem' := remaining_saveNext ls'
  have hlen := length_sb_saveNext ls'
  exact ⟨by simp only; omega, by simp only; omega⟩

theorem loads_quoted (hc : ls.c ≠ none) : Loads ls.quoted fun r => r.2.remaining < ls.remaining := by
  rw [quoted]
  refine (reads_string hc).loads.bind fun r hr => ?_
  refine (Loads.lenSub (by omega)).bind fun stop hstop => ?_
  refine (Loads.slice (by omega) (by omega)).bind fun s _ => ?_
  exact hr.1

theorem reads_nameChars (fuel : ℕ) (hf : ls.remaining < fuel) :
    Reads (nameChars fuel ls) fun ls' => ls'.remaining ≤ ls.remaining ∧ (isIdent ls.c = true → ls'.remaining < ls.remaining) := by
  induction fuel generalizing ls with
  | zero => omega
  | succ fuel ih =>
    rw [nameChars]
    split
    · next h =>
      have hc : ls.c ≠ none := by
        intro hc
        rw [hc] at h
        cases h
      have hlt := remaining_nextChar_lt hc
      have hrem := remaining_saveNext ls
      refine (ih (by omega)).mono fun ls' h' => ⟨by omega, fun _ => by omega⟩
    · next h => exact ⟨le_rfl, fun h' => absurd h' h⟩

theorem reads_scanName (hc : isIdent ls.c = true) : Reads ls.scanName fun r => r.2.remaining < ls.remaining := by
  rw [scanName]
  exact (reads_nameChars _ (Nat.lt_succ_self _)).bind fun ls' h => h.2 hc

/-! ### Numbers -/

theorem reads_skipUnderscores (fuel : ℕ) (hf : ls.nextChar.remaining < fuel) :
    Reads (skipUnderscores fuel ls) fun ls' => ls'.remaining ≤ ls.nextChar.remaining := by
  induction fuel generalizing ls with
  | zero => omega
  | succ fuel ih =>
    rw [skipUnderscores]
    split
    · next h =>
      have hlt := remaining_nextChar_lt (show ls.nextChar.c ≠ none by rw [h]; exact Option.some_ne_none _)
      exact (ih (by omega)).mono fun ls' h' => by omega
    · exact le_refl ls.nextChar.remaining

theorem reads_binaryDigits (fuel : ℕ) (hf : ls.nextChar.remaining < fuel) :
    Reads (binaryDigits fuel ls) fun ls' => ls'.remaining ≤ ls.nextChar.remaining := by
  induction fuel generalizing ls with
  | zero => omega
  | succ fuel ih =>
    rw [binaryDigits]
    cases hb : ls.nextChar.c with
    | none => exact le_refl ls.nextChar.remaining
    | some b =>
      have hlt := remaining_nextChar_lt (show ls.nextChar.c ≠ none by rw [hb]; exact Option.some_ne_none _)
      have hsave := remaining_nextChar_save ls.nextChar b
      simp only
      split
      · split
        · exact (ih (by omega)).mono fun ls' h' => by omega
        · exact (ih (by omega)).mono fun ls' h' => by omega
      · exact le_refl ls.nextChar.remaining

theorem reads_suffixLetters (fuel : ℕ) (hf : ls.remaining < fuel) :
    Reads (suffixLetters fuel ls) fun ls' => ls'.remaining ≤ ls.remaining := by
  induction fuel generalizing ls with
  | zero => omega
  | succ fuel ih =>
    rw [suffixLetters]
    cases hb : ls.c with
    | none => exact le_refl ls.remaining
    | some b =>
      have hlt := remaining_nextChar_lt (show ls.c ≠ none by rw [hb]; exact Option.some_ne_none _)
      have hsave := remaining_nextChar_save ls b
      simp only
      split
      · exact (ih (by omega)).mono fun ls' h' => by omega
      · exact le_refl ls.remaining

theorem reads_numberChars (xp : UInt8) (fuel : ℕ) (c : Option UInt8) (hf : ls.remaining < fuel) :
    Reads (numberChars xp fuel c ls) fun ls' => ls'.remaining ≤ ls.remaining ∧
      (isDigit ls.c = true → ls'.remaining < ls.remaining) := by
  induction fuel generalizing ls c with
  | zero => omega
  | succ fuel ih =>
    rw [numberChars]
    cases hb : ls.c with
    | none => exact ⟨le_rfl, nofun⟩
    | some b =>
      have hlt := remaining_nextChar_lt (show ls.c ≠ none by rw [hb]; exact Option.some_ne_none _)
      have hsave := remaining_nextChar_save ls b
      simp only
      split
      · split
        · exact (ih (some b) (by omega)).mono fun ls' h' => ⟨by omega, fun _ => by omega⟩
        · exact (ih c (by omega)).mono fun ls' h' => ⟨by omega, fun _ => by omega⟩
      · next hn =>
        refine ⟨le_rfl, fun hd => absurd ?_ hn⟩
        have hident : isIdent (some b) = true := by
          have hd : Ascii.isDigit b = true := hd
          simp [isIdent, Ascii.isAlphanumeric, hd]
        simp [isNumberChar, hident]

theorem reads_lexBinary (tv : TokVal) : Reads (ls.lexBinary tv) fun r => r.2.2.remaining ≤ ls.remaining := by
  rw [lexBinary]
  have hle := remaining_nextChar_le ls
  refine (reads_binaryDigits _ (Nat.lt_succ_of_le hle)).bind fun ls₁ h₁ => ?_
  refine (reads_suffixLetters _ (Nat.lt_succ_self _)).bind fun ls₂ h₂ => ?_
  split
  · exact h₂.trans (h₁.trans hle)
  · exact reads_error _

theorem reads_lexDigits (xp : UInt8) (c : Option UInt8) (tv : TokVal) : Reads (ls.lexDigits xp c tv) fun r =>
    r.2.2.remaining ≤ ls.remaining ∧ (isDigit ls.c = true → r.2.2.remaining < ls.remaining) := by
  rw [lexDigits]
  refine (reads_numberChars xp _ c (Nat.lt_succ_self _)).bind fun ls₁ h₁ => ?_
  split
  · exact h₁
  · exact reads_error _

/-- A number takes its first digit at least. -/
theorem reads_lexNumber (tv : TokVal) (hd : isDigit ls.c = true) :
    Reads (ls.lexNumber tv) fun r => r.2.2.remaining < ls.remaining := by
  have hc : ls.c ≠ none := by
    intro hc
    rw [hc] at hd
    cases hd
  have hlt := remaining_nextChar_lt hc
  rw [lexNumber]
  split
  · have hsave := remaining_nextChar_save ls (ch '0')
    refine (reads_skipUnderscores _ (by rw [remaining_save]; omega)).bind fun ls₁ h₁ => ?_
    split
    · exact (reads_lexBinary tv).mono fun r h => by omega
    · exact (reads_lexDigits _ _ tv).mono fun r h => by omega
  · exact (reads_lexDigits _ _ tv).mono fun r h => h.2 hd

theorem reads_scanNumberToken (tv : TokVal) (hd : isDigit ls.c = true) :
    Reads (ls.scanNumberToken tv) fun r => r.2.1.remaining < ls.remaining := by
  rw [scanNumberToken]
  exact (reads_lexNumber tv hd).bind fun r h => h

/-! ### One token -/

theorem remaining_operator_lt (hc : ls.c ≠ none) (b : UInt8) (exts : List (UInt8 × Tok)) :
    (ls.operator b exts).2.remaining < ls.remaining := by
  have hlt := remaining_nextChar_lt hc
  have hle := remaining_nextChar_le ls.nextChar
  rw [operator]
  split
  · exact lt_of_le_of_lt hle hlt
  · exact hlt

theorem reads_tilde (hc : ls.c ≠ none) : Reads ls.tilde fun r => r.2.remaining < ls.remaining := by
  have hlt := remaining_nextChar_lt hc
  have hle := remaining_nextChar_le ls.nextChar
  have hle' := remaining_nextChar_le ls.nextChar.nextChar
  rw [tilde]
  simp only
  split
  · exact lt_of_le_of_lt hle hlt
  · split
    · split
      · exact lt_of_le_of_lt (hle'.trans hle) hlt
      · exact reads_error _
    · exact hlt

theorem loads_bracket (hc : ls.c ≠ none) : Loads ls.bracket fun r => r.2.remaining < ls.remaining := by
  rw [bracket]
  refine (reads_skipEq hc).loads.bind fun r hr => ?_
  have hle := remaining_nextChar_le r.2
  split
  · refine (loads_longString true fun _ => by omega).bind fun s hs => ?_
    exact lt_of_le_of_lt (hs.trans hle) hr.1
  · split
    · exact hr.1
    · exact (reads_error (Q := fun r : Token × LexState => r.2.remaining < ls.remaining) _).loads

theorem reads_dot (tv : TokVal) (hc : ls.c ≠ none) : Reads (ls.dot tv) fun r => r.2.1.remaining < ls.remaining := by
  have hlt := (remaining_saveNext ls).trans_lt (remaining_nextChar_lt hc)
  have hle := remaining_nextChar_le ls.saveNext
  have hle' := remaining_nextChar_le ls.saveNext.nextChar
  rw [dot]
  simp only
  split
  · split
    · exact lt_of_le_of_lt (hle'.trans hle) hlt
    · exact lt_of_le_of_lt hle hlt
  · split
    · next hd => exact (reads_scanNumberToken tv hd).mono fun r h => h.trans hlt
    · exact hlt

/-- A round passes a character, or it is at the end of the source. -/
def Passes (ls : LexState) (r : Option Token × LexState × TokVal) : Prop :=
  r.2.1.remaining < ls.remaining ∨ r.2.1.remaining = ls.remaining ∧ ∃ t, r.1 = some t ∧ t.tok = .eof

theorem loads_scanRound (tv : TokVal) : Loads (ls.scanRound tv) (Passes ls) := by
  rw [scanRound]
  split
  · next hd => exact (reads_scanNumberToken tv hd).loads.bind fun r h => .inl h
  · split
    · next hi => exact (reads_scanName hi).loads.bind fun r h => .inl h
    · cases hb : ls.c with
      | none => exact .inr ⟨rfl, _, rfl, rfl⟩
      | some b =>
        have hc : ls.c ≠ none := by rw [hb]; exact Option.some_ne_none b
        have hlt := remaining_nextChar_lt hc
        have hle := remaining_nextChar_le ls.nextChar
        simp only
        split
        · exact (within_newline ls le_rfl).reads.loads.bind fun ls' h => .inl (lt_of_le_of_lt h hlt)
        · split
          · exact .inl hlt
          · split
            · split
              · exact .inl (lt_of_le_of_lt hle hlt)
              · split
                · exact loads_scanComment.bind fun ls' h => .inl (lt_of_le_of_lt (h.trans hle) hlt)
                · exact .inl hlt
            · split
              · exact (loads_bracket hc).bind fun r h => .inl h
              · split
                · exact (reads_tilde hc).loads.bind fun r h => .inl h
                · split
                  · exact (loads_quoted hc).bind fun r h => .inl h
                  · split
                    · exact (reads_dot tv hc).loads.bind fun r h => .inl h
                    · exact .inl (remaining_operator_lt hc b _)

theorem loads_scanLoop (tv : TokVal) (fuel : ℕ) (hf : ls.remaining < fuel) :
    Loads (scanLoop fuel ls tv) fun r => Passes ls (some r.1, r.2) := by
  induction fuel generalizing ls tv with
  | zero => omega
  | succ fuel ih =>
    rw [scanLoop]
    refine (loads_scanRound tv).bind fun r hr => ?_
    obtain ⟨t, ls', tv'⟩ := r
    cases t with
    | some t => exact hr
    | none =>
      have hlt : ls'.remaining < ls.remaining := by
        cases hr with
        | inl h => exact h
        | inr h => exact nomatch h.2.choose_spec.1
      have hfuel : ls'.remaining < fuel := by omega
      refine (ih tv' hfuel).mono fun r' h' => ?_
      cases h' with
      | inl h => exact .inl (h.trans hlt)
      | inr h => exact .inl (h.1.trans_lt hlt)

/-- Scanning yields a token that takes a character, or the end of the source, or refuses the text. -/
theorem loads_scan (ls : LexState) (tv : TokVal) : Loads (ls.scan tv) fun r => Passes ls (some r.1, r.2) :=
  loads_scanLoop tv _ (Nat.lt_succ_self ls.remaining)

end LexState
end LuajitRs
