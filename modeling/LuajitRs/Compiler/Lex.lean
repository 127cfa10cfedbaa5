import LuajitRs.Util.Chars

/-! The lexer: the character cursor, the token buffer and string literals with their escapes. A loop of
the source runs on fuel, and running out of it is the fault of not terminating. -/
namespace LuajitRs

/-- The ways a lexer function fails to return: the panic that carries a `CompileError`, and a loop
that does not end. -/
inductive LexFault
  | compile (text : String)
  | diverge
  deriving DecidableEq, Repr

/-- The line number from which on a chunk is refused. -/
def MAX_LINE : ℕ := 0x7fffff00

theorem one_lt_maxLine : 1 < MAX_LINE := by decide

structure LexState where
  /-- The source from `pos` on. -/
  rest : List UInt8
  /-- The current character, `none` for `LEX_EOF`. -/
  c : Option UInt8
  sb : List UInt8
  linenumber : ℕ
  chunkname : String
  linenumber_lt : linenumber < MAX_LINE

abbrev LexResult (α : Type) := Except LexFault α

/-! ### Character classes -/

def isDigit : Option UInt8 → Bool
  | some b => Ascii.isDigit b
  | none => false

def isXdigit : Option UInt8 → Bool
  | some b => Ascii.isHexdigit b
  | none => false

def isIdent : Option UInt8 → Bool
  | some b => Ascii.isAlphanumeric b || b = ch '_'
  | none => false

def isSpace : Option UInt8 → Bool
  | some b => (9 ≤ b && b ≤ 13) || b = 32
  | none => false

/-- `c & 15` on the character code, which is `-1` at the end. -/
def low4 : Option UInt8 → ℕ
  | some b => b.toNat % 16
  | none => 15

namespace LexState

def error {α : Type} (ls : LexState) (msg : String) : LexResult α :=
  .error (.compile (ls.chunkname ++ ":" ++ toString ls.linenumber ++ ": " ++ msg))

def nextChar (ls : LexState) : LexState :=
  match ls.rest with
  | b :: rest => { ls with c := some b, rest := rest }
  | [] => { ls with c := none }

def save (ls : LexState) (b : UInt8) : LexState := { ls with sb := ls.sb ++ [b] }

/-- `save(self.c)` casts the character code to a byte. -/
def saveNext (ls : LexState) : LexState := (ls.save (ls.c.getD 255)).nextChar

def isEol (ls : LexState) : Bool := ls.c = some 10 || ls.c = some 13

/-- Past a line end of one character or of two different ones. -/
def skipEol (ls : LexState) : LexState :=
  if ls.nextChar.isEol ∧ ls.nextChar.c ≠ ls.c then ls.nextChar.nextChar else ls.nextChar

def newline (ls : LexState) : LexResult LexState :=
  let ls := ls.skipEol
  if h : ls.linenumber + 1 < MAX_LINE then
    .ok { ls with linenumber := ls.linenumber + 1, linenumber_lt := h }
  else
    .error (.compile (ls.chunkname ++ ":" ++ toString (ls.linenumber + 1) ++ ": chunk has too many lines"))

/-- The characters that the cursor has not passed. -/
def remaining (ls : LexState) : ℕ := ls.rest.length + ls.c.toList.length

/-! ### Escapes -/

def badEscape {α : Type} (ls : LexState) : LexResult α := ls.error "invalid escape sequence"

/-- The value of the hexadecimal digit under the cursor. -/
def xdigit (ls : LexState) : LexResult ℕ :=
  if isDigit ls.c then .ok (low4 ls.c)
  else if isXdigit ls.c then .ok (low4 ls.c + 9)
  else ls.badEscape

def hexEscape (ls : LexState) : LexResult LexState := do
  let ls := ls.nextChar
  let hi ← ls.xdigit
  let ls := ls.nextChar
  let lo ← ls.xdigit
  pure (ls.save (UInt8.ofNat (16 * hi + lo))).nextChar

/-- The digits of `\u{...}` up to the closing brace. -/
def codePoint : (fuel c : ℕ) → LexState → LexResult (ℕ × LexState)
  | 0, _, _ => .error .diverge
  | fuel + 1, c, ls => do
    let d ← ls.xdigit
    let c := 16 * c + d
    if 0x110000 ≤ c then ls.badEscape
    else
      let ls := ls.nextChar
      if ls.c = some (ch '}') then pure (c, ls) else codePoint fuel c ls

def saveUtf8 (ls : LexState) (c : ℕ) : LexResult LexState :=
  if c < 0x800 then
    if 0x80 ≤ c then
      .ok ((ls.save (UInt8.ofNat (0xc0 + c / 64))).save (UInt8.ofNat (0x80 + c % 64)))
    else .ok (ls.save (UInt8.ofNat c))
  else if 0x10000 ≤ c then
    .ok ((((ls.save (UInt8.ofNat (0xf0 + c / 2^18))).save (UInt8.ofNat (0x80 + c / 2^12 % 64))).save
      (UInt8.ofNat (0x80 + c / 64 % 64))).save (UInt8.ofNat (0x80 + c % 64)))
  else if 0xd800 ≤ c ∧ c < 0xe000 then ls.badEscape
  else
    .ok (((ls.save (UInt8.ofNat (0xe0 + c / 2^12))).save (UInt8.ofNat (0x80 + c / 64 % 64))).save
      (UInt8.ofNat (0x80 + c % 64)))

def unicodeEscape (ls : LexState) : LexResult LexState := do
  let ls := ls.nextChar
  if ls.c ≠ some (ch '{') then ls.badEscape
  else
    let ls := ls.nextChar
    let r ← codePoint (ls.remaining + 1) 0 ls
    saveUtf8 r.2.nextChar r.1

/-- The loop of `\z` over white space. -/
def skipSpace : (fuel : ℕ) → LexState → LexResult LexState
  | 0, _ => .error .diverge
  | fuel + 1, ls =>
    if isSpace ls.c then (if ls.isEol then ls.newline else .ok ls.nextChar) >>= skipSpace fuel
    else .ok ls

/-- A decimal escape of one to three digits, with the cursor on the first. -/
def decimalEscape (ls : LexState) (b : UInt8) : LexResult LexState :=
  let c := b.toNat - 48
  let ls := ls.nextChar
  if isDigit ls.c then
    let c := c * 10 + ((ls.c.getD 0).toNat - 48)
    let ls := ls.nextChar
    if isDigit ls.c then
      let c := c * 10 + ((ls.c.getD 0).toNat - 48)
      if 255 < c then ls.badEscape
      else .ok (ls.nextChar.save (UInt8.ofNat c))
    else .ok (ls.save (UInt8.ofNat c))
  else .ok (ls.save (UInt8.ofNat c))

/-- The escapes of one character that stand for one byte. -/
def charEscape (b : UInt8) : Option UInt8 :=
  if b = ch 'a' then some 7
  else if b = ch 'b' then some 8
  else if b = ch 'f' then some 12
  else if b = ch 'n' then some 10
  else if b = ch 'r' then some 13
  else if b = ch 't' then some 9
  else if b = ch 'v' then some 11
  else if b = ch '\\' ∨ b = ch '"' ∨ b = ch '\'' then some b
  else none

/-- The `match` on the character after a backslash. -/
def escape (ls : LexState) : LexResult LexState :=
  match ls.c with
  | none => .ok ls
  | some b =>
    match charEscape b with
    | some v => .ok (ls.save v).nextChar
    | none =>
      if b = ch 'x' then ls.hexEscape
      else if b = ch 'u' then ls.unicodeEscape
      else if b = ch 'z' then ls.nextChar.skipSpace (ls.nextChar.remaining + 1)
      else if b = 10 ∨ b = 13 then (ls.save 10).newline
      else if isDigit (some b) then ls.decimalEscape b
      else ls.badEscape

/-! ### String literals -/

/-- The body of the loop of `string`. -/
def stringStep (ls : LexState) : LexResult LexState :=
  match ls.c with
  | none => ls.error "unfinished string near '<eof>'"
  | some b =>
    if b = 10 ∨ b = 13 then ls.error "unfinished string near '<string>'"
    else if b = ch '\\' then ls.nextChar.escape
    else .ok ls.saveNext

def stringLoop (delim : Option UInt8) : (fuel : ℕ) → LexState → LexResult LexState
  | 0, _ => .error .diverge
  | fuel + 1, ls =>
    if ls.c = delim then .ok ls
    else do
      let ls ← ls.stringStep
      stringLoop delim fuel ls

/-- A quoted string with the cursor on its delimiter: the bytes handed to the interner, and the
state behind the literal. -/
def string (ls : LexState) : LexResult (List UInt8 × LexState) := do
  let delim := ls.c
  let ls := ls.saveNext
  let ls ← stringLoop delim (ls.remaining + 1) ls
  let ls := ls.saveNext
  pure ((ls.sb.drop 1).dropLast, ls)

/-! ### Progress -/

@[simp] theorem remaining_save (ls : LexState) (b : UInt8) : (ls.save b).remaining = ls.remaining := rfl
@[simp] theorem c_save (ls : LexState) (b : UInt8) : (ls.save b).c = ls.c := rfl
@[simp] theorem rest_save (ls : LexState) (b : UInt8) : (ls.save b).rest = ls.rest := rfl

theorem remaining_nextChar (ls : LexState) : ls.nextChar.remaining = ls.rest.length := by
  unfold nextChar remaining
  split <;> simp_all

theorem remaining_nextChar_le (ls : LexState) : ls.nextChar.remaining ≤ ls.remaining := by
  rw [remaining_nextChar]
  exact Nat.le_add_right _ _

theorem remaining_nextChar_lt {ls : LexState} (h : ls.c ≠ none) :
    ls.nextChar.remaining < ls.remaining := by
  rw [remaining_nextChar]
  cases hc : ls.c with
  | none => exact absurd hc h
  | some b => simp [remaining, hc]

theorem remaining_nextChar_save (ls : LexState) (b : UInt8) :
    (ls.save b).nextChar.remaining = ls.nextChar.remaining := by
  rw [remaining_nextChar, remaining_nextChar, rest_save]

/-- The result did not run out of fuel, and a state it returns has at most `n` characters left. -/
def Within (n : ℕ) : LexResult LexState → Prop
  | .ok ls => ls.remaining ≤ n
  | .error e => e ≠ .diverge

theorem Within.mono {n m : ℕ} {r : LexResult LexState} (h : Within n r) (hm : n ≤ m) : Within m r := by
  cases r with
  | ok ls => exact le_trans h hm
  | error e => exact h

theorem Within.bind {n m : ℕ} {r : LexResult LexState} {f : LexState → LexResult LexState}
    (h : Within n r) (hf : ∀ ls, ls.remaining ≤ n → Within m (f ls)) : Within m (r >>= f) := by
  cases r with
  | ok ls => exact hf ls h
  | error e => exact h

theorem within_error (n : ℕ) (ls : LexState) (msg : String) : Within n (ls.error msg) := by
  intro h
  cases h

theorem within_newline {n : ℕ} (ls : LexState) (h : ls.nextChar.remaining ≤ n) :
    Within n ls.newline := by
  have hn : ls.skipEol.remaining ≤ n := by
    unfold skipEol
    split
    · exact (remaining_nextChar_le _).trans h
    · exact h
  unfold newline
  simp only
  split
  · exact hn
  · intro he
    cases he

theorem xdigit_cases (ls : LexState) :
    (∃ d, ls.xdigit = .ok d ∧ ls.c ≠ none) ∨ ls.xdigit = ls.badEscape := by
  have hnone : ls.c = none → isXdigit ls.c = false := fun h => by rw [h]; rfl
  have hdigit : isDigit ls.c = true → isXdigit ls.c = true := by
    intro h
    cases hc : ls.c with
    | none => rw [hc] at h; cases h
    | some b =>
      rw [hc] at h
      exact Bool.or_eq_true_iff.mpr (.inl (Bool.or_eq_true_iff.mpr (.inl h)))
  unfold xdigit
  split
  next hd => exact .inl ⟨_, rfl, fun h => by simp [hnone h] at hdigit; simp [hdigit] at hd⟩
  next =>
    split
    next hx => exact .inl ⟨_, rfl, fun h => by simp [hnone h] at hx⟩
    next => exact .inr rfl

theorem within_hexEscape {n : ℕ} (ls : LexState) (h : ls.nextChar.remaining ≤ n) :
    Within n ls.hexEscape := by
  unfold hexEscape
  obtain ⟨d, hd, -⟩ | hd := xdigit_cases ls.nextChar
  · obtain ⟨e, he, -⟩ | he := xdigit_cases ls.nextChar.nextChar
    · simp only [hd, he]
      refine le_trans (remaining_nextChar_le _) ?_
      exact (remaining_nextChar_le _).trans h
    · simp only [hd, he]
      exact within_error n _ _
  · simp only [hd]
    exact within_error n _ _

/-- The digit loop ends within the characters that are left. -/
theorem codePoint_within {n : ℕ} (fuel c : ℕ) (ls : LexState) (hf : ls.remaining < fuel)
    (h : ls.remaining ≤ n) :
    (∃ r, codePoint fuel c ls = .ok r ∧ r.2.remaining ≤ n) ∨
      ∃ e, codePoint fuel c ls = .error e ∧ e ≠ .diverge := by
  induction fuel generalizing c ls with
  | zero => omega
  | succ fuel ih =>
    unfold codePoint
    obtain ⟨d, hd, hc⟩ | hd := xdigit_cases ls
    · have hlt := remaining_nextChar_lt hc
      simp only [hd, bind, Except.bind]
      split
      · exact .inr ⟨_, rfl, fun he => by cases he⟩
      · split
        · exact .inl ⟨_, rfl, show ls.nextChar.remaining ≤ n by omega⟩
        · exact ih _ _ (by omega) (by omega)
    · simp only [hd]
      exact .inr ⟨_, rfl, fun he => by cases he⟩

theorem within_saveUtf8 {n : ℕ} (ls : LexState) (c : ℕ) (h : ls.remaining ≤ n) :
    Within n (saveUtf8 ls c) := by
  unfold saveUtf8
  split
  · split <;> exact h
  · split
    · exact h
    · split
      · exact within_error n _ _
      · exact h

theorem within_unicodeEscape {n : ℕ} (ls : LexState) (h : ls.nextChar.remaining ≤ n) :
    Within n ls.unicodeEscape := by
  have h' := (remaining_nextChar_le ls.nextChar).trans h
  unfold unicodeEscape
  simp only
  split
  · exact within_error n _ _
  · obtain ⟨r, hr, hle⟩ | ⟨e, he, hne⟩ := codePoint_within _ 0 ls.nextChar.nextChar (Nat.lt_succ_self _) h'
    · simp only [hr]
      exact within_saveUtf8 _ _ ((remaining_nextChar_le _).trans hle)
    · simp only [he]
      exact hne

theorem within_skipSpace {n : ℕ} (fuel : ℕ) (ls : LexState) (hf : ls.remaining < fuel)
    (h : ls.remaining ≤ n) : Within n (skipSpace fuel ls) := by
  induction fuel generalizing ls with
  | zero => omega
  | succ fuel ih =>
    unfold skipSpace
    split
    next hs =>
      have hc : ls.c ≠ none := by
        intro hc
        simp [hc, isSpace] at hs
      have hlt := remaining_nextChar_lt hc
      have hstep : Within ls.nextChar.remaining (if ls.isEol then ls.newline else .ok ls.nextChar) := by
        split
        · exact within_newline ls le_rfl
        · exact le_refl ls.nextChar.remaining
      exact hstep.bind fun ls' hle => ih ls' (by omega) (by omega)
    next => exact h

theorem within_decimalEscape {n : ℕ} (ls : LexState) (b : UInt8) (h : ls.nextChar.remaining ≤ n) :
    Within n (ls.decimalEscape b) := by
  have h2 := (remaining_nextChar_le ls.nextChar).trans h
  have h3 := (remaining_nextChar_le ls.nextChar.nextChar).trans h2
  unfold decimalEscape
  simp only
  split
  · split
    · split
      · exact within_error n _ _
      · exact h3
    · exact h2
  · exact h

theorem within_escape {n : ℕ} (ls : LexState) (h : ls.remaining ≤ n) : Within n ls.escape := by
  have h1 := (remaining_nextChar_le ls).trans h
  have hsave : ∀ v, (ls.save v).nextChar.remaining ≤ n := fun v => by rwa [remaining_nextChar_save]
  unfold escape
  split
  · exact h
  next b hb =>
    split
    next v hv => exact hsave v
    next hv =>
      split
      · exact within_hexEscape ls h1
      split
      · exact within_unicodeEscape ls h1
      split
      · exact within_skipSpace _ _ (Nat.lt_succ_self _) h1
      split
      · exact within_newline _ (hsave 10)
      split
      · exact within_decimalEscape ls b h1
      · exact within_error n ls _

/-- Every iteration of `string` passes a character. -/
theorem within_stringStep {n : ℕ} (ls : LexState) (h : ls.c ≠ none → ls.remaining ≤ n + 1) :
    Within n ls.stringStep := by
  unfold stringStep
  split
  · exact within_error n ls _
  next b hb =>
    have hc : ls.c ≠ none := by simp [hb]
    have hlt := remaining_nextChar_lt hc
    have hle : ls.nextChar.remaining ≤ n := by
      have := h hc
      omega
    split
    · exact within_error n ls _
    · split
      · exact within_escape _ hle
      · unfold saveNext
        exact (remaining_nextChar_save _ _).trans_le hle

theorem within_stringLoop (delim : Option UInt8) (fuel : ℕ) (ls : LexState) (h : ls.remaining < fuel) :
    Within ls.remaining (stringLoop delim fuel ls) := by
  induction fuel generalizing ls with
  | zero => omega
  | succ fuel ih =>
    unfold stringLoop
    split
    · exact le_refl ls.remaining
    · cases hc : ls.c with
      | none =>
        simp only [stringStep, hc]
        exact within_error _ ls _
      | some b =>
        have hpos : 0 < ls.remaining := by simp [remaining, hc]
        have hstep := within_stringStep (n := ls.remaining - 1) ls fun _ => by omega
        refine hstep.bind fun ls' hle => ?_
        exact (ih ls' (by omega)).mono (by omega)

end LexState
end LuajitRs
