import LuajitRs.Compiler.Lex.Quote
import LuajitRs.Util.Strscan

/-! Numeric literals. The lexer collects the characters of a number without its underscores and leaves
the rest to the number scanner, except for binary literals, which it reads itself. -/
namespace LuajitRs
open Strscan

structure TokVal where
  num : F64 := .zero
  isCdata : Bool := false
  cdataBits : UInt64 := 0
  cdataIsUll : Bool := false
  cdataIsImag : Bool := false
  deriving DecidableEq, Repr

/-- A suffix other than none makes the token a `cdata` with these bits. -/
def TokVal.setCdata (tv : TokVal) (u : UInt64) (suffix : NumSuffix) : TokVal :=
  if suffix = .none then tv
  else
    { tv with
      isCdata := true
      cdataBits := u
      cdataIsUll := suffix = .ull
      cdataIsImag := suffix = .imag }

namespace LexState

/-- `(c | 0x20) == x` on a character code, which is `-1` at the end. -/
def lowerIs (c : Option UInt8) (x : UInt8) : Bool := c.any fun b => (b ||| 0x20) = x

/-- The characters up to the next that is no underscore. -/
def skipUnderscores : (fuel : ℕ) → LexState → LexResult LexState
  | 0, _ => .error .diverge
  | fuel + 1, ls =>
    if ls.nextChar.c = some (ch '_') then skipUnderscores fuel ls.nextChar else .ok ls.nextChar

/-- The digits of a binary literal, with the cursor in front of them. -/
def binaryDigits : (fuel : ℕ) → LexState → LexResult LexState
  | 0, _ => .error .diverge
  | fuel + 1, ls =>
    match ls.nextChar.c with
    | none => .ok ls.nextChar
    | some b =>
      if isBinChar b then
        binaryDigits fuel (if b ≠ ch '_' then ls.nextChar.save b else ls.nextChar)
      else .ok ls.nextChar

def isSuffixChar (b : UInt8) : Bool := isLowL b || isLowU b

def suffixLetters : (fuel : ℕ) → LexState → LexResult LexState
  | 0, _ => .error .diverge
  | fuel + 1, ls =>
    match ls.c with
    | none => .ok ls
    | some b => if isSuffixChar b then suffixLetters fuel (ls.save b).nextChar else .ok ls

/-- The digits of a binary literal in the buffer and its suffix. -/
def binarySuffix (sb : List UInt8) : List UInt8 × NumSuffix :=
  if endsUll sb then (sb.take (sb.length - 3), .ull)
  else if endsLl sb then (sb.take (sb.length - 2), .ll)
  else (sb, .none)

/-- The branch of `lex_number` behind `0b`. -/
def lexBinary (ls : LexState) (tv : TokVal) : LexResult (F64 × TokVal × LexState) := do
  let ls ← binaryDigits (ls.remaining + 1) ls
  let ls ← suffixLetters (ls.remaining + 1) ls
  match scanBinToU64 (binarySuffix ls.sb).1 with
  | some u => pure (.ofNat u.toNat, tv.setCdata u (binarySuffix ls.sb).2, ls)
  | none => ls.error "malformed binary number"

/-- Whether `lex_number` takes the character `b` behind `c`; a sign stands behind the exponent mark. -/
def isNumberChar (xp : UInt8) (c : Option UInt8) (b : UInt8) : Bool :=
  isIdent (some b) || b = ch '.' || (isSign b && lowerIs c xp)

/-- The last loop of `lex_number`; `c` is the last character that is no underscore. -/
def numberChars (xp : UInt8) : (fuel : ℕ) → Option UInt8 → LexState → LexResult LexState
  | 0, _, _ => .error .diverge
  | fuel + 1, c, ls =>
    match ls.c with
    | none => .ok ls
    | some b =>
      if isNumberChar xp c b then
        if b ≠ ch '_' then numberChars xp fuel (some b) (ls.save b).nextChar
        else numberChars xp fuel c ls.nextChar
      else .ok ls

/-- The end of `lex_number`, with `c` the character its last loop begins with. -/
def lexDigits (ls : LexState) (xp : UInt8) (c : Option UInt8) (tv : TokVal) :
    LexResult (F64 × TokVal × LexState) := do
  let ls ← numberChars xp (ls.remaining + 1) c ls
  match scanNumberFull ls.sb with
  | some r => pure (r.n, tv.setCdata r.u r.suffix, ls)
  | none => ls.error "malformed number"

/-- A number with the cursor on a digit: its value, `tokval` and the state behind it. -/
def lexNumber (ls : LexState) (tv : TokVal) : LexResult (F64 × TokVal × LexState) :=
  if ls.c = some (ch '0') then do
    let ls := ls.save (ch '0')
    let ls ← skipUnderscores (ls.remaining + 1) ls
    if lowerIs ls.c (ch 'b') then ls.lexBinary tv
    else ls.lexDigits (if lowerIs ls.c (ch 'x') then ch 'p' else ch 'e') ls.c tv
  else ls.lexDigits (ch 'e') ls.c tv

/-- The token that `scan` makes of a number: the flags are those of `tokval`. -/
def numberToken (r : F64 × TokVal × LexState) : TokVal × LexState := ({ r.2.1 with num := r.1 }, r.2.2)

/-- The branches of `scan` that return a number, with `none` for every other token. -/
def scanNumeral (ls : LexState) (tv : TokVal) : LexResult (Option (TokVal × LexState)) :=
  let ls := { ls with sb := [] }
  if isDigit ls.c then (ls.lexNumber tv).map fun r => some (numberToken r)
  else if ls.c = some (ch '.') ∧ isDigit ls.saveNext.c then
    (ls.saveNext.lexNumber tv).map fun r => some (numberToken r)
  else .ok none

/-- The number that ends with the text. -/
def whole : LexResult (Option (TokVal × LexState)) → Option TokVal
  | .ok (some r) => if r.2.c = none then some r.1 else none
  | _ => none

/-- The lexer in front of a text of one line. -/
def blank : LexState := ⟨[], none, [], 1, "", one_lt_maxLine⟩

/-- The value of `text` as a numeric literal: the lexer reads one number and stops at the end. -/
def literal (text : List UInt8) : Option TokVal := whole ((blank.facing text).scanNumeral {})

end LexState
end LuajitRs

/-! The tokens of a source text: comments, long brackets, names, operators, and the token with one token of
look-ahead. A slice of the source that is out of range is a panic, which is no `CompileError`. -/
namespace LuajitRs

inductive Tok
  | char (b : UInt8)
  | and | «break» | const | «continue» | «do» | «else» | elseif | «end» | false | «for» | function | goto | «if» | «in»
  | «local» | nil | not | or | «repeat» | «return» | «then» | true | «until» | «while»
  | concat | dots | eq | ge | le | ne | nav | coal | shl | shr | sar | andAnd | orOr | neBang | arrow | label
  | number | name | str | eof
  deriving DecidableEq, Repr

def KEYWORDS : List (String × Tok) :=
  [("and", .and), ("break", .break), ("const", .const), ("continue", .continue), ("do", .do), ("else", .else),
    ("elseif", .elseif), ("end", .end), ("false", .false), ("for", .for), ("function", .function), ("goto", .goto),
    ("if", .if), ("in", .in), ("local", .local), ("nil", .nil), ("not", .not), ("or", .or), ("repeat", .repeat),
    ("return", .return), ("then", .then), ("true", .true), ("until", .until), ("while", .while)]

/-- The operators of more than one character and the classes of tokens, as `tok2str` names them. -/
def TOKEN_TEXTS : List (Tok × String) :=
  [(.concat, ".."), (.dots, "..."), (.eq, "=="), (.ge, ">="), (.le, "<="), (.ne, "~="), (.nav, "?."), (.coal, "??"),
    (.shl, "<<"), (.shr, ">>"), (.sar, "~>>"), (.andAnd, "&&"), (.orOr, "||"), (.neBang, "!="), (.arrow, "->"),
    (.label, "::"), (.number, "<number>"), (.name, "<name>"), (.str, "<string>"), (.eof, "<eof>")]

def tok2str : Tok → String
  | .char b => if Ascii.isControl b then s!"char({b.toNat})" else String.singleton (Char.ofUInt8 b)
  | tok =>
    match KEYWORDS.find? (·.2 = tok), TOKEN_TEXTS.find? (·.1 = tok) with
    | some kw, _ => kw.1
    | none, some p => p.2
    | none, none => ""

/-- The ways in which reading a source text fails: a fault of the lexer, or a panic of another kind. -/
inductive LoadFault
  | lex (e : LexFault)
  | panic
  deriving DecidableEq, Repr

abbrev Load (α : Type) := Except LoadFault α

namespace Load

/-- A function of the lexer that takes no slices. -/
def lex {α : Type} (r : LexResult α) : Load α := r.mapError .lex

/-- `&s[lo..hi]`. -/
def slice {α : Type} (s : List α) (lo hi : ℕ) : Load (List α) :=
  if lo ≤ hi ∧ hi ≤ s.length then .ok ((s.drop lo).take (hi - lo)) else .error .panic

/-- `s.len() - n`. -/
def lenSub {α : Type} (s : List α) (n : ℕ) : Load ℕ := if n ≤ s.length then .ok (s.length - n) else .error .panic

end Load

/-- A token with its value; the text of a name or a string is what the interner gets. -/
structure Token where
  tok : Tok
  val : TokVal := {}
  str : List UInt8 := []

namespace LexState

/-! ### Long brackets and comments -/

/-- The loop of `skip_eq`, which counts no further than 2^29. -/
def skipEqLoop : (fuel count : ℕ) → LexState → LexResult (ℕ × LexState)
  | 0, _, _ => .error .diverge
  | fuel + 1, count, ls =>
    if ls.saveNext.c = some (ch '=') ∧ count < 0x20000000 then skipEqLoop fuel (count + 1) ls.saveNext
    else .ok (count, ls.saveNext)

/-- The level of a long bracket, or a negative number if it is none. -/
def skipEq (ls : LexState) : LexResult (ℤ × LexState) := do
  let r ← skipEqLoop (ls.remaining + 1) 0 ls
  pure (if r.2.c = ls.c then r.1 else -r.1 - 1, r.2)

/-- The body of the loop of `long_string`, with `true` behind the closing bracket. -/
def longStringStep (isStr : Bool) (sep : ℤ) (ls : LexState) : LexResult (Bool × LexState) :=
  match ls.c with
  | none => ls.error (if isStr then "unfinished long string" else "unfinished long comment")
  | some b =>
    if b = ch ']' then do
      let r ← ls.skipEq
      pure (if r.1 = sep then (true, r.2.saveNext) else (false, r.2))
    else if b = 10 ∨ b = 13 then do
      let ls ← (ls.save 10).newline
      pure (false, if isStr then ls else { ls with sb := [] })
    else pure (false, ls.saveNext)

def longStringLoop (isStr : Bool) (sep : ℤ) : (fuel : ℕ) → LexState → LexResult LexState
  | 0, _ => .error .diverge
  | fuel + 1, ls => do
    let r ← ls.longStringStep isStr sep
    if r.1 then pure r.2 else longStringLoop isStr sep fuel r.2

/-- A long string or comment of level `sep`, with the cursor on the second opening bracket. -/
def longString (ls : LexState) (isStr : Bool) (sep : ℤ) : Load (List UInt8 × LexState) := do
  let ls := ls.saveNext
  let ls ← Load.lex (if ls.isEol then ls.newline else .ok ls)
  let ls ← Load.lex (longStringLoop isStr sep (ls.remaining + 1) ls)
  if isStr then
    let start := 2 + sep.toNat
    let stop ← Load.lenSub ls.sb start
    let s ← Load.slice ls.sb start stop
    pure (s, ls)
  else pure ([], ls)

/-- Up to the end of the line. -/
def skipLine : (fuel : ℕ) → LexState → LexResult LexState
  | 0, _ => .error .diverge
  | fuel + 1, ls => if ls.isEol ∨ ls.c = none then .ok ls else skipLine fuel ls.nextChar

/-- The long bracket that a comment begins with. -/
def commentLevel (ls : LexState) : LexResult (ℤ × LexState) :=
  if ls.c = some (ch '[') then do
    let r ← ls.skipEq
    pure (r.1, { r.2 with sb := [] })
  else pure (-1, ls)

/-- `scan_comment`, behind the `--`. -/
def scanComment (ls : LexState) : Load LexState := do
  let r ← Load.lex ls.commentLevel
  if 0 ≤ r.1 then do
    let s ← r.2.longString false r.1
    pure { s.2 with sb := [] }
  else Load.lex (skipLine (r.2.remaining + 1) r.2)

/-! ### Tokens -/

/-- A quoted string: the bytes between its delimiters. -/
def quoted (ls : LexState) : Load (List UInt8 × LexState) := do
  let r ← Load.lex ls.string
  let stop ← Load.lenSub r.2.sb 1
  let _ ← Load.slice r.2.sb 1 stop
  pure r

def nameChars : (fuel : ℕ) → LexState → LexResult LexState
  | 0, _ => .error .diverge
  | fuel + 1, ls => if isIdent ls.c then nameChars fuel ls.saveNext else .ok ls

/-- `scan_name_or_keyword`. -/
def scanName (ls : LexState) : LexResult (Token × LexState) := do
  let ls ← nameChars (ls.remaining + 1) ls
  let kw := KEYWORDS.find? fun p => p.1.toUTF8.toList = ls.sb
  pure (⟨(kw.map (·.2)).getD .name, {}, ls.sb⟩, ls)

/-- The token of a number; it takes the flags of `tokval` with it. -/
def scanNumberToken (ls : LexState) (tv : TokVal) : LexResult (Token × LexState × TokVal) := do
  let r ← ls.lexNumber tv
  pure (⟨.number, { r.2.1 with num := r.1 }, []⟩, r.2.2,
    { r.2.1 with isCdata := false, cdataBits := 0, cdataIsUll := false, cdataIsImag := false })

/-- The operators that one more character can extend. -/
def extensions (b : UInt8) : Option (List (UInt8 × Tok)) :=
  if b = ch '=' then some [(ch '=', .eq)]
  else if b = ch '<' then some [(ch '=', .le), (ch '<', .shl)]
  else if b = ch '>' then some [(ch '=', .ge), (ch '>', .shr)]
  else if b = ch '!' then some [(ch '=', .neBang)]
  else if b = ch ':' then some [(ch ':', .label)]
  else if b = ch '?' then some [(ch '.', .nav), (ch '?', .coal)]
  else if b = ch '&' then some [(ch '&', .andAnd)]
  else if b = ch '|' then some [(ch '|', .orOr)]
  else none

/-- An operator with the cursor on its first character. -/
def operator (ls : LexState) (b : UInt8) (exts : List (UInt8 × Tok)) : Token × LexState :=
  match exts.find? fun p => ls.nextChar.c = some p.1 with
  | some p => (⟨p.2, {}, []⟩, ls.nextChar.nextChar)
  | none => (⟨.char b, {}, []⟩, ls.nextChar)

/-- `~`, `~=` and `~>>`. -/
def tilde (ls : LexState) : LexResult (Token × LexState) :=
  let ls := ls.nextChar
  if ls.c = some (ch '=') then .ok (⟨.ne, {}, []⟩, ls.nextChar)
  else if ls.c = some (ch '>') then
    let ls := ls.nextChar
    if ls.c = some (ch '>') then .ok (⟨.sar, {}, []⟩, ls.nextChar) else ls.error "unexpected symbol"
  else .ok (⟨.char (ch '~'), {}, []⟩, ls)

/-- `[` or a long string. -/
def bracket (ls : LexState) : Load (Token × LexState) := do
  let r ← Load.lex ls.skipEq
  if 0 ≤ r.1 then do
    let s ← r.2.longString true r.1
    pure (⟨.str, {}, s.1⟩, s.2)
  else if r.1 = -1 then pure (⟨.char (ch '['), {}, []⟩, r.2)
  else Load.lex (r.2.error "invalid long string delimiter")

/-- `.`, `..`, `...` or a number. -/
def dot (ls : LexState) (tv : TokVal) : LexResult (Token × LexState × TokVal) :=
  let ls := ls.saveNext
  if ls.c = some (ch '.') then
    let ls := ls.nextChar
    if ls.c = some (ch '.') then .ok (⟨.dots, {}, []⟩, ls.nextChar, tv) else .ok (⟨.concat, {}, []⟩, ls, tv)
  else if isDigit ls.c then ls.scanNumberToken tv
  else .ok (⟨.char (ch '.'), {}, []⟩, ls, tv)

/-- One round of `scan`: a token, or white space or a comment passed over. -/
def scanRound (ls : LexState) (tv : TokVal) : Load (Option Token × LexState × TokVal) :=
  if isDigit ls.c then do
    let r ← Load.lex (ls.scanNumberToken tv)
    pure (some r.1, r.2)
  else if isIdent ls.c then do
    let r ← Load.lex ls.scanName
    pure (some r.1, r.2, tv)
  else
    match ls.c with
    | none => pure (some ⟨.eof, {}, []⟩, ls, tv)
    | some b =>
      if b = 10 ∨ b = 13 then do
        let ls ← Load.lex ls.newline
        pure (none, ls, tv)
      else if b = ch ' ' ∨ b = 9 ∨ b = 11 ∨ b = 12 then pure (none, ls.nextChar, tv)
      else if b = ch '-' then
        if ls.nextChar.c = some (ch '>') then pure (some ⟨.arrow, {}, []⟩, ls.nextChar.nextChar, tv)
        else if ls.nextChar.c = some (ch '-') then do
          let ls ← ls.nextChar.nextChar.scanComment
          pure (none, ls, tv)
        else pure (some ⟨.char b, {}, []⟩, ls.nextChar, tv)
      else if b = ch '[' then do
        let r ← ls.bracket
        pure (some r.1, r.2, tv)
      else if b = ch '~' then do
        let r ← Load.lex ls.tilde
        pure (some r.1, r.2, tv)
      else if b = ch '"' ∨ b = ch '\'' then do
        let r ← ls.quoted
        pure (some ⟨.str, {}, r.1⟩, r.2, tv)
      else if b = ch '.' then do
        let r ← Load.lex (ls.dot tv)
        pure (some r.1, r.2)
      else
        let r := ls.operator b ((extensions b).getD [])
        pure (some r.1, r.2, tv)

def scanLoop : (fuel : ℕ) → LexState → TokVal → Load (Token × LexState × TokVal)
  | 0, _, _ => .error (.lex .diverge)
  | fuel + 1, ls, tv => do
    let r ← ls.scanRound tv
    match r.1 with
    | some t => pure (t, r.2)
    | none => scanLoop fuel r.2.1 r.2.2

def scan (ls : LexState) (tv : TokVal) : Load (Token × LexState × TokVal) :=
  scanLoop (ls.remaining + 1) { ls with sb := [] } tv

/-- `LexState::new`: past a byte order mark and a line that starts with `#`. -/
def new (src : List UInt8) (chunkname : String) : LexResult LexState :=
  let ls := (LexState.mk src none [] 1 chunkname one_lt_maxLine).nextChar
  let ls := if ls.c = some 0xef ∧ ls.rest.take 2 = [0xbb, 0xbf] then { ls with rest := ls.rest.drop 2 }.nextChar else ls
  if ls.c = some (ch '#') then do
    let ls ← skipLine (ls.remaining + 1) ls
    if ls.c ≠ none then ls.newline else pure ls
  else pure ls

end LexState

end LuajitRs
