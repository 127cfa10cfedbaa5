import LuajitRs.Util.Chars
import LuajitRs.Util.F64

/-! The number scanner. `scanNumberFull` reads the buffer of the lexer and reports the suffix,
`scanNumber` is `tonumber` of a string. Both hand the text of a decimal number with a fraction or an
exponent to the parser of the standard library. -/
namespace LuajitRs

inductive NumSuffix
  | none | ll | ull | imag
  deriving DecidableEq, Repr

structure ScanNumberResult where
  n : F64
  u : UInt64
  suffix : NumSuffix
  deriving DecidableEq, Repr

namespace Strscan

/-! ### The parser of the standard library -/

/-- The value of a string of decimal digits. -/
def natOf (s : List UInt8) : ℕ := s.foldl (fun n c => 10 * n + (c.toNat - 48)) 0

def isSign (c : UInt8) : Bool := c = ch '+' || c = ch '-'
def isExpMark (c : UInt8) : Bool := c = ch 'e' || c = ch 'E'

/-- An optional sign and the rest. -/
def signed : List UInt8 → Bool × List UInt8
  | c :: s => if isSign c then (c = ch '-', s) else (false, c :: s)
  | [] => (false, [])

/-- The exponent of a number, behind the `e`. -/
def parseExponent (s : List UInt8) : Option ℤ :=
  let (neg, ds) := signed s
  if ds ≠ [] ∧ ds.all Ascii.isDigit then some (if neg then -(natOf ds : ℤ) else natOf ds) else none

/-- Digits with an optional point and an optional exponent; at least one digit stands before the exponent. -/
def parseNumber (s : List UInt8) : Option F64 :=
  let int := s.takeWhile Ascii.isDigit
  let (frac, rest) :=
    match s.dropWhile Ascii.isDigit with
    | c :: t => if c = ch '.' then (t.takeWhile Ascii.isDigit, t.dropWhile Ascii.isDigit) else ([], c :: t)
    | [] => ([], [])
  if int ++ frac = [] then none
  else
    match rest with
    | [] => some (.ofDecimal (natOf (int ++ frac)) (-frac.length))
    | c :: t =>
      if isExpMark c then
        (parseExponent t).map fun e => .ofDecimal (natOf (int ++ frac)) (e - frac.length)
      else none

/-- `str::parse::<f64>`. -/
def parseF64 (s : List UInt8) : Option F64 :=
  let (neg, t) := signed s
  let word := t.map Ascii.toLowercase
  let mag :=
    if word = [ch 'i', ch 'n', ch 'f'] ∨
        word = [ch 'i', ch 'n', ch 'f', ch 'i', ch 'n', ch 'i', ch 't', ch 'y'] then
      some (F64.ofFields false 2047 0)
    else if word = [ch 'n', ch 'a', ch 'n'] then some F64.nan
    else parseNumber t
  mag.map fun v => if neg then v.neg else v

/-! ### Suffixes and prefixes -/

def isLowL (c : UInt8) : Bool := c = ch 'L' || c = ch 'l'
def isLowU (c : UInt8) : Bool := c = ch 'U' || c = ch 'u'
def isLowI (c : UInt8) : Bool := c = ch 'i' || c = ch 'I'

def endsLl (s : List UInt8) : Bool :=
  match s.drop (s.length - 2) with
  | [a, b] => isLowL a && isLowL b
  | _ => false

def endsUll (s : List UInt8) : Bool :=
  match s.drop (s.length - 3) with
  | [u, a, b] => isLowU u && isLowL a && isLowL b
  | _ => false

/-- The body of a literal and its suffix. A second test for `ULL`, made where only `LL` is left, never
succeeds and is left out. -/
def splitSuffix (s : List UInt8) : List UInt8 × NumSuffix :=
  if s.getLast?.any isLowI then (s.dropLast, .imag)
  else if endsUll s then (s.take (s.length - 3), .ull)
  else if endsLl s then (s.take (s.length - 2), .ll)
  else (s, .none)

/-- A zero and the letter `x` in either case, `s[0] == b'0' && (s[1] | 0x20) == x`. -/
def hasPrefix (x : UInt8) : List UInt8 → Bool
  | z :: c :: _ => z = ch '0' && (c ||| 0x20) = x
  | _ => false

/-! ### Decimal numbers -/

structure DecFlags where
  digit : Bool := false
  dot : Bool := false
  exp : Bool := false
  expDigits : Bool := false
  deriving DecidableEq, Repr

/-- The loop that checks a decimal number; `sep` tells whether underscores are passed over. -/
def decLoop (sep : Bool) : DecFlags → List UInt8 → Option DecFlags
  | f, [] => some f
  | f, c :: s =>
    if Ascii.isDigit c then
      decLoop sep (if f.exp then { f with expDigits := true } else { f with digit := true }) s
    else if c = ch '.' then
      if f.dot ∨ f.exp then none else decLoop sep { f with dot := true } s
    else if isExpMark c then
      if f.exp ∨ ¬f.digit then none
      else
        match s with
        | d :: t =>
          if isSign d then decLoop sep { f with exp := true } t
          else decLoop sep { f with exp := true } (d :: t)
        | [] => some { f with exp := true }
    else if sep ∧ c = ch '_' then decLoop sep f s
    else none

/-- `val * Wrapping(10) + Wrapping(d)` over the digits. -/
def wrapDec (s : List UInt8) : UInt64 :=
  s.foldl (fun v c => if c = ch '_' then v else v * 10 + UInt64.ofNat (c.toNat - 48)) 0

def scanDecToF64 (s : List UInt8) : Option (UInt64 × Bool) := do
  let f ← decLoop true {} s
  if !f.digit ∨ (f.exp ∧ !f.expDigits) then none
  else if f.dot ∨ f.exp then
    let n ← parseF64 (s.filter (· ≠ ch '_'))
    pure (n.bits, true)
  else pure (wrapDec s, false)

def scanDec (s : List UInt8) : Option F64 := do
  let (neg, mag) := signed s
  let f ← decLoop false {} mag
  if (!f.digit ∧ !f.dot) ∨ (f.exp ∧ !f.expDigits) then none
  else
    let v ← parseF64 mag
    pure (if neg then v.neg else v)

/-! ### Hexadecimal and binary numbers -/

/-- The value of a hexadecimal digit. -/
def hexValue (c : UInt8) : Option ℕ :=
  if Ascii.isDigit c then some (c.toNat - 48)
  else if ch 'a' ≤ c ∧ c ≤ ch 'f' then some (c.toNat - 97 + 10)
  else if ch 'A' ≤ c ∧ c ≤ ch 'F' then some (c.toNat - 65 + 10)
  else none

def isHexExpMark (c : UInt8) : Bool := c = ch 'p' || c = ch 'P'

/-- `e.saturating_mul(10).saturating_add(d)` over the digits of a binary exponent. -/
def hexExponent (sep : Bool) : (e : ℕ) → List UInt8 → Option ℕ
  | e, [] => some e
  | e, c :: s =>
    if sep ∧ c = ch '_' then hexExponent sep e s
    else if Ascii.isDigit c then hexExponent sep (min (e * 10 + (c.toNat - 48)) (2^31 - 1)) s
    else none

structure HexMant where
  mant : UInt64 := 0
  exp : ℤ := 0
  digit : Bool := false
  dot : Bool := false

/-- Exponents are kept in an `i32`. -/
def wrapI32 (e : ℤ) : ℤ := e.bmod (2^32)

/-- The digit loop of `scan_hex_to_u64`, up to the exponent. -/
def hexWrapLoop : HexMant → List UInt8 → Option (HexMant × List UInt8)
  | m, [] => some (m, [])
  | m, c :: s =>
    match hexValue c with
    | some d => hexWrapLoop { m with mant := m.mant * 16 + UInt64.ofNat d, digit := true } s
    | none =>
      if c = ch '.' then
        if m.dot then none else hexWrapLoop { m with dot := true } s
      else if isHexExpMark c then some (m, c :: s)
      else if c = ch '_' then hexWrapLoop m s
      else none

/-- The exponent of `scan_hex_to_u64`, which may be empty. -/
def wrapExponent : List UInt8 → Option ℤ
  | [] => some 0
  | _ :: t => (hexExponent true 0 (signed t).2).map fun e : ℕ => if (signed t).1 then -(e : ℤ) else e

def scanHexToU64 (s : List UInt8) : Option (UInt64 × Bool) := do
  let r ← hexWrapLoop {} s
  if !r.1.digit then none
  else do
    let exp ← wrapExponent r.2
    pure (if r.1.dot ∨ exp ≠ 0 then (((F64.ofNat r.1.mant.toNat).mul (.exp2 exp)).asU64, true)
      else (r.1.mant, false))

/-- The digit loop of `scan_hex`: digits beyond the mantissa only count in the exponent. -/
def hexLoop : HexMant → List UInt8 → Option (HexMant × List UInt8)
  | m, [] => some (m, [])
  | m, c :: s =>
    match hexValue c with
    | some d =>
      if m.mant < 2^60 then
        hexLoop
          { m with
            mant := m.mant * 16 + UInt64.ofNat d
            exp := if m.dot then wrapI32 (m.exp - 4) else m.exp
            digit := true } s
      else hexLoop { m with exp := if m.dot then m.exp else wrapI32 (m.exp + 4), digit := true } s
    | none =>
      if c = ch '.' then
        if m.dot then none else hexLoop { m with dot := true } s
      else if isHexExpMark c then some (m, c :: s)
      else none

/-- The exponent of `scan_hex`, which needs a digit, added to the one that the digits left. -/
def addExponent (exp : ℤ) : List UInt8 → Option ℤ
  | [] => some exp
  | _ :: t =>
    if (signed t).2 = [] then none
    else (hexExponent false 0 (signed t).2).map fun e : ℕ =>
      wrapI32 (exp + if (signed t).1 then -(e : ℤ) else e)

def scanHex (s : List UInt8) : Option F64 := do
  let r ← hexLoop {} s
  if !r.1.digit then none
  else do
    let exp ← addExponent r.1.exp r.2
    pure ((F64.ofNat r.1.mant.toNat).mul (.exp2 exp))

def isBinChar (b : UInt8) : Bool := b = ch '0' || b = ch '1' || b = ch '_'

def scanBinLoop : UInt64 → List UInt8 → Option UInt64
  | val, [] => some val
  | val, c :: s =>
    if c = ch '0' then scanBinLoop (val * 2) s
    else if c = ch '1' then scanBinLoop (val * 2 + 1) s
    else if c = ch '_' then scanBinLoop val s
    else none

def scanBinToU64 (s : List UInt8) : Option UInt64 := scanBinLoop 0 s

/-! ### Entry points -/

/-- The value of the digits and whether the text has to be parsed as a float. -/
def scanBody (body : List UInt8) : Option (UInt64 × Bool) :=
  if hasPrefix (ch 'x') body then scanHexToU64 (body.drop 2)
  else if hasPrefix (ch 'b') body then (scanBinToU64 (body.drop 2)).map (·, true)
  else scanDecToF64 body

/-- The number of the result: the text itself is parsed for a float without `LL` or `ULL`. -/
def fullValue (body : List UInt8) (suffix : NumSuffix) (p : UInt64 × Bool) : Option F64 :=
  if p.2 ∧ (suffix = .none ∨ suffix = .imag) then parseF64 body else some (.ofNat p.1.toNat)

def scanNumberFull (s : List UInt8) : Option ScanNumberResult :=
  if s = [] then none
  else do
    let p ← scanBody (splitSuffix s).1
    let n ← fullValue (splitSuffix s).1 (splitSuffix s).2 p
    pure ⟨n, if (splitSuffix s).2 = .imag then n.bits else p.1, (splitSuffix s).2⟩

/-- The loop of `dec_token_len`: whether a digit or a point came, and the length. -/
def decTokenLoop : (seenAny seenExp : Bool) → List UInt8 → Bool × ℕ
  | seenAny, _, [] => (seenAny, 0)
  | seenAny, seenExp, c :: s =>
    if Ascii.isDigit c then ((decTokenLoop true seenExp s).1, (decTokenLoop true seenExp s).2 + 1)
    else if c = ch '.' then
      if seenExp then (seenAny, 0)
      else ((decTokenLoop true seenExp s).1, (decTokenLoop true seenExp s).2 + 1)
    else if isExpMark c then
      if seenExp then (seenAny, 0)
      else
        match s with
        | d :: t =>
          if isSign d then ((decTokenLoop seenAny true t).1, (decTokenLoop seenAny true t).2 + 2)
          else ((decTokenLoop seenAny true (d :: t)).1, (decTokenLoop seenAny true (d :: t)).2 + 1)
        | [] => (seenAny, 1)
    else (seenAny, 0)

def decTokenLen (s : List UInt8) : ℕ :=
  let r := decTokenLoop false false (signed s).2
  if r.1 then s.length - (signed s).2.length + r.2 else 0

def hexTokenLen (s : List UInt8) : ℕ :=
  2 + ((s.drop 2).takeWhile fun c => Ascii.isHexdigit c || c = ch '.').length

def skipLeadingSpace (s : List UInt8) : List UInt8 := s.dropWhile Ascii.isWhitespace

def scanNumber (s : List UInt8) : Option F64 :=
  let rest := skipLeadingSpace s
  if rest = [] then none
  else if hasPrefix (ch 'x') rest then
    let e := hexTokenLen rest
    if e ≤ 2 ∨ ¬(rest.drop e).all Ascii.isWhitespace then none else scanHex (rest.take e)
  else
    let e := decTokenLen rest
    if e = 0 ∨ ¬(rest.drop e).all Ascii.isWhitespace then none else scanDec (rest.take e)

end Strscan
end LuajitRs
