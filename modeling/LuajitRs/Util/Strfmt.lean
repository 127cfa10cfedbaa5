import LuajitRs.Runtime.Value
import LuajitRs.Util.Chars
import LuajitRs.Util.F64
import LuajitRs.Util.Strscan

/-! String formatting: the compiler of format strings, padding, and the conversions of integers, of `%c` and of `%q`.
A format that is compiled once is replayed over the arguments. -/
namespace LuajitRs

inductive FmtArg
  | num (x : F64)
  | str (s : List UInt8)

/-- `{:03o}` of a byte. -/
def octal3 (b : UInt8) : List UInt8 := [ch '0' + b / 64, ch '0' + b / 8 % 8, ch '0' + b % 8]

/-- What `%q` writes for one byte. -/
def quoteByte (b : UInt8) : List UInt8 :=
  if b = ch '"' ∨ b = ch '\\' then [ch '\\', b]
  else if b = 10 ∨ b = 13 then [ch '\\', b]
  else if b = 9 then [ch '\\', ch 't']
  else if b = 7 then [ch '\\', ch 'a']
  else if b = 8 then [ch '\\', ch 'b']
  else if b = 12 then [ch '\\', ch 'f']
  else if b = 11 then [ch '\\', ch 'v']
  else if b < 32 ∨ b = 127 then ch '\\' :: octal3 b
  else [b]

/-- The output of `%q`; only a string argument has a body. -/
def formatQ (a : FmtArg) : List UInt8 :=
  [ch '"'] ++ (match a with | .str s => s.flatMap quoteByte | .num _ => []) ++ [ch '"']

namespace Strfmt

/-- An error is a message of the library or a panic. -/
inductive FmtError
  | fault (f : Fault)
  | msg (s : String)
  deriving DecidableEq, Repr

/-! ### Conversion specs -/

/-- Parsed flags, width and precision of one conversion spec. -/
structure Spec where
  left : Bool
  zero : Bool
  space : Bool
  plus : Bool
  hash : Bool
  width : Option ℕ
  prec : Option ℕ
  deriving DecidableEq, Repr

def Spec.default : Spec := ⟨false, false, false, false, false, none, none⟩

def isFlag (b : UInt8) : Bool := b = ch '-' || b = ch '+' || b = ch ' ' || b = ch '#' || b = ch '0'

def Spec.setFlag (s : Spec) (b : UInt8) : Spec :=
  if b = ch '-' then { s with left := true }
  else if b = ch '+' then { s with plus := true }
  else if b = ch ' ' then { s with space := true }
  else if b = ch '#' then { s with hash := true }
  else { s with zero := true }

/-- `parse::<usize>` of digits, which fails on none and on a value that is too large. -/
def parseUsize (ds : List UInt8) : Option ℕ :=
  if ds = [] then none else if Strscan.natOf ds < 2^64 then some (Strscan.natOf ds) else none

/-- Parse the bytes between the percent sign and the conversion. -/
def parseSpecBytes (bs : List UInt8) : Spec :=
  let s := (bs.takeWhile isFlag).foldl Spec.setFlag .default
  let bs := bs.dropWhile isFlag
  let ws := bs.takeWhile Ascii.isDigit
  let s := if ws = [] then s else { s with width := parseUsize ws }
  let bs := bs.dropWhile Ascii.isDigit
  if bs.head? = some (ch '.') then { s with prec := parseUsize ((bs.drop 1).takeWhile Ascii.isDigit) } else s

/-! ### The compiler -/

/-- One unit of a compiled format string. -/
inductive FmtPart
  | lit (bs : List UInt8)
  | conv (s : Spec) (c : UInt8)
  deriving DecidableEq, Repr

/-- The bytes of a spec, and what follows them. -/
def scanSpec (bs : List UInt8) : List UInt8 × List UInt8 :=
  let flags := bs.takeWhile isFlag
  let bs := bs.dropWhile isFlag
  let ws := bs.takeWhile Ascii.isDigit
  let bs := bs.dropWhile Ascii.isDigit
  if bs.head? = some (ch '.') then
    (flags ++ ws ++ ch '.' :: (bs.drop 1).takeWhile Ascii.isDigit, (bs.drop 1).dropWhile Ascii.isDigit)
  else (flags ++ ws, bs)

theorem length_scanSpec (bs : List UInt8) : (scanSpec bs).2.length ≤ bs.length := by
  have hflags := (List.dropWhile_sublist (l := bs) isFlag).length_le
  have hdigits := (List.dropWhile_sublist (l := bs.dropWhile isFlag) Ascii.isDigit).length_le
  unfold scanSpec
  dsimp only
  split
  · have hprec := (List.dropWhile_sublist (l := ((bs.dropWhile isFlag).dropWhile Ascii.isDigit).drop 1)
      Ascii.isDigit).length_le
    rw [List.length_drop] at hprec
    dsimp only
    omega
  · dsimp only
    omega

/-- The literal run so far as a part. -/
def flush (lit : List UInt8) : List FmtPart := if lit = [] then [] else [.lit lit]

/-- Compile the rest of a format string behind a literal run. -/
def compileFrom (lit : List UInt8) (bs : List UInt8) : Except FmtError (List FmtPart) :=
  match bs with
  | [] => .ok (flush lit)
  | b :: bs =>
    if b = ch '%' then
      if bs.head? = some (ch '%') then do
        let parts ← compileFrom [] (bs.drop 1)
        pure (flush lit ++ .lit [ch '%'] :: parts)
      else
        match _h : (scanSpec bs).2 with
        | [] => .error (.msg "invalid conversion to 'format'")
        | c :: rest => do
          let parts ← compileFrom [] rest
          pure (flush lit ++ .conv (parseSpecBytes (scanSpec bs).1) c :: parts)
    else compileFrom (lit ++ [b]) bs
termination_by bs.length
decreasing_by
  · rw [List.length_drop, List.length_cons]
    omega
  · have := length_scanSpec bs
    rw [_h] at this
    simp only [List.length_cons] at this ⊢
    omega
  · simp

def compile (fmt : List UInt8) : Except FmtError (List FmtPart) := compileFrom [] fmt

/-! ### Padding -/

/-- A vector holds at most `isize::MAX` bytes. -/
def inCapacity (out : List UInt8) : Except Fault (List UInt8) :=
  if out.length < 2^63 then .ok out else .error .overflow

/-- Zero stands for no sign. -/
def signBytes (sign : UInt8) : List UInt8 := if sign ≠ 0 then [sign] else []

/-- Append digits with a sign and the padding of the spec. -/
def pushPadded (out : List UInt8) (s : Spec) (body : List UInt8) (sign : UInt8) (zeroWithPrec : Bool) :
    Except Fault (List UInt8) :=
  let total := (signBytes sign).length + body.length
  let w := s.width.getD 0
  if s.zero && !s.left && (zeroWithPrec || s.prec.isNone) && total < w then
    inCapacity (out ++ signBytes sign ++ .replicate (w - total) (ch '0') ++ body)
  else if s.left then inCapacity (out ++ signBytes sign ++ body ++ .replicate (w - total) (ch ' '))
  else inCapacity (out ++ .replicate (w - total) (ch ' ') ++ signBytes sign ++ body)

/-! ### Digits -/

/-- The loop of `itoa`, with room for so many digits in the buffer. -/
def itoaLoop : ℕ → ℤ → List UInt8 → Except Fault (List UInt8)
  | room, n, ds =>
    if n = 0 then .ok ds
    else
      match room with
      | 0 => .error .overflow
      | room + 1 => itoaLoop room (n.tdiv 10) ((ch '0' + UInt8.ofNat (n.tmod 10).natAbs) :: ds)

/-- The decimal digits of a signed word, without a sign. -/
def itoa (n : ℤ) : Except Fault (List UInt8) := if n = 0 then .ok [ch '0'] else itoaLoop 32 n []

/-- The loop of `utohex` and `utooct`: the low bits, then a shift. -/
def radixLoop (bits : ℕ) (digit : ℕ → UInt8) : ℕ → ℕ → List UInt8 → Except Fault (List UInt8)
  | room, n, ds =>
    if n = 0 then .ok ds
    else
      match room with
      | 0 => .error .overflow
      | room + 1 => radixLoop bits digit room (n >>> bits) (digit (n &&& (2^bits - 1)) :: ds)

def hexDigit (upper : Bool) (d : ℕ) : UInt8 :=
  if d < 10 then ch '0' + UInt8.ofNat d
  else if upper then ch 'A' + UInt8.ofNat d - 10
  else ch 'a' + UInt8.ofNat d - 10

def utohex (n : ℕ) (upper : Bool) : Except Fault (List UInt8) :=
  if n = 0 then .ok [ch '0'] else radixLoop 4 (hexDigit upper) 32 n []

def utooct (n : ℕ) : Except Fault (List UInt8) :=
  if n = 0 then .ok [ch '0'] else radixLoop 3 (fun d => ch '0' + UInt8.ofNat d) 32 n []

/-! ### The conversions -/

/-- The sign of `%d` and of `%i`. -/
def intSign (s : Spec) (n : ℤ) : UInt8 :=
  if n < 0 then ch '-' else if s.plus then ch '+' else if s.space then ch ' ' else 0

/-- The conversions of a word to an integer. -/
inductive IntConv
  | d | i | u | x | X | o
  deriving DecidableEq, Repr

def IntConv.byte : IntConv → UInt8
  | d => ch 'd'
  | i => ch 'i'
  | u => ch 'u'
  | x => ch 'x'
  | X => ch 'X'
  | o => ch 'o'

def IntConv.ofByte (b : UInt8) : Option IntConv := [d, i, u, x, X, o].find? fun c => c.byte = b

/-- What a conversion appends for the word `n`. -/
def pushInt (c : IntConv) (s : Spec) (out : List UInt8) (n : BitVec 64) : Except Fault (List UInt8) :=
  match c with
  | .d | .i => do
    let digits ← itoa n.toInt
    pushPadded out s digits (intSign s n.toInt) false
  | .u => do
    let digits ← itoa n.toInt
    pushPadded out s digits 0 false
  | .x => do
    let digits ← utohex n.toNat false
    pushPadded out s digits 0 false
  | .X => do
    let digits ← utohex n.toNat true
    pushPadded out s digits 0 false
  | .o => do
    let digits ← utooct n.toNat
    pushPadded out s digits 0 false

/-- What formatting takes from elsewhere: the standard library's number reader on trimmed text, and the conversions of
floats and of `%s`, which append to the output and take arguments. -/
structure FmtHost where
  parseF64 : List UInt8 → Option F64
  other : Spec → UInt8 → List FmtArg → List UInt8 → ℕ → Except FmtError (List UInt8 × ℕ)

/-- The next argument as a number, and the position behind it. -/
def nextNum (host : FmtHost) (args : List FmtArg) (ai : ℕ) : Except FmtError (F64 × ℕ) :=
  match args[ai]? with
  | none => .error (.msg "bad argument to 'format'")
  | some (.num x) => .ok (x, ai + 1)
  | some (.str s) =>
    match host.parseF64 s with
    | some x => .ok (x, ai + 1)
    | none => .error (.msg "bad argument to 'format' (number expected)")

/-- A panic as an error of the format. -/
def orPanic {α : Type} : Except Fault α → Except FmtError α
  | .ok a => .ok a
  | .error f => .error (.fault f)

/-- The conversions that `FmtHost.other` stands for. -/
def isOther (c : UInt8) : Bool := c ∈ "fFeEgGaAs".toList.map ch

/-- One conversion, with the output and the position in the arguments. -/
def formatConv (host : FmtHost) (args : List FmtArg) (s : Spec) (c : UInt8) (out : List UInt8) (ai : ℕ) :
    Except FmtError (List UInt8 × ℕ) :=
  match IntConv.ofByte c with
  | some c => do
    let r ← nextNum host args ai
    let out ← orPanic (pushInt c s out r.1.asInt64)
    pure (out, r.2)
  | none =>
    if c = ch 'c' then do
      let r ← nextNum host args ai
      pure (out ++ [UInt8.ofNat r.1.asInt64.toNat], r.2)
    else if isOther c then host.other s c args out ai
    else if c = ch 'q' then
      match args[ai]? with
      | none => .error (.msg "bad argument to 'format'")
      | some a => .ok (out ++ formatQ a, ai + 1)
    else .error (.msg ("invalid conversion '%" ++ String.singleton (Char.ofNat c.toNat) ++ "'"))

def formatFrom (host : FmtHost) (args : List FmtArg) : List FmtPart → List UInt8 → ℕ → Except FmtError (List UInt8)
  | [], out, _ => .ok out
  | .lit bs :: parts, out, ai => formatFrom host args parts (out ++ bs) ai
  | .conv s c :: parts, out, ai => do
    let r ← formatConv host args s c out ai
    formatFrom host args parts r.1 r.2

def formatParts (host : FmtHost) (parts : List FmtPart) (args : List FmtArg) : Except FmtError (List UInt8) :=
  formatFrom host args parts [] 0

def format (host : FmtHost) (fmt : List UInt8) (args : List FmtArg) : Except FmtError (List UInt8) := do
  let parts ← compile fmt
  formatParts host parts args

end Strfmt
end LuajitRs
