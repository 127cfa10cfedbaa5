import LuajitRs.Runtime.Value
import LuajitRs.Util.Chars

/-! Character classes of Lua patterns. A pattern is interpreted in place: the functions take the whole
pattern and an index into it, and every index is checked as the runtime checks it. -/
namespace LuajitRs.Pattern

/-- The ways a pattern function fails to return: it faults, or it raises an error with a message. -/
inductive Stop
  | fault (f : Fault)
  | raise (msg : String)
  deriving DecidableEq, Repr

/-- Indexing a byte slice. -/
def byteAt (s : List UInt8) (i : ℕ) : Except Stop UInt8 :=
  match s[i]? with
  | some c => .ok c
  | none => .error (.fault .outOfBounds)

/-- The slice `s[a..b]`. -/
def slice (s : List UInt8) (a b : ℕ) : Except Stop (List UInt8) :=
  if a ≤ b ∧ b ≤ s.length then .ok ((s.take b).drop a) else .error (.fault .outOfBounds)

open Ascii in
/-- Whether a byte matches a class letter in lower case, or another byte literally. -/
def matchClass (c cl : UInt8) : Bool :=
  if cl = ch 'a' then isAlphabetic c
  else if cl = ch 'c' then isControl c
  else if cl = ch 'd' then Ascii.isDigit c
  else if cl = ch 'g' then isGraphic c
  else if cl = ch 'l' then isLowercase c
  else if cl = ch 'p' then isPunctuation c
  else if cl = ch 's' then isWhitespace c
  else if cl = ch 'u' then isUppercase c
  else if cl = ch 'w' then isAlphanumeric c
  else if cl = ch 'x' then isHexdigit c
  else if cl = ch 'z' then c = 0
  else c = cl

/-- A class letter, in either case. -/
def isClassLetter (cl : UInt8) : Bool :=
  (['a', 'c', 'd', 'g', 'l', 'p', 's', 'u', 'w', 'x', 'z'].map ch).contains (Ascii.toLowercase cl)

/-- The escape `%cl`: an upper-case class letter inverts its class. -/
def matchEscape (c cl : UInt8) : Bool :=
  if Ascii.isUppercase cl && isClassLetter cl then !matchClass c (Ascii.toLowercase cl) else matchClass c cl

section Sets
variable (c : UInt8) (pat : List UInt8)

/-- `i < pat.len() && pat[i] == b`. -/
def hasByte (i : ℕ) (b : UInt8) : Except Stop Bool :=
  if i < pat.length then (byteAt pat i).map (· == b) else .ok false

/-- The items of a set from `i` on. -/
def matchsetItems : ℕ → ℕ → Bool → Except Stop Bool
  | 0, _, _ => .error (.fault .diverge)
  | fuel+1, i, matched => do
    if i < pat.length then
      let p ← byteAt pat i
      if p = ch ']' then pure matched
      else if p = ch '%' ∧ i + 1 < pat.length then
        let cl ← byteAt pat (i + 1)
        matchsetItems fuel (i + 2) (matched || matchEscape c cl)
      else if i + 2 < pat.length then
        let dash ← byteAt pat (i + 1)
        let hi ← byteAt pat (i + 2)
        if dash = ch '-' ∧ hi ≠ ch ']' then matchsetItems fuel (i + 3) (matched || (p ≤ c && c ≤ hi))
        else matchsetItems fuel (i + 1) (matched || c = p)
      else matchsetItems fuel (i + 1) (matched || c = p)
    else pure matched

/-- Match a byte against the set at `pp`. -/
def matchset (pp : ℕ) : Except Stop Bool := do
  let negated ← hasByte pat (pp + 1) (ch '^')
  let i := if negated then pp + 2 else pp + 1
  -- A `]` that comes first is literal.
  let first ← hasByte pat i (ch ']')
  let matched ← if first then matchsetItems c pat (pat.length + 1) (i + 1) (c = ch ']')
    else matchsetItems c pat (pat.length + 1) i false
  pure (matched != negated)

/-- Match a byte against the single item at `pp`. -/
def singlematch (pp : ℕ) : Except Stop Bool := do
  let p ← byteAt pat pp
  if p = ch '.' then pure true
  else if p = ch '%' then
    let cl ← byteAt pat (pp + 1)
    pure (matchEscape c cl)
  else if p = ch '[' then matchset c pat pp
  else pure (c = p)

/-- The end of the items of a set. -/
def setEndFrom : ℕ → ℕ → Except Stop ℕ
  | 0, _ => .error (.fault .diverge)
  | fuel+1, i => do
    if i < pat.length then
      let p ← byteAt pat i
      if p = ch ']' then pure i
      else setEndFrom fuel (if p = ch '%' ∧ i + 1 < pat.length then i + 2 else i + 1)
    else pure i

/-- The index past the single item at `pp`. -/
def elementEnd (pp : ℕ) : Except Stop ℕ := do
  let p ← byteAt pat pp
  if p = ch '%' then pure (pp + 2)
  else if p = ch '[' then
    let negated ← hasByte pat (pp + 1) (ch '^')
    let i := if negated then pp + 2 else pp + 1
    let first ← hasByte pat i (ch ']')
    let close ← setEndFrom pat (pat.length + 1) (if first then i + 1 else i)
    pure (close + 1)
  else pure (pp + 1)

end Sets

end LuajitRs.Pattern

/-! The pattern matcher: the validator, and the recursive descent over pattern and text with captures that are
undone when a branch is abandoned. -/
namespace LuajitRs.Pattern

/-- `LUA_MAXCAPTURES`. -/
def LUA_MAXCAPTURES : ℕ := 32
/-- Match calls may nest this deep. -/
def MAXCCALLS : ℕ := 200

def isRepetition (c : UInt8) : Bool := c = ch '*' || c = ch '+' || c = ch '-' || c = ch '?'

/-! ### Validation -/

section Validate
variable (pat : List UInt8)

/-- The end of the items of a set, where each escape must have its byte. -/
def validateSetFrom : ℕ → ℕ → Except Stop ℕ
  | 0, _ => .error (.fault .diverge)
  | fuel+1, j => do
    if j < pat.length then
      let p ← byteAt pat j
      if p = ch ']' then pure (j + 1)
      else if p = ch '%' then
        if j + 1 < pat.length then validateSetFrom fuel (j + 2)
        else .error (.raise "malformed pattern (ends with '%')")
      else validateSetFrom fuel (j + 1)
    else .error (.raise "malformed pattern (missing ']')")

/-- Validate the set at `i` and return the index past it. -/
def validateSet (i : ℕ) : Except Stop ℕ := do
  let negated ← hasByte pat (i + 1) (ch '^')
  let j := if negated then i + 2 else i + 1
  let first ← hasByte pat j (ch ']')
  validateSetFrom pat (pat.length + 1) (if first then j + 1 else j)

/-- One item of the pattern: the index past it, or an error. -/
def validateItem (i : ℕ) : Except Stop ℕ := do
  let p ← byteAt pat i
  if p = ch '%' then
    if i + 1 < pat.length then
      let cl ← byteAt pat (i + 1)
      if cl = ch 'b' then
        if i + 3 < pat.length then pure (i + 4)
        else .error (.raise "malformed pattern (missing arguments to '%b')")
      else if cl = ch 'f' then
        if ← hasByte pat (i + 2) (ch '[') then validateSet pat (i + 2)
        else .error (.raise "missing '[' after '%f' in pattern")
      else pure (i + 2)
    else .error (.raise "malformed pattern (ends with '%')")
  else if p = ch '[' then validateSet pat i
  else pure (i + 1)

/-- Items from `i` on, each with an optional repetition suffix. -/
def validateFrom : ℕ → ℕ → Except Stop Unit
  | 0, _ => .error (.fault .diverge)
  | fuel+1, i => do
    if i < pat.length then
      let j ← validateItem pat i
      let suffix ← if j < pat.length then (byteAt pat j).map isRepetition else pure false
      validateFrom fuel (if suffix then j + 1 else j)
    else pure ()

/-- An anchor is not part of the items. -/
def patStart : ℕ := if pat.head? = some (ch '^') then 1 else 0

def validatePattern : Except Stop Unit := validateFrom pat (pat.length + 1) (patStart pat)

end Validate

/-! ### Matching -/

/-- The length of a capture, or what it is instead. -/
inductive CaptureLen
  | len (n : ℕ)
  | position
  | unfinished
  deriving DecidableEq, Repr

structure Capture where
  start : ℕ
  len : CaptureLen
  deriving DecidableEq, Repr

/-- The captures opened so far and a hard error. -/
structure MatchState where
  captures : List Capture
  error : Option String
  deriving DecidableEq, Repr

namespace MatchState

/-- The state before a match. -/
def reset : MatchState := ⟨[], none⟩
def fail (ms : MatchState) (e : String) : MatchState := { ms with error := some e }

end MatchState

/-- A matcher takes a text index, a pattern index and a state, and returns the end of a match, if any. -/
abbrev Matcher := ℕ → ℕ → MatchState → Except Stop (Option ℕ × MatchState)

section Matchers
variable (text pat : List UInt8)

/-- Advance over the bytes from `i` on that satisfy `p`. -/
def advanceWhile (p : UInt8 → Except Stop Bool) : ℕ → ℕ → Except Stop ℕ
  | 0, _ => .error (.fault .diverge)
  | fuel+1, i => do
    if i < text.length then
      let c ← byteAt text i
      if ← p c then advanceWhile p fuel (i + 1) else pure i
    else pure i

/-- How many bytes from `si` on match the item at `pp`. -/
def countMaxRepetition (si pp : ℕ) : Except Stop ℕ :=
  if text.length ≤ si then .ok 0
  else do
    let p ← byteAt pat pp
    let count (q : UInt8 → Except Stop Bool) : Except Stop ℕ := do
      let i ← advanceWhile text q (text.length + 1) si
      pure (i - si)
    if p = ch '.' then pure (text.length - si)
    else if p = ch '%' ∧ pp + 1 < pat.length then
      let cl ← byteAt pat (pp + 1)
      if isClassLetter cl then count fun c => .ok (matchClass c (Ascii.toLowercase cl) != Ascii.isUppercase cl)
      else count fun c => .ok (c = cl)
    else if p = ch '[' then count fun c => singlematch c pat pp
    else count fun c => .ok (c = p)

/-- `si < text.len()` and the byte there matches the item at `pp`. -/
def matchesHere (si pp : ℕ) : Except Stop Bool :=
  if si < text.length then do
    let c ← byteAt text si
    singlematch c pat pp
  else .ok false

section Steps
variable (call : Matcher)

/-- Try `count`, `count - 1`, .. repetitions, but at least `min`. -/
def greedyFrom (si rp min : ℕ) : ℕ → MatchState → Except Stop (Option ℕ × MatchState)
  | 0, ms => if min = 0 then call si rp ms else pure (none, ms)
  | count+1, ms =>
    if min ≤ count + 1 then do
      let (r, ms) ← call (si + (count + 1)) rp ms
      match r with
      | some e => pure (some e, ms)
      | none => greedyFrom si rp min count ms
    else pure (none, ms)

def matchGreedy (min : ℕ) (si pp rp : ℕ) (ms : MatchState) : Except Stop (Option ℕ × MatchState) := do
  let count ← countMaxRepetition text pat si pp
  greedyFrom call si rp min count ms

/-- Try the rest first, then one more byte. -/
def lazyFrom (pp rp : ℕ) : ℕ → ℕ → MatchState → Except Stop (Option ℕ × MatchState)
  | 0, _, _ => .error (.fault .diverge)
  | fuel+1, i, ms => do
    let (r, ms) ← call i rp ms
    match r with
    | some e => pure (some e, ms)
    | none => if ← matchesHere text pat i pp then lazyFrom pp rp fuel (i + 1) ms else pure (none, ms)

def matchLazy (si pp rp : ℕ) (ms : MatchState) : Except Stop (Option ℕ × MatchState) :=
  lazyFrom text pat call pp rp (text.length + 1) si ms

def matchOptional (si pp rp : ℕ) (ms : MatchState) : Except Stop (Option ℕ × MatchState) := do
  if ← matchesHere text pat si pp then
    let (r, ms) ← call (si + 1) rp ms
    match r with
    | some e => pure (some e, ms)
    | none => call si rp ms
  else call si rp ms

/-- Open a capture; there is room for 32. -/
def openCapture (len : CaptureLen) (si pp : ℕ) (ms : MatchState) : Except Stop (Option ℕ × MatchState) := do
  let n := ms.captures.length
  if LUA_MAXCAPTURES ≤ n then pure (none, ms)
  else
    let (r, ms) ← call si pp { ms with captures := ms.captures ++ [⟨si, len⟩] }
    pure (r, if r.isNone then { ms with captures := ms.captures.take n } else ms)

def matchOpenCapture : Matcher := openCapture call .unfinished
def matchPositionCapture : Matcher := openCapture call .position

/-- The last unfinished capture below `n`. -/
def lastUnfinished (captures : List Capture) : ℕ → Except Stop (Option (ℕ × Capture))
  | 0 => .ok none
  | n+1 =>
    match captures[n]? with
    | none => .error (.fault .outOfBounds)
    | some cap => if cap.len = .unfinished then .ok (some (n, cap)) else lastUnfinished captures n

/-- Close the most recent unfinished capture. -/
def matchCloseCapture (si pp : ℕ) (ms : MatchState) : Except Stop (Option ℕ × MatchState) := do
  match ← lastUnfinished ms.captures ms.captures.length with
  | none => pure (none, ms.fail "invalid pattern capture")
  | some (n, cap) =>
    if si < cap.start then .error (.fault .outOfBounds)
    else
      let (r, ms) ← call si pp { ms with captures := ms.captures.set n { cap with len := .len (si - cap.start) } }
      let undo (c : Capture) : Capture := { c with len := .unfinished }
      pure (r, if r.isNone then { ms with captures := ms.captures.modify n undo } else ms)

/-- The end of the text balanced from `i` on at the given depth, which is an `i32`. -/
def balancedFrom (opening closing : UInt8) : ℕ → ℕ → ℤ → Except Stop (ℕ × ℤ)
  | 0, _, _ => .error (.fault .diverge)
  | fuel+1, i, depth => do
    if i < text.length ∧ 0 < depth then
      let c ← byteAt text i
      if c = closing then balancedFrom opening closing fuel (i + 1) (depth - 1)
      else if c = opening then balancedFrom opening closing fuel (i + 1) ((depth + 1).bmod (2^32))
      else balancedFrom opening closing fuel (i + 1) depth
    else pure (i, depth)

/-- `%bxy`. -/
def matchBalanced (si pp : ℕ) (ms : MatchState) : Except Stop (Option ℕ × MatchState) := do
  if pat.length ≤ pp + 3 then pure (none, ms)
  else
    let opening ← byteAt pat (pp + 2)
    let closing ← byteAt pat (pp + 3)
    if si < text.length then
      if (← byteAt text si) = opening then
        let (i, depth) ← balancedFrom text opening closing (text.length + 1) (si + 1) 1
        if depth = 0 then call i (pp + 4) ms else pure (none, ms)
      else pure (none, ms)
    else pure (none, ms)

/-- The byte before `si`; zero before the text. -/
def prevChar (si : ℕ) : Except Stop UInt8 := if 0 < si then byteAt text (si - 1) else .ok 0
/-- The byte at `si`; zero behind the text. -/
def currChar (si : ℕ) : Except Stop UInt8 := if si < text.length then byteAt text si else .ok 0

/-- `%f[set]`. -/
def matchFrontier (si pp : ℕ) (ms : MatchState) : Except Stop (Option ℕ × MatchState) := do
  if ← hasByte pat (pp + 2) (ch '[') then
    let setEnd ← elementEnd pat (pp + 2)
    let prev ← prevChar text si
    let curr ← currChar text si
    let prevMatches ← singlematch prev pat (pp + 2)
    let currMatches ← singlematch curr pat (pp + 2)
    if !prevMatches && currMatches then call si setEnd ms else pure (none, ms)
  else pure (none, ms)

/-- Compare `n` bytes of the text at two indices. -/
def sameBytes (i j : ℕ) : ℕ → Except Stop Bool
  | 0 => .ok true
  | n+1 => do
    let a ← byteAt text i
    let b ← byteAt text j
    if a = b then sameBytes (i + 1) (j + 1) n else pure false

/-- A back reference `%0` to `%9`. -/
def matchBackref (si pp : ℕ) (ms : MatchState) : Except Stop (Option ℕ × MatchState) := do
  let n := ((← byteAt pat (pp + 1)) - ch '0').toNat
  if n = 0 ∨ ms.captures.length < n then pure (none, ms.fail s!"invalid capture index %{n}")
  else
    match ms.captures[n - 1]? with
    | none => .error (.fault .outOfBounds)
    | some ⟨start, .len l⟩ =>
      if text.length < si + l then pure (none, ms)
      else if ← sameBytes text si start l then call (si + l) (pp + 2) ms
      else pure (none, ms)
    | some _ => pure (none, ms.fail s!"invalid capture index %{n}")

/-- The byte behind an item. -/
def suffixAt (ep : ℕ) : Except Stop (Option UInt8) :=
  if ep < pat.length then (byteAt pat ep).map some else .ok none

/-- The single item at `pp`, with the repetition that follows it; without one, `next` goes on behind it. -/
def matchItem (next : Matcher) (si pp : ℕ) (ms : MatchState) : Except Stop (Option ℕ × MatchState) := do
  let ep ← elementEnd pat pp
  let suffix ← suffixAt pat ep
  if suffix = some (ch '*') then matchGreedy text pat call 0 si pp (ep + 1) ms
  else if suffix = some (ch '+') then matchGreedy text pat call 1 si pp (ep + 1) ms
  else if suffix = some (ch '-') then matchLazy text pat call si pp (ep + 1) ms
  else if suffix = some (ch '?') then matchOptional text pat call si pp (ep + 1) ms
  else if ← matchesHere text pat si pp then next (si + 1) ep ms
  else pure (none, ms)

/-- The loop over sequential items. -/
def matchInner : ℕ → Matcher
  | 0, _, _, _ => .error (.fault .diverge)
  | fuel+1, si, pp, ms => do
    if pat.length ≤ pp then pure (some si, ms)
    else
      let p ← byteAt pat pp
      if p = ch '(' then
        if ← hasByte pat (pp + 1) (ch ')') then matchPositionCapture call si (pp + 2) ms
        else matchOpenCapture call si (pp + 1) ms
      else if p = ch ')' then matchCloseCapture call si (pp + 1) ms
      else if p = ch '$' ∧ pat.length ≤ pp + 1 then pure (if si = text.length then some si else none, ms)
      else if p = ch '%' ∧ pp + 1 < pat.length then
        let cl ← byteAt pat (pp + 1)
        if cl = ch 'b' then matchBalanced text pat call si pp ms
        else if cl = ch 'f' then matchFrontier text pat call si pp ms
        else if Ascii.isDigit cl then matchBackref text pat call si pp ms
        else matchItem text pat call (matchInner fuel) si pp ms
      else matchItem text pat call (matchInner fuel) si pp ms

end Steps

/-- The recursive core, with `n` nested calls left. -/
def matchImpl : ℕ → Matcher
  | 0, _, _, ms => pure (none, if ms.error.isSome then ms else ms.fail "pattern too complex")
  | n+1, si, pp, ms =>
    if ms.error.isSome then pure (none, ms)
    else matchInner text pat (matchImpl n) (pat.length + 1) si pp ms

end Matchers

end LuajitRs.Pattern
