import LuajitRs.Stdlib.Pattern.Engine

/-! Searching: `find` with the byte search that plain patterns take, `find_all_matches`, and the library functions
`string.find`, `string.match` and the iterator of `string.gmatch`. -/
namespace LuajitRs.Pattern

/-- A capture as it is returned: a span of the text, or a 1-based position. -/
inductive CaptureValue
  | substring (start stop : ℕ)
  | position (p : ℕ)
  deriving DecidableEq, Repr

/-- All captures of a match must be finished. -/
def checkCaptures (ms : MatchState) : Except Stop Unit :=
  if ms.captures.any (·.len = .unfinished) then .error (.raise "unfinished capture") else .ok ()

def Capture.value (cap : Capture) : Option CaptureValue :=
  match cap.len with
  | .position => some (.position (cap.start + 1))
  | .len n => some (.substring cap.start (cap.start + n))
  | .unfinished => none

def extractCaptures (ms : MatchState) : List CaptureValue := ms.captures.filterMap Capture.value

/-- The bytes that rule out the byte search. -/
def isPlainPattern (pat : List UInt8) : Bool :=
  !pat.any fun c => (['%', '.', '[', '*', '+', '-', '?', '^', '$', '('].map ch).contains c

/-! ### Byte search -/

/-- The first index from `i` on where the needle `first :: rest` stands. -/
def findBytesFrom (haystack : List UInt8) (first : UInt8) (rest : List UInt8) : ℕ → ℕ → Except Stop (Option ℕ)
  | 0, _ => .error (.fault .diverge)
  | fuel+1, i => do
    if i + (rest.length + 1) ≤ haystack.length then
      let c ← byteAt haystack i
      let tail ← slice haystack (i + 1) (i + (rest.length + 1))
      if c = first ∧ tail = rest then pure (some i) else findBytesFrom haystack first rest fuel (i + 1)
    else pure none

def findBytesInSlice (haystack needle : List UInt8) : Except Stop (Option ℕ) :=
  if haystack.length < needle.length then .ok none
  else
    match needle with
    | [] => .ok (some 0)
    | [b] => .ok (haystack.findIdx? (· == b))
    | first :: rest => findBytesFrom haystack first rest (haystack.length + 1) 0

/-! ### Finding -/

/-- A match: its span and its captures. -/
structure MatchInfo where
  start : ℕ
  stop : ℕ
  captures : List CaptureValue
  deriving DecidableEq, Repr

section Find
variable (text pat : List UInt8)

def anchored : Bool := patStart pat = 1

/-- One attempt at `si`: the end of the match with its captures, no match, or an error. -/
def attempt (si : ℕ) : Except Stop (Option (ℕ × MatchState)) := do
  let (r, ms) ← matchImpl text pat MAXCCALLS si (patStart pat) .reset
  match r with
  | some stop =>
    checkCaptures ms
    pure (some (stop, ms))
  | none =>
    match ms.error with
    | some e => .error (.raise e)
    | none => pure none

/-- Attempts from `si` on. -/
def findLoop : ℕ → ℕ → Except Stop (Option MatchInfo)
  | 0, _ => .error (.fault .diverge)
  | fuel+1, si => do
    match ← attempt text pat si with
    | some (stop, ms) => pure (some ⟨si, stop, extractCaptures ms⟩)
    | none => if anchored pat || text.length ≤ si then pure none else findLoop fuel (si + 1)

/-- The search of the matcher, without the byte search. -/
def findMatch (init : ℕ) (shouldValidate : Bool) : Except Stop (Option MatchInfo) := do
  if shouldValidate then validatePattern pat
  findLoop text pat (text.length + 1) init

/-- The byte search for a plain pattern. -/
def findPlain (init : ℕ) : Except Stop (Option MatchInfo) := do
  let rest ← slice text init text.length
  match ← findBytesInSlice rest pat with
  | some pos => pure (some ⟨init + pos, init + pos + pat.length, []⟩)
  | none => pure none

def findImpl (init : ℕ) (shouldValidate : Bool) : Except Stop (Option MatchInfo) :=
  if text.length < init then .ok none
  else if isPlainPattern pat then findPlain text pat init
  else findMatch text pat init shouldValidate

def find (init : ℕ) : Except Stop (Option MatchInfo) := findImpl text pat init true
def findAssumeValid (init : ℕ) : Except Stop (Option MatchInfo) := findImpl text pat init false

/-- No more than the allowed number of matches. -/
def limitReached (max : Option ℕ) (count : ℕ) : Bool := max.any (· ≤ count)

/-- All matches from `si` on, but for an empty one directly behind a non-empty one. -/
def findAllLoop (max : Option ℕ) : ℕ → ℕ → Bool → List MatchInfo → Except Stop (List MatchInfo)
  | 0, _, _, _ => .error (.fault .diverge)
  | fuel+1, si, lastNonempty, found => do
    if text.length < si ∨ limitReached max found.length then pure found
    else
      match ← attempt text pat si with
      | some (stop, ms) =>
        if stop = si ∧ lastNonempty then findAllLoop max fuel (if si < text.length then si + 1 else si) false found
        else if stop = si then
          if si < text.length then findAllLoop max fuel (si + 1) false (found ++ [⟨si, stop, extractCaptures ms⟩])
          else pure (found ++ [⟨si, stop, extractCaptures ms⟩])
        else findAllLoop max fuel stop true (found ++ [⟨si, stop, extractCaptures ms⟩])
      | none =>
        if anchored pat || text.length ≤ si then pure found else findAllLoop max fuel (si + 1) false found

def findAllPlainLoop (max : Option ℕ) : ℕ → ℕ → List MatchInfo → Except Stop (List MatchInfo)
  | 0, _, _ => .error (.fault .diverge)
  | fuel+1, pos, found => do
    if text.length < pos ∨ limitReached max found.length then pure found
    else
      let rest ← slice text pos text.length
      match ← findBytesInSlice rest pat with
      | some i => findAllPlainLoop max fuel (pos + i + pat.length) (found ++ [⟨pos + i, pos + i + pat.length, []⟩])
      | none => pure found

def findAllMatches (init : ℕ) (max : Option ℕ) : Except Stop (List MatchInfo) := do
  if isPlainPattern pat ∧ pat ≠ [] then findAllPlainLoop text pat max (text.length + 2) init []
  else
    validatePattern pat
    findAllLoop text pat max (text.length + 3) init false []

/-! ### Library functions -/

/-- A value made from a match: a string or a position. -/
inductive Arg
  | str (bytes : List UInt8)
  | pos (p : ℕ)
  deriving DecidableEq, Repr

/-- Interning a capture slices the text. -/
def CaptureValue.arg : CaptureValue → Except Stop Arg
  | substring start stop => do
    let bytes ← slice text start stop
    pure (.str bytes)
  | position p => pure (.pos p)

/-- The captures of a match, or the whole match where it has none. -/
def matchArgs (m : MatchInfo) : Except Stop (List Arg) :=
  if m.captures.isEmpty then do
    let bytes ← slice text m.start m.stop
    pure [.str bytes]
  else m.captures.mapM (CaptureValue.arg text)

/-- `string.find` with a pattern, from the 1-based `init`: the 1-based span and the captures. -/
def strFind (init : ℕ) : Except Stop (Option (ℕ × ℕ × List Arg)) := do
  match ← find text pat (init - 1) with
  | some m =>
    let caps ← m.captures.mapM (CaptureValue.arg text)
    pure (some (m.start + 1, m.stop, caps))
  | none => pure none

def strMatch (init : ℕ) : Except Stop (Option (List Arg)) := do
  match ← find text pat (init - 1) with
  | some m =>
    let args ← matchArgs text m
    pure (some args)
  | none => pure none

/-- A call of the iterator, which keeps its 1-based position in an upvalue; an error ends the iteration. -/
def gmatchIter (pos : ℕ) : Except Stop (Option (List Arg) × ℕ) :=
  match find text pat (pos - 1) with
  | .ok (some m) => do
    let args ← matchArgs text m
    pure (some args, (if m.stop = m.start then m.start + 1 else m.stop) + 1)
  | .ok none => .ok (none, pos)
  | .error (.raise _) => .ok (none, pos)
  | .error (.fault f) => .error (.fault f)

end Find

end LuajitRs.Pattern

/-! `string.gsub` with its three kinds of replacement: a string, a function and a table. Each has a scanning loop,
and plain patterns with a string replacement have one more. -/
namespace LuajitRs.Pattern

/-- The outcome of a substitution. The code does not keep `visits`: it records the spans that were replaced. -/
structure Subst where
  out : List UInt8
  count : ℕ
  visits : List (ℕ × ℕ)
  deriving DecidableEq, Repr

namespace Subst

def start : Subst := ⟨[], 0, []⟩
def push (r : Subst) (bytes : List UInt8) : Subst := { r with out := r.out ++ bytes }
/-- Replace the span by `piece`. -/
def replace (r : Subst) (span : ℕ × ℕ) (piece : List UInt8) : Subst :=
  ⟨r.out ++ piece, r.count + 1, r.visits ++ [span]⟩

end Subst

/-- Copy the text behind the last match. -/
def copyRest (text : List UInt8) (r : Subst × ℕ) : Except Stop Subst := do
  let rest ← slice text r.2 text.length
  pure (r.1.push rest)

/-! ### Replacement strings -/

/-- What `%d` stands for; `capture` gives the text of a digit. -/
def escapePiece (capture : UInt8 → Except Stop (List UInt8)) (d : UInt8) : Except Stop (List UInt8) :=
  if d = ch '%' then .ok [ch '%']
  else if Ascii.isDigit d then capture d
  else .error (.raise "invalid use of '%' in replacement string")

/-- A replacement with its escapes substituted; a `%` at the end is literal. -/
def substitute (capture : UInt8 → Except Stop (List UInt8)) : List UInt8 → Except Stop (List UInt8)
  | [] => .ok []
  | [c] => .ok [c]
  | c :: d :: rest =>
    if c = ch '%' then do
      let piece ← escapePiece capture d
      let out ← substitute capture rest
      pure (piece ++ out)
    else do
      let out ← substitute capture (d :: rest)
      pure (c :: out)

/-- `%0` to `%9` after a match of the matcher. -/
def substituteCapturesBytes (repl full text : List UInt8) (ms : MatchState) : Except Stop (List UInt8) :=
  substitute (fun d =>
    let n := (d - ch '0').toNat
    if n = 0 then .ok full
    else if n ≤ ms.captures.length then
      match ms.captures[n - 1]? with
      | none => .error (.fault .outOfBounds)
      | some ⟨start, .len l⟩ => slice text start (start + l)
      | some ⟨start, .position⟩ => .ok (decimalUpTo 20 (start + 1))
      | some ⟨_, .unfinished⟩ => .ok []
    else if ms.captures.length = 0 ∧ n = 1 then .ok full
    else .error (.raise s!"invalid capture index %{n}")) repl

/-- `%0` and `%1` after a byte search. -/
def substitutePlainBytes (repl full : List UInt8) : Except Stop (List UInt8) :=
  substitute (fun d =>
    if d = ch '0' then .ok full
    else if d = ch '1' then .ok full
    else
      let n := (d - ch '0').toNat
      .error (.raise s!"invalid capture index %{n}")) repl

/-! ### With a string -/

section Text
variable (text pat repl : List UInt8) (max : Option ℕ)

/-- The bytes that replace a match. -/
def gsubPiece (si stop : ℕ) (ms : MatchState) : Except Stop (List UInt8) :=
  if repl.contains (ch '%') then do
    let full ← slice text si stop
    substituteCapturesBytes repl full text ms
  else .ok repl

/-- Behind an empty match, the byte at `si` is copied. -/
def copyByte (si lastByteEnd : ℕ) (r : Subst) : Except Stop (Subst × ℕ) :=
  if si < text.length then do
    let c ← byteAt text si
    pure (r.push [c], si + 1)
  else .ok (r, lastByteEnd)

/-- The scan from `si` on; the text is copied up to `lastByteEnd`. -/
def gsubLoop : ℕ → ℕ → Bool → ℕ → Subst → Except Stop (Subst × ℕ)
  | 0, _, _, _, _ => .error (.fault .diverge)
  | fuel+1, si, lastNonempty, lastByteEnd, r => do
    if text.length < si ∨ limitReached max r.count then pure (r, lastByteEnd)
    else
      match ← attempt text pat si with
      | some (stop, ms) =>
        if stop = si ∧ lastNonempty then
          let (r, lastByteEnd) ← copyByte text si lastByteEnd r
          gsubLoop fuel (si + 1) false lastByteEnd r
        else
          let between ← slice text lastByteEnd si
          let piece ← gsubPiece text repl si stop ms
          let r := (r.push between).replace (si, stop) piece
          if stop = si then
            let (r, lastByteEnd) ← copyByte text si stop r
            gsubLoop fuel (si + 1) false lastByteEnd r
          else gsubLoop fuel stop true stop r
      | none =>
        if anchored pat || text.length ≤ si then pure (r, lastByteEnd)
        else gsubLoop fuel (si + 1) false lastByteEnd r

/-- The matcher's substitution, without the byte search. -/
def gsubMatch : Except Stop Subst := do
  validatePattern pat
  let r ← gsubLoop text pat repl max (text.length + 2) 0 false 0 .start
  copyRest text r

def plainPiece (full : List UInt8) : Except Stop (List UInt8) :=
  if repl.contains (ch '%') then substitutePlainBytes repl full else .ok repl

/-- The byte search from `pos` on. -/
def gsubPlainLoop : ℕ → ℕ → Subst → Except Stop (Subst × ℕ)
  | 0, _, _ => .error (.fault .diverge)
  | fuel+1, pos, r => do
    if text.length < pos ∨ limitReached max r.count then pure (r, pos)
    else
      let rest ← slice text pos text.length
      match ← findBytesInSlice rest pat with
      | some found =>
        let between ← slice text pos (pos + found)
        let full ← slice text (pos + found) (pos + found + pat.length)
        let piece ← plainPiece repl full
        gsubPlainLoop fuel (pos + found + pat.length)
          ((r.push between).replace (pos + found, pos + found + pat.length) piece)
      | none => pure (r, pos)

def gsubPlain : Except Stop Subst := do
  let r ← gsubPlainLoop text pat repl max (text.length + 2) 0 .start
  copyRest text r

def gsub : Except Stop Subst :=
  if isPlainPattern pat ∧ pat ≠ [] then gsubPlain text pat repl max else gsubMatch text pat repl max

end Text

/-! ### With a function or a table -/

/-- What a replacement function or table yields: `g14` is the text of a number, `tostring` that of any other
value. -/
inductive ReplValue
  | nil
  | false
  | str (bytes : List UInt8)
  | num (g14 : List UInt8)
  | other (typeName : String) (tostring : List UInt8)
  deriving DecidableEq, Repr

section Find
variable (text pat : List UInt8) (max : Option ℕ)

/-- The scan both loops make: `find` from `pos`, and `piece` is what replaces the match with this number. -/
def gsubFindLoop (piece : ℕ → MatchInfo → Except Stop (List UInt8)) :
    ℕ → ℕ → Subst → Except Stop (Subst × ℕ)
  | 0, _, _ => .error (.fault .diverge)
  | fuel+1, pos, r => do
    if limitReached max r.count then pure (r, pos)
    else
      match ← find text pat pos with
      | some m =>
        let between ← slice text pos m.start
        let bytes ← piece r.count m
        let r := (r.push between).replace (m.start, m.stop) bytes
        if m.stop = m.start then
          if m.stop = text.length then pure (r, pos)
          else
            let c ← byteAt text m.stop
            gsubFindLoop piece fuel (m.stop + 1) (r.push [c])
        else gsubFindLoop piece fuel m.stop r
      | none => pure (r, pos)

def gsubFind (piece : ℕ → MatchInfo → Except Stop (List UInt8)) : Except Stop Subst := do
  let r ← gsubFindLoop text pat max piece (text.length + 2) 0 .start
  copyRest text r

/-- What a function's result stands for; `nil` and `false` keep the match. -/
def fnPiece (call : ℕ → List Arg → Except Stop ReplValue) (i : ℕ) (m : MatchInfo) : Except Stop (List UInt8) := do
  let args ← matchArgs text m
  match ← call i args with
  | .nil | .false => slice text m.start m.stop
  | .str bytes => pure bytes
  | .num g14 => pure g14
  | .other _ tostring => pure tostring

/-- The key of the replacement table: the first capture, or the whole match. -/
def tabKey (m : MatchInfo) : Except Stop Arg :=
  match m.captures with
  | cap :: _ => cap.arg text
  | [] => do
    let bytes ← slice text m.start m.stop
    pure (.str bytes)

def tabPiece (get : ℕ → Arg → Except Stop ReplValue) (i : ℕ) (m : MatchInfo) : Except Stop (List UInt8) := do
  let key ← tabKey text m
  match ← get i key with
  | .nil | .false => slice text m.start m.stop
  | .str bytes => pure bytes
  | .num g14 => pure g14
  | .other typeName _ => .error (.raise s!"invalid replacement value (a {typeName})")

/-- `call i args` is the result of the `i`-th call of the function. -/
def gsubFn (call : ℕ → List Arg → Except Stop ReplValue) : Except Stop Subst :=
  gsubFind text pat max (fnPiece text call)

/-- `get i key` is the result of the `i`-th lookup in the table. -/
def gsubTab (get : ℕ → Arg → Except Stop ReplValue) : Except Stop Subst :=
  gsubFind text pat max (tabPiece text get)

end Find

end LuajitRs.Pattern
