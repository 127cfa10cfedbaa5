import LuajitRs.Compiler.Lex.Lookahead

/-! `loadstring` and `load`: the name of a chunk, and the lexer that reads its source. The name is cut at a byte
offset, which has to be the first byte of a character. -/
namespace LuajitRs
open Lib

/-! ### Slices of a string -/

namespace RustStr

/-- The length of a string in bytes. -/
def len (s : List Char) : ℕ := (s.map Char.utf8Size).sum

/-- The number of characters before a byte offset, if the offset is at the start of a character. -/
def charIndex : List Char → ℕ → Option ℕ
  | _, 0 => some 0
  | [], _ + 1 => none
  | c :: s, i => if c.utf8Size ≤ i then (charIndex s (i - c.utf8Size)).map (· + 1) else none

def isCharBoundary (s : List Char) (i : ℕ) : Bool := (charIndex s i).isSome

/-- `&s[lo..hi]`, which panics in the middle of a character. -/
def slice (s : List Char) (lo hi : ℕ) : Load (List Char) :=
  match charIndex s lo, charIndex s hi with
  | some i, some j => if lo ≤ hi then .ok ((s.drop i).take (j - i)) else .error .panic
  | _, _ => .error .panic

/-- `s.find([..])` for characters that satisfy `p`. -/
def find (p : Char → Bool) (s : List Char) : Option ℕ := if s.any p then some (len (s.takeWhile fun c => !p c)) else none

theorem charIndex_take (s : List Char) (n : ℕ) (hn : n ≤ s.length) : charIndex s (len (s.take n)) = some n := by
  induction s generalizing n with
  | nil =>
    obtain rfl : n = 0 := Nat.le_zero.mp hn
    rfl
  | cons c s ih =>
    cases n with
    | zero => rfl
    | succ n =>
      have hpos := c.utf8Size_pos
      have hlen : len ((c :: s).take (n + 1)) = c.utf8Size + len (s.take n) := by
        rw [List.take_succ_cons, len, List.map_cons, List.sum_cons, len]
      rw [hlen]
      obtain ⟨k, hk⟩ : ∃ k, c.utf8Size + len (s.take n) = k + 1 := ⟨c.utf8Size + len (s.take n) - 1, by omega⟩
      have hrest : k + 1 - c.utf8Size = len (s.take n) := by omega
      have hle : c.utf8Size ≤ k + 1 := by omega
      rw [hk, charIndex, if_pos hle, hrest, ih n (Nat.le_of_succ_le_succ hn)]
      · rfl
      · exact fun h => nomatch h

/-- A found character starts at a boundary, as the end of the string does. -/
theorem isCharBoundary_find (p : Char → Bool) (s : List Char) : isCharBoundary s ((find p s).getD (len s)) = true := by
  rw [isCharBoundary, find]
  split
  · have hpre : s.takeWhile (fun c => !p c) = s.take (s.takeWhile fun c => !p c).length :=
      List.prefix_iff_eq_take.mp (List.takeWhile_prefix _)
    rw [Option.getD_some, hpre, charIndex_take s _ (List.takeWhile_prefix _).length_le]
    rfl
  · have hall := charIndex_take s s.length le_rfl
    rw [List.take_length] at hall
    rw [Option.getD_none, hall]
    rfl

theorem slice_ok_iff {s : List Char} {lo hi : ℕ} (hhi : isCharBoundary s hi = true) (hle : lo ≤ hi) :
    (∃ t, slice s lo hi = .ok t) ↔ isCharBoundary s lo = true := by
  rw [slice]
  rw [isCharBoundary, Option.isSome_iff_exists] at hhi ⊢
  obtain ⟨j, hj⟩ := hhi
  rw [hj]
  cases charIndex s lo with
  | none => exact iff_of_false (fun ⟨t, ht⟩ => nomatch ht) (fun ⟨i, hi⟩ => nomatch hi)
  | some i => exact ⟨fun _ => ⟨i, rfl⟩, fun _ => ⟨_, if_pos hle⟩⟩

end RustStr

/-! ### The name of a chunk -/

/-- The second argument. -/
inductive ChunkArg
  | absent
  | nil
  | str (s : List UInt8)
  | other

/-- The name before it is made readable. -/
def loadstringName (src : List UInt8) : ChunkArg → List Char
  | .absent | .nil => Utf8.lossy 0 src
  | .str s => Utf8.lossy 0 s
  | .other => "=(loadstring)".toList

def loadName : ChunkArg → List Char
  | .str s => Utf8.lossy 0 s
  | _ => "=(load)".toList

def isNewline (c : Char) : Bool := c = '\n' || c = '\r'

/-- The length in bytes of the first line. -/
def firstLine (name : List Char) : ℕ := (RustStr.find isNewline name).getD (RustStr.len name)

/-- A name that is used as it is. -/
def isLiteral (name : List Char) : Bool := name.head? = some '@' || name.head? = some '='

/-- A name of one line that is short enough to be shown whole. -/
def isShort (name : List Char) : Bool := firstLine name = RustStr.len name && RustStr.len name ≤ 45

/-- The name of a chunk as `loadstring` shows it: a longer one keeps the last 45 bytes of its first line. -/
def chunkName (name : List Char) : Load (List Char) :=
  if isLiteral name then .ok name
  else if isShort name then .ok ("[string \"".toList ++ name ++ "\"]".toList)
  else do
    let cut ← RustStr.slice name (firstLine name - 45) (firstLine name)
    pure ("[string \"".toList ++ cut ++ "...\"]".toList)

/-- The name can be shown: nothing is cut from it, or its first line is cut between two characters. -/
def Showable (name : List Char) : Prop :=
  isLiteral name = true ∨ isShort name = true ∨ RustStr.isCharBoundary name (firstLine name - 45) = true

theorem isCharBoundary_firstLine (name : List Char) : RustStr.isCharBoundary name (firstLine name) = true :=
  RustStr.isCharBoundary_find isNewline name

theorem chunkName_ok_iff (name : List Char) : (∃ s, chunkName name = .ok s) ↔ Showable name := by
  rw [chunkName, Showable]
  split
  · next h => exact iff_of_true ⟨_, rfl⟩ (.inl h)
  · next h =>
    rw [or_iff_right h]
    split
    · next hs => exact iff_of_true ⟨_, rfl⟩ (.inl hs)
    · next hs =>
      rw [or_iff_right hs, ← RustStr.slice_ok_iff (isCharBoundary_firstLine name) (Nat.sub_le _ 45)]
      cases RustStr.slice name (firstLine name - 45) (firstLine name) with
      | ok t => exact iff_of_true ⟨_, rfl⟩ ⟨t, rfl⟩
      | error e => exact iff_of_false (fun ⟨s, hs⟩ => nomatch hs) (fun ⟨t, ht⟩ => nomatch ht)

/-! ### Reading a source -/

/-- What the parser does with a lexer: it takes the next token, or looks at the one behind. -/
inductive Lexer.Reaches : Lexer → Lexer → Prop
  | refl (lx : Lexer) : Reaches lx lx
  | next {a b c : Lexer} (h : Reaches a b) (hn : b.next = .ok c) : Reaches a c
  | peek {a b c : Lexer} (h : Reaches a b) (hp : b.peek = .ok c) : Reaches a c

/-- A source is read to its end: its chunk gets a name, the lexer starts, and from wherever the parser gets with it,
the next token, the look-ahead, an error message and all the tokens that follow come or are refused. -/
def ReadsSource (src : List UInt8) (name : Load (List Char)) : Prop :=
  ∃ s lx₀, name = .ok s ∧ Lexer.new src (String.ofList s) = .ok lx₀ ∧ ∀ lx, lx₀.Reaches lx →
    Loads lx.next (fun _ => True) ∧ Loads lx.peek (fun _ => True) ∧ (∀ msg, Loads (lx.errNear msg : Load Unit) fun _ => False) ∧
      Loads (lx.tokens (lx.left + 1)) fun _ => True

theorem readsSource_iff (src : List UInt8) (name : Load (List Char)) : ReadsSource src name ↔ ∃ s, name = .ok s := by
  refine ⟨fun ⟨s, _, hs, _⟩ => ⟨s, hs⟩, fun ⟨s, hs⟩ => ?_⟩
  obtain ⟨lx₀, hlx₀⟩ := Lexer.exists_new src (String.ofList s)
  refine ⟨s, lx₀, hs, hlx₀, fun lx _ => ⟨?_, Lexer.loads_peek, Lexer.loads_errNear, ?_⟩⟩
  · exact Lexer.loads_next.mono fun _ _ => trivial
  · exact Lexer.loads_tokens _ (Nat.lt_succ_self _)

/-- `load` reads every source; `loadstring` does exactly if the name of the chunk can be shown. -/
theorem loading_total_iff (src : List UInt8) (arg : ChunkArg) : ReadsSource src (.ok (loadName arg)) ∧
    (ReadsSource src (chunkName (loadstringName src arg)) ↔ Showable (loadstringName src arg)) :=
  ⟨(readsSource_iff _ _).mpr ⟨_, rfl⟩, (readsSource_iff _ _).trans (chunkName_ok_iff _)⟩

/-- A source of 24 times the same two bytes is cut in the middle of a character. -/
theorem cut_in_character : ∃ src, ¬ ReadsSource src (chunkName (loadstringName src .absent)) := by
  refine ⟨Utf8.encode (List.replicate 24 'é'), ?_⟩
  have hname : loadstringName (Utf8.encode (List.replicate 24 'é')) .absent = List.replicate 24 'é' := Utf8.lossy_encode _
  rw [hname, readsSource_iff, chunkName_ok_iff, Showable]
  decide

end LuajitRs
