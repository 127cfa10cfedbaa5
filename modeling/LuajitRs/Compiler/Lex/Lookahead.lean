import LuajitRs.Compiler.Lex.Tokens
import LuajitRs.Lib.Bytes

/-! The current token and one token of look-ahead. A lexer that has been started can be asked for tokens without
end, and the source text of its current token can always be quoted. -/
namespace LuajitRs
open Lib

/-- The lexer with its current token, which starts within the text that has been read. -/
structure Lexer where
  src : List UInt8
  ls : LexState
  tokStart : ℕ
  current : Token
  lookahead : Token
  lastline : ℕ
  read : ls.remaining ≤ src.length
  started : tokStart + ls.rest.length ≤ src.length

namespace Lexer
variable (lx : Lexer)

/-- How much of the source has been read. -/
def pos : ℕ := lx.src.length - lx.ls.rest.length

theorem rest_le_remaining (ls : LexState) : ls.rest.length ≤ ls.remaining := Nat.le_add_right _ _

theorem remaining_le_succ (ls : LexState) : ls.remaining ≤ ls.rest.length + 1 := by
  rw [LexState.remaining]
  cases ls.c <;> simp

theorem remaining_scan {r : Token × LexState × TokVal} (h : lx.ls.scan lx.current.val = .ok r) :
    r.2.1.remaining ≤ lx.ls.remaining := by
  have hpass := Ensures.of_ok (LexState.loads_scan lx.ls lx.current.val) h
  cases hpass with
  | inl h => exact h.le
  | inr h => exact h.1.le

theorem started_scan {r : Token × LexState × TokVal} (h : lx.ls.scan lx.current.val = .ok r) :
    lx.pos - 1 + r.2.1.rest.length ≤ lx.src.length := by
  have hle := lx.remaining_scan h
  have hread := lx.read
  have h1 := rest_le_remaining r.2.1
  have h2 := remaining_le_succ lx.ls
  have h3 := rest_le_remaining lx.ls
  rw [pos]
  omega

/-- The next token, with the lexer behind it. -/
def scan : Load (Token × Lexer) :=
  match h : lx.ls.scan lx.current.val with
  | .ok r =>
    .ok (r.1, { lx with
      ls := r.2.1, tokStart := lx.pos - 1, current := { lx.current with val := r.2.2 }
      read := (lx.remaining_scan h).trans lx.read, started := lx.started_scan h })
  | .error e => .error e

def eof : Token := ⟨.eof, {}, []⟩

def next : Load Lexer :=
  if lx.lookahead.tok = .eof then
    lx.scan.map fun r => { r.2 with current := r.1, lastline := lx.ls.linenumber }
  else .ok { lx with current := lx.lookahead, lookahead := eof, lastline := lx.ls.linenumber }

def peek : Load Lexer := lx.scan.map fun r => { r.2 with lookahead := r.1 }

/-- The text of the current token, as an error message quotes it. -/
def near : Load String :=
  match lx.current.tok with
  | .str => (Load.slice lx.src lx.tokStart lx.pos).map fun s => String.ofList (Utf8.lossy 0 s)
  | .name => .ok (String.ofList (Utf8.lossy 0 lx.current.str))
  | .number => .ok (String.ofList (Utf8.lossy 0 lx.ls.sb))
  | t => .ok (tok2str t)

def errNear {α : Type} (msg : String) : Load α := do
  let near ← lx.near
  Load.lex (lx.ls.error s!"{msg} near '{near}'")

/-- Taking tokens up to the end of the source. -/
def tokens : (fuel : ℕ) → Lexer → Load (List Token)
  | 0, _ => .error (.lex .diverge)
  | fuel + 1, lx => do
    let lx ← lx.next
    if lx.current.tok = .eof then pure []
    else
      let ts ← tokens fuel lx
      pure (lx.current :: ts)

/-! ### Reading on -/

section Total
variable {lx : Lexer}

/-- The tokens that are left are at most this many, before the end of the source. -/
def left (lx : Lexer) : ℕ := lx.ls.remaining + if lx.lookahead.tok = .eof then 0 else 1

theorem loads_scan : Loads lx.scan fun r => r.2.lookahead = lx.lookahead ∧
    (r.2.ls.remaining < lx.ls.remaining ∨ r.2.ls.remaining = lx.ls.remaining ∧ r.1.tok = .eof) := by
  have h := LexState.loads_scan lx.ls lx.current.val
  rw [scan]
  split
  · next r hr =>
    refine ⟨rfl, ?_⟩
    cases Ensures.of_ok h hr with
    | inl h => exact .inl h
    | inr h =>
      obtain ⟨hrem, t, ht, heof⟩ := h
      obtain rfl := Option.some.inj ht
      exact .inr ⟨hrem, heof⟩
  · next e he =>
    rw [he] at h
    exact h

theorem loads_next : Loads lx.next fun lx' => lx'.left < lx.left ∨ lx'.current.tok = .eof := by
  rw [next]
  split
  · next hl =>
    rw [Loads, Ensures.map_iff]
    refine loads_scan.mono fun r hr => ?_
    cases hr.2 with
    | inl h =>
      left
      simp only [left, hr.1, hl, if_true]
      exact h
    | inr h => exact .inr h.2
  · next hl =>
    left
    simp only [left, hl, eof, if_true, if_false]
    exact Nat.lt_succ_self _

theorem loads_peek : Loads lx.peek fun _ => True := by
  rw [peek, Loads, Ensures.map_iff]
  exact loads_scan.mono fun _ _ => trivial

/-- An error message is always a message. -/
theorem loads_errNear {α : Type} (msg : String) : Loads (lx.errNear msg : Load α) fun _ => False := by
  have hnear : Loads lx.near fun _ => True := by
    rw [near]
    split
    · rw [Loads, Ensures.map_iff]
      have hstart := lx.started
      exact Loads.slice (by rw [pos]; omega) (Nat.sub_le _ _)
    all_goals exact trivial
  exact hnear.bind fun _ _ => trivial

/-- The source has an end. -/
theorem loads_tokens (fuel : ℕ) (hf : lx.left < fuel) : Loads (tokens fuel lx) fun _ => True := by
  induction fuel generalizing lx with
  | zero => omega
  | succ fuel ih =>
    rw [tokens]
    refine loads_next.bind fun lx' h => ?_
    split
    · exact trivial
    · next hne =>
      have hlt := h.resolve_right hne
      have hfuel : lx'.left < fuel := by omega
      exact (ih hfuel).bind fun _ _ => trivial

end Total

/-! ### Starting -/

theorem linenumber_nextChar (ls : LexState) : ls.nextChar.linenumber = ls.linenumber := by
  rw [LexState.nextChar]
  split <;> rfl

theorem linenumber_skipEol (ls : LexState) : ls.skipEol.linenumber = ls.linenumber := by
  rw [LexState.skipEol]
  split
  · rw [linenumber_nextChar, linenumber_nextChar]
  · exact linenumber_nextChar ls

theorem newline_ok {ls : LexState} (h : ls.linenumber + 1 < MAX_LINE) :
    ∃ ls', ls.newline = .ok ls' ∧ ls'.remaining ≤ ls.remaining := by
  have hlt : ls.skipEol.linenumber + 1 < MAX_LINE := by rw [linenumber_skipEol]; exact h
  have hw := LexState.within_newline ls (LexState.remaining_nextChar_le ls)
  rw [LexState.newline] at hw ⊢
  simp only [dif_pos hlt] at hw ⊢
  exact ⟨_, rfl, hw⟩

/-- The lexer is started before errors are caught, and it starts for every source. -/
theorem new_ok (src : List UInt8) (chunkname : String) :
    ∃ ls, LexState.new src chunkname = .ok ls ∧ ls.remaining ≤ src.length := by
  have hbom : ∀ ls : LexState, ls.remaining ≤ src.length → ls.linenumber = 1 →
      ∃ ls₁ : LexState, (if ls.c = some 0xef ∧ ls.rest.take 2 = [0xbb, 0xbf] then
        { ls with rest := ls.rest.drop 2 }.nextChar else ls) = ls₁ ∧ ls₁.remaining ≤ src.length ∧ ls₁.linenumber = 1 := by
    intro ls hrem hline
    split
    · refine ⟨_, rfl, ?_, (linenumber_nextChar _).trans hline⟩
      rw [LexState.remaining_nextChar, List.length_drop]
      exact (Nat.sub_le _ _).trans ((rest_le_remaining ls).trans hrem)
    · exact ⟨ls, rfl, hrem, hline⟩
  obtain ⟨ls₁, hls₁, hrem, hline⟩ := hbom (LexState.mk src none [] 1 chunkname (by decide)).nextChar
    (LexState.remaining_nextChar _).le (linenumber_nextChar _)
  rw [LexState.new]
  simp only [hls₁]
  split
  · obtain ⟨ls₂, hls₂, hle₂, hline₂⟩ := LexState.skipLine_ok _ (Nat.lt_succ_self ls₁.remaining)
    rw [hls₂, ok_bind]
    split
    · obtain ⟨ls₃, hls₃, hle₃⟩ := newline_ok (show ls₂.linenumber + 1 < MAX_LINE by rw [hline₂, hline]; decide)
      exact ⟨ls₃, hls₃, hle₃.trans (hle₂.trans hrem)⟩
    · exact ⟨ls₂, rfl, hle₂.trans hrem⟩
  · exact ⟨ls₁, rfl, hrem⟩

/-- The lexer in front of the first token. -/
def new (src : List UInt8) (chunkname : String) : LexResult Lexer :=
  match h : LexState.new src chunkname with
  | .ok ls =>
    have hread : ls.remaining ≤ src.length := by
      obtain ⟨ls', hls', hle⟩ := new_ok src chunkname
      rw [hls', Except.ok.injEq] at h
      rw [← h]
      exact hle
    .ok ⟨src, ls, 0, eof, eof, 1, hread, by rw [Nat.zero_add]; exact (rest_le_remaining ls).trans hread⟩
  | .error e => .error e

theorem exists_new (src : List UInt8) (chunkname : String) : ∃ lx, new src chunkname = .ok lx := by
  obtain ⟨ls, hls, -⟩ := new_ok src chunkname
  rw [new]
  split
  · exact ⟨_, rfl⟩
  · next e he =>
    rw [hls] at he
    cases he

end Lexer
end LuajitRs
