import LuajitRs.Compiler.Lex
import LuajitRs.Util.Strfmt

/-! Quoted strings read back by the lexer. The written form of a byte stands for one byte again, not
always the same one: `%q` writes octal escapes where the lexer reads decimal ones, and a carriage
return behind a backslash is a line end. -/
namespace LuajitRs
namespace LexState

/-- The lexer with the cursor at the start of `text`. -/
def facing (ls : LexState) (text : List UInt8) : LexState := { ls with c := text.head?, rest := text.tail }

/-- The lexer as `scan` leaves it at the start of a token. -/
def reading (ls : LexState) (text : List UInt8) : LexState := { ls.facing text with sb := [] }

/-- The byte that the lexer makes of the written form of `b`. -/
def reread (b : UInt8) : UInt8 :=
  if b = 13 then 10
  else if b < 32 ∨ b = 127 then
    if 7 ≤ b ∧ b ≤ 12 then b else 100 * (b / 64) + 10 * (b / 8 % 8) + b % 8
  else b

def isLineEnd (b : UInt8) : Bool := b = 10 || b = 13

variable (ls : LexState) (b d : UInt8) (text : List UInt8)

@[simp] theorem c_facing : (ls.facing text).c = text.head? := rfl

@[simp] theorem nextChar_facing : (ls.facing (b :: text)).nextChar = ls.facing text := by
  cases text with
  | nil => rfl
  | cons d text => rfl

@[simp] theorem save_facing : (ls.facing text).save b = (ls.save b).facing text := rfl

@[simp] theorem saveNext_facing : (ls.facing (b :: text)).saveNext = (ls.save b).facing text :=
  nextChar_facing (ls.save b) b text

theorem remaining_facing : (ls.facing text).remaining = text.length := by
  cases text with
  | nil => rfl
  | cons d text => rfl

/-! ### One byte -/

theorem newline_facing (hd : isLineEnd d = false) :
    (ls.facing (b :: d :: text)).newline =
      if h : ls.linenumber + 1 < MAX_LINE then
        .ok ({ ls with linenumber := ls.linenumber + 1, linenumber_lt := h }.facing (d :: text))
      else
        .error (.compile
          (ls.chunkname ++ ":" ++ toString (ls.linenumber + 1) ++ ": chunk has too many lines")) := by
  have hskip : (ls.facing (b :: d :: text)).skipEol = ls.facing (d :: text) := by
    have he : (ls.facing (d :: text)).isEol = false := by simpa [isEol, isLineEnd] using hd
    simp [skipEol, he]
  unfold newline
  rw [hskip]
  rfl

theorem decimalEscape_facing (x y z : UInt8)
    (h : Ascii.isDigit x ∧ Ascii.isDigit y ∧ Ascii.isDigit z ∧
      ((x.toNat - 48) * 10 + (y.toNat - 48)) * 10 + (z.toNat - 48) ≤ 255) :
    (ls.facing (x :: y :: z :: text)).decimalEscape x =
      .ok ((ls.save (UInt8.ofNat (((x.toNat - 48) * 10 + (y.toNat - 48)) * 10 + (z.toNat - 48)))).facing
        text) := by
  obtain ⟨-, hy, hz, hle⟩ := h
  simp [decimalEscape, isDigit, hy, hz, Nat.not_lt.mpr hle]

/-- The bytes whose written form the lexer reads as themselves. -/
def quotable (b : UInt8) : Bool := b ≠ 13 && b ≠ 127 && !(14 ≤ b && b < 32)

/-- A control byte is written as three digits, which the lexer takes for a decimal escape. -/
private theorem octal3_table : ∀ b : UInt8, b < 32 ∨ b = 127 →
    (Ascii.isDigit (ch '0' + b / 64) ∧ Ascii.isDigit (ch '0' + b / 8 % 8) ∧
      Ascii.isDigit (ch '0' + b % 8) ∧
      (((ch '0' + b / 64).toNat - 48) * 10 + ((ch '0' + b / 8 % 8).toNat - 48)) * 10 +
        ((ch '0' + b % 8).toNat - 48) ≤ 255) ∧
    UInt8.ofNat ((((ch '0' + b / 64).toNat - 48) * 10 + ((ch '0' + b / 8 % 8).toNat - 48)) * 10 +
      ((ch '0' + b % 8).toNat - 48)) = 100 * (b / 64) + 10 * (b / 8 % 8) + b % 8 ∧
    (¬(isLineEnd b ∨ b = 9 ∨ b = 7 ∨ b = 8 ∨ b = 12 ∨ b = 11) →
      reread b = 100 * (b / 64) + 10 * (b / 8 % 8) + b % 8) ∧
    charEscape (ch '0' + b / 64) = none ∧ ch '0' + b / 64 ≠ ch 'x' ∧ ch '0' + b / 64 ≠ ch 'u' ∧
      ch '0' + b / 64 ≠ ch 'z' ∧ ¬(ch '0' + b / 64 = 10 ∨ ch '0' + b / 64 = 13) := by
  decide +kernel

private theorem reread_table : ∀ b : UInt8,
    (¬(b < 32 ∨ b = 127) → reread b = b) ∧ (isLineEnd b = true → reread b = 10) ∧
    (reread b = b ↔ quotable b = true) ∧ (quotable b = true → isLineEnd b = (b == 10)) ∧
    (quoteByte b).head?.any (fun d => !isLineEnd d && d ≠ ch '"') = true ∧ 1 ≤ (quoteByte b).length := by
  decide +kernel

theorem reread_eq_self_iff : reread b = b ↔ quotable b = true := (reread_table b).2.2.1

/-- The written form of a byte begins neither with a line end nor with the quote. -/
theorem quoteByte_head : ∃ d t, quoteByte b = d :: t ∧ isLineEnd d = false ∧ d ≠ ch '"' := by
  have hb := (reread_table b).2.2.2.2.1
  cases hq : quoteByte b with
  | nil => simp [hq] at hb
  | cons d t => exact ⟨d, t, rfl, by simpa [hq] using hb⟩

/-- The three written forms of a byte that is not a line end. -/
theorem quoteByte_cases (hb : isLineEnd b = false) :
    (∃ e, quoteByte b = [ch '\\', e] ∧ charEscape e = some (reread b)) ∨
      (quoteByte b = ch '\\' :: octal3 b ∧ (b < 32 ∨ b = 127) ∧
        reread b = 100 * (b / 64) + 10 * (b / 8 % 8) + b % 8) ∨
      (quoteByte b = [b] ∧ b ≠ ch '\\' ∧ reread b = b) := by
  unfold quoteByte
  split
  next h =>
    refine .inl ⟨b, rfl, ?_⟩
    rcases h with rfl | rfl <;> decide
  split
  next h => rcases h with rfl | rfl <;> cases hb
  split
  next h => exact .inl ⟨ch 't', rfl, by subst h; decide⟩
  split
  next h => exact .inl ⟨ch 'a', rfl, by subst h; decide⟩
  split
  next h => exact .inl ⟨ch 'b', rfl, by subst h; decide⟩
  split
  next h => exact .inl ⟨ch 'f', rfl, by subst h; decide⟩
  split
  next h => exact .inl ⟨ch 'v', rfl, by subst h; decide⟩
  split
  next h9 h7 h8 h12 h11 h => exact .inr (.inl ⟨rfl, h, (octal3_table b h).2.2.1 (by simp [hb, h9, h7, h8, h12, h11])⟩)
  next hq _ _ _ _ _ _ h => exact .inr (.inr ⟨rfl, fun he => hq (.inr he), (reread_table b).1 h⟩)

theorem charEscape_facing (e v : UInt8) (h : charEscape e = some v) :
    (ls.facing (e :: text)).escape = .ok ((ls.save v).facing text) := by
  simp [escape, h]

/-- The written form of a byte that is not a line end is read by one iteration. -/
theorem stringStep_quoteByte (hb : isLineEnd b = false) :
    (ls.facing (quoteByte b ++ text)).stringStep = .ok ((ls.save (reread b)).facing text) := by
  have hslash : ∀ t, (ls.facing (ch '\\' :: t)).stringStep = (ls.facing t).escape := by
    intro t
    simp [stringStep]
  obtain ⟨e, hq, he⟩ | ⟨hq, hb, he⟩ | ⟨hq, hb', he⟩ := quoteByte_cases b hb
  · rw [hq, List.cons_append, hslash]
    exact charEscape_facing ls text e _ he
  · obtain ⟨hd, hv, -, h1, h2, h3, h4, h5⟩ := octal3_table b hb
    rw [hq, he, List.cons_append, hslash, ← hv, ← decimalEscape_facing ls text _ _ _ hd]
    simp only [escape, octal3, c_facing, List.cons_append, List.nil_append, List.head?_cons, h1, h2, h3,
      h4, h5, isDigit, hd.1, if_false, if_true]
  · have h5 : ¬(b = 10 ∨ b = 13) := by simpa [isLineEnd] using hb
    rw [hq, he]
    simp only [stringStep, c_facing, List.cons_append, List.nil_append, List.head?_cons, h5, hb', if_false,
      saveNext_facing]

/-- A line end is written behind a backslash and counts as a line. -/
theorem stringStep_lineEnd (hb : isLineEnd b = true) :
    (ls.facing (quoteByte b ++ d :: text)).stringStep = ((ls.save 10).facing (b :: d :: text)).newline := by
  have hb' : b = 10 ∨ b = 13 := by simpa [isLineEnd] using hb
  rcases hb' with rfl | rfl <;> rfl

/-! ### The literal -/

variable (s tail : List UInt8)

/-- Neither the written form of a byte nor the closing quote begins with a line end. -/
theorem quoted_head :
    ∃ d t, s.flatMap quoteByte ++ ch '"' :: tail = d :: t ∧ isLineEnd d = false := by
  cases s with
  | nil => exact ⟨_, _, rfl, rfl⟩
  | cons b s =>
    obtain ⟨d, t, hq, hd, -⟩ := quoteByte_head b
    exact ⟨d, _, by simp [hq]; rfl, hd⟩

/-- The loop does not stop inside the written form of a byte. -/
theorem quoteByte_ne_delim : (ls.facing (quoteByte b ++ text)).c ≠ some (ch '"') := by
  obtain ⟨d, t, hq, -, hd⟩ := quoteByte_head b
  simpa [hq] using hd

/-- The loop passes the written form of `s` up to the closing quote, unless the lines run out. -/
theorem stringLoop_quoted (fuel : ℕ) (hf : s.length < fuel) :
    (ls.linenumber + s.countP isLineEnd < MAX_LINE →
      ∃ ls' : LexState,
        stringLoop (some (ch '"')) fuel (ls.facing (s.flatMap quoteByte ++ ch '"' :: tail)) =
          .ok (ls'.facing (ch '"' :: tail)) ∧
        ls'.sb = ls.sb ++ s.map reread ∧ ls'.linenumber = ls.linenumber + s.countP isLineEnd) ∧
    (MAX_LINE ≤ ls.linenumber + s.countP isLineEnd →
      ∃ e, stringLoop (some (ch '"')) fuel (ls.facing (s.flatMap quoteByte ++ ch '"' :: tail)) =
        .error e) := by
  induction s generalizing ls fuel with
  | nil =>
    cases fuel with
    | zero => omega
    | succ fuel =>
      refine ⟨fun h => ⟨ls, ?_, ?_, rfl⟩, fun h => absurd h (Nat.not_le.mpr ls.linenumber_lt)⟩
      · simp [stringLoop]
      · simp
  | cons b s ih =>
    cases fuel with
    | zero => omega
    | succ fuel =>
      have hf' : s.length < fuel := by simpa using hf
      have hne := quoteByte_ne_delim ls b (s.flatMap quoteByte ++ ch '"' :: tail)
      simp only [List.flatMap_cons, List.append_assoc, stringLoop, hne, if_false, List.map_cons]
      by_cases hb : isLineEnd b = true
      · obtain ⟨d, t, hdt, hd⟩ := quoted_head s tail
        have hcount : (b :: s).countP isLineEnd = s.countP isLineEnd + 1 := List.countP_cons_of_pos hb
        have hstep := stringStep_lineEnd ls b d t hb
        rw [newline_facing _ _ _ _ hd, ← hdt] at hstep
        rw [hstep, hcount, (reread_table b).2.1 hb]
        split
        next hlt =>
          obtain ⟨hok, herr⟩ :=
            ih { ls.save 10 with linenumber := ls.linenumber + 1, linenumber_lt := hlt } fuel hf'
          refine ⟨fun h => ?_, fun h => herr (by show _ ≤ ls.linenumber + 1 + _; omega)⟩
          obtain ⟨ls', hl, hsb, hn⟩ := hok (by show ls.linenumber + 1 + _ < _; omega)
          refine ⟨ls', hl, ?_, hn.trans (by show ls.linenumber + 1 + _ = _; omega)⟩
          simpa [save] using hsb
        next hge =>
          have hge' : ¬ls.linenumber + 1 < MAX_LINE := hge
          exact ⟨fun h => absurd h (by omega), fun _ => ⟨_, rfl⟩⟩
      · have hb' : isLineEnd b = false := by simpa using hb
        have hcount : (b :: s).countP isLineEnd = s.countP isLineEnd := List.countP_cons_of_neg hb
        rw [stringStep_quoteByte ls b _ hb', hcount]
        obtain ⟨hok, herr⟩ := ih (ls.save (reread b)) fuel hf'
        refine ⟨fun h => ?_, herr⟩
        obtain ⟨ls', hl, hsb, hn⟩ := hok h
        exact ⟨ls', hl, by simpa [save] using hsb, hn⟩

theorem length_quoted : s.length ≤ (s.flatMap quoteByte).length := by
  induction s with
  | nil => exact le_rfl
  | cons b s ih =>
    have := (reread_table b).2.2.2.2.2
    simp only [List.flatMap_cons, List.length_append, List.length_cons]
    omega

/-- What the lexer makes of the written form of `s`: every byte as reread, or an error when the
chunk has too many lines. -/
theorem string_formatQ :
    (ls.linenumber + s.countP isLineEnd < MAX_LINE →
      ∃ ls' : LexState, (ls.reading (formatQ (.str s) ++ tail)).string = .ok (s.map reread, ls'.facing tail)) ∧
    (MAX_LINE ≤ ls.linenumber + s.countP isLineEnd →
      ∃ e, (ls.reading (formatQ (.str s) ++ tail)).string = .error e) := by
  have htext : formatQ (.str s) ++ tail = ch '"' :: (s.flatMap quoteByte ++ ch '"' :: tail) := by
    simp [formatQ]
  have hread : ls.reading (ch '"' :: (s.flatMap quoteByte ++ ch '"' :: tail)) =
      { ls with sb := [] }.facing (ch '"' :: (s.flatMap quoteByte ++ ch '"' :: tail)) := rfl
  have hfuel : s.length < (s.flatMap quoteByte ++ ch '"' :: tail).length + 1 := by
    have := length_quoted s
    simp only [List.length_append]
    omega
  obtain ⟨hok, herr⟩ := stringLoop_quoted ({ ls with sb := [] }.save (ch '"')) s tail _ hfuel
  rw [htext, hread]
  unfold string
  simp only [saveNext_facing, remaining_facing, c_facing, List.head?_cons]
  refine ⟨fun h => ?_, fun h => ?_⟩
  · obtain ⟨ls', hl, hsb, -⟩ := hok h
    refine ⟨ls'.save (ch '"'), ?_⟩
    simp only [hl, bind, Except.bind, saveNext_facing]
    have hsb' : ((ls'.save (ch '"')).facing tail).sb = ch '"' :: s.map reread ++ [ch '"'] := by
      show ls'.sb ++ [ch '"'] = _
      rw [hsb]
      rfl
    rw [hsb']
    simp [pure, Except.pure]
  · obtain ⟨e, he⟩ := herr h
    exact ⟨e, by simp only [he, bind, Except.bind]⟩

theorem map_reread_eq_self_iff : s.map reread = s ↔ ∀ b ∈ s, quotable b = true := by
  induction s with
  | nil => simp
  | cons b s ih => simp [ih, reread_eq_self_iff]

theorem countP_isLineEnd (h : ∀ b ∈ s, quotable b = true) : s.countP isLineEnd = s.count 10 := by
  exact List.countP_congr fun b hs => by rw [(reread_table b).2.2.2.1 (h b hs)]

/-- The written form of `s` is read back as `s` when no byte of `s` changes and its line ends fit in
the chunk, and only then. -/
theorem string_formatQ_iff :
    (∃ ls' : LexState, (ls.reading (formatQ (.str s) ++ tail)).string = .ok (s, ls'.facing tail)) ↔
      (∀ b ∈ s, quotable b = true) ∧ ls.linenumber + s.count 10 < MAX_LINE := by
  obtain ⟨hok, herr⟩ := string_formatQ ls s tail
  constructor
  · intro h
    obtain ⟨ls', hs⟩ := h
    have hlines : ls.linenumber + s.countP isLineEnd < MAX_LINE := by
      by_contra hn
      obtain ⟨e, he⟩ := herr (Nat.not_lt.mp hn)
      rw [he] at hs
      cases hs
    obtain ⟨ls'', hr⟩ := hok hlines
    rw [hr] at hs
    have hmap : s.map reread = s := congrArg Prod.fst (Except.ok.inj hs)
    have hq := (map_reread_eq_self_iff s).mp hmap
    exact ⟨hq, countP_isLineEnd s hq ▸ hlines⟩
  · intro h
    obtain ⟨hq, hlines⟩ := h
    obtain ⟨ls', hr⟩ := hok (by rwa [countP_isLineEnd s hq])
    rw [(map_reread_eq_self_iff s).mpr hq] at hr
    exact ⟨ls', hr⟩

/-- A carriage return comes back as a line feed. -/
theorem carriage_return_not_reread :
    ¬∃ ls' : LexState,
      ((⟨[], none, [], 1, "chunk", by decide⟩ : LexState).reading (formatQ (.str [13]))).string =
        .ok ([13], ls') := by
  intro h
  obtain ⟨ls', hs⟩ := h
  have hread : ∃ ls'' : LexState,
      ((⟨[], none, [], 1, "chunk", by decide⟩ : LexState).reading (formatQ (.str [13]))).string =
        .ok ([10], ls'') := ⟨_, rfl⟩
  obtain ⟨ls'', hr⟩ := hread
  rw [hr] at hs
  cases hs

end LexState
end LuajitRs
