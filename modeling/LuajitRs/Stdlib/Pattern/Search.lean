import LuajitRs.Stdlib.Pattern.Operations
import Mathlib.Data.List.TakeWhile

/-! What a pattern means, apart from how it is interpreted: a list of pieces, each of which lets a search go on in a
list of ways, the preferred one first. The parts of the matcher compute the first result of that search. -/
namespace LuajitRs.Pattern

open Lib

/-- How often a single item is repeated. -/
inductive Rep
  | once
  | star
  | plus
  | lazy
  | optional
  deriving DecidableEq, Repr

/-- The numbers of repetitions that are tried, in their order, where at most `max` are possible. -/
def Rep.counts (max : ℕ) : Rep → List ℕ
  | once => if 0 < max then [1] else []
  | star => (List.range (max + 1)).reverse
  | plus => (List.range' 1 max).reverse
  | lazy => List.range (max + 1)
  | optional => if 0 < max then [1, 0] else [0]

inductive Piece
  | single (holds : UInt8 → Bool) (rep : Rep)
  | opening (len : CaptureLen)
  | closing
  | balanced (opening closing : UInt8)
  | frontier (holds : UInt8 → Bool)
  | backref (n : ℕ)
  | atEnd

section Meaning

/-- How many bytes it takes to close `depth` brackets. -/
def balancedEnd (opening closing : UInt8) : List UInt8 → ℕ → Option ℕ
  | _, 0 => some 0
  | [], _ + 1 => none
  | c :: s, depth + 1 =>
    (balancedEnd opening closing s (if c = closing then depth else if c = opening then depth + 2 else depth + 1)).map
      (· + 1)

/-- The capture that a closing parenthesis closes. -/
def lastOpen (captures : List Capture) : Option ℕ :=
  (List.range captures.length).reverse.find? fun k => captures[k]?.any (·.len = .unfinished)

variable (text : List UInt8)

/-- How many bytes from `si` on satisfy a predicate. -/
def runLength (holds : UInt8 → Bool) (si : ℕ) : ℕ := ((text.drop si).takeWhile holds).length

/-- The byte before `si` and the byte at `si`, where zeros surround the text. -/
def byteBefore (si : ℕ) : UInt8 := if si = 0 then 0 else text.getD (si - 1) 0
def byteFrom (si : ℕ) : UInt8 := text.getD si 0

/-- The ends of all matches of some pieces at `si` with their captures, in the order of preference. -/
def results : List Piece → ℕ → List Capture → List (ℕ × List Capture)
  | [], si, captures => [(si, captures)]
  | .single holds rep :: ps, si, captures =>
    (rep.counts (runLength text holds si)).flatMap fun k => results ps (si + k) captures
  | .opening len :: ps, si, captures =>
    if captures.length < LUA_MAXCAPTURES then results ps si (captures ++ [⟨si, len⟩]) else []
  | .closing :: ps, si, captures =>
    match lastOpen captures with
    | some k => results ps si (captures.modify k fun cap => { cap with len := .len (si - cap.start) })
    | none => []
  | .balanced opening closing :: ps, si, captures =>
    if text[si]? = some opening then
      match balancedEnd opening closing (text.drop (si + 1)) 1 with
      | some k => results ps (si + 1 + k) captures
      | none => []
    else []
  | .frontier holds :: ps, si, captures =>
    if !holds (byteBefore text si) && holds (byteFrom text si) then results ps si captures else []
  | .backref n :: ps, si, captures =>
    match captures[n - 1]? with
    | some ⟨start, .len l⟩ =>
      if (text.drop start).take l = (text.drop si).take l ∧ si + l ≤ text.length then results ps (si + l) captures
      else []
    | _ => []
  | .atEnd :: ps, si, captures => if si = text.length then results ps si captures else []

end Meaning

section Pieces
variable (pat : List UInt8)

/-- The bytes that the single item at `pp` matches. -/
def itemHolds (pp : ℕ) (c : UInt8) : Bool := (singlematch c pat pp).toOption = some true

def itemEnd (pp : ℕ) : ℕ := (elementEnd pat pp).toOption.getD pat.length

def repOf (c : UInt8) : Option Rep :=
  if c = ch '*' then some .star
  else if c = ch '+' then some .plus
  else if c = ch '-' then some .lazy
  else if c = ch '?' then some .optional
  else none

/-- The pieces of a pattern from `pp` on. -/
def pieces : ℕ → ℕ → List Piece
  | 0, _ => []
  | fuel+1, pp =>
    match pat[pp]? with
    | none => []
    | some p =>
      if p = ch '(' then
        if pat[pp + 1]? = some (ch ')') then .opening .position :: pieces fuel (pp + 2)
        else .opening .unfinished :: pieces fuel (pp + 1)
      else if p = ch ')' then .closing :: pieces fuel (pp + 1)
      else if p = ch '$' ∧ pat.length ≤ pp + 1 then [.atEnd]
      else if p = ch '%' ∧ pat[pp + 1]? = some (ch 'b') then
        .balanced (pat.getD (pp + 2) 0) (pat.getD (pp + 3) 0) :: pieces fuel (pp + 4)
      else if p = ch '%' ∧ pat[pp + 1]? = some (ch 'f') then
        .frontier (itemHolds pat (pp + 2)) :: pieces fuel (itemEnd pat (pp + 2))
      else if p = ch '%' ∧ pat[pp + 1]?.any Ascii.isDigit then
        .backref (pat.getD (pp + 1) 0 - ch '0').toNat :: pieces fuel (pp + 2)
      else
        match pat[itemEnd pat pp]?.bind repOf with
        | some rep => .single (itemHolds pat pp) rep :: pieces fuel (itemEnd pat pp + 1)
        | none => .single (itemHolds pat pp) .once :: pieces fuel (itemEnd pat pp)

/-- The matches of a pattern at `si`, the preferred one first. -/
def matchesAt (text : List UInt8) (si : ℕ) : List (ℕ × List Capture) :=
  results text (pieces pat (pat.length + 1) (patStart pat)) si []

end Pieces

/-! ### Answers -/

section Answers
variable {text pat : List UInt8} {call : Matcher} {ms ms' : MatchState} {si pp rp n : ℕ} {ps : List Piece}
  {l l' : List (ℕ × List Capture)} {r : Option ℕ × MatchState} {captures : List Capture} {holds : UInt8 → Bool}
  {q : Prop}

theorem ensures_and {ε α : Type} {E : ε → Prop} {m : Except ε α} {P Q : α → Prop}
    (hP : Ensures E m P) (hQ : Ensures E m Q) : Ensures E m fun a => P a ∧ Q a := by
  cases m with
  | ok a => exact ⟨hP, hQ⟩
  | error e => exact hP

/-- The first result of a search; without one the captures are left as they were. -/
def first (captures : List Capture) : List (ℕ × List Capture) → Option ℕ × List Capture
  | [] => (none, captures)
  | (stop, found) :: _ => (some stop, found)

theorem first_append (l' : List (ℕ × List Capture)) (h : l ≠ []) : first captures (l ++ l') = first captures l := by
  cases l with
  | nil => exact absurd rfl h
  | cons a l => rfl

/-- Unless a hard error is flagged, the answer is the first result. An error that is flagged before stays, and none is
flagged where `q` holds. -/
structure Answer (q : Prop) (ms : MatchState) (l : List (ℕ × List Capture)) (r : Option ℕ × MatchState) : Prop where
  clean : r.1 ≠ none → r.2.error = none
  first : r.2.error = none → ms.error = none ∧ first ms.captures l = (r.1, r.2.captures)
  calm : q → ms.error = none → r.2.error = none

theorem Answer.miss (h : l = []) : Answer q ms l (none, ms) := by
  subst h
  exact ⟨fun h => absurd rfl h, fun h => ⟨h, rfl⟩, fun _ h => h⟩

theorem Answer.failed (l : List (ℕ × List Capture)) (e : String) (hq : ¬q) : Answer q ms l (none, ms.fail e) :=
  ⟨fun h => absurd rfl h, nofun, fun h => absurd h hq⟩

theorem Answer.imp {q' : Prop} (h : Answer q ms l r) (hq : q' → q) : Answer q' ms l r :=
  ⟨h.clean, h.first, fun h' => h.calm (hq h')⟩

/-- A match that is found is the first result of everything that begins with the same search. -/
theorem Answer.found {stop : ℕ} (h : Answer q ms l (some stop, ms')) : Answer q ms (l ++ l') (some stop, ms') := by
  obtain ⟨he, hf⟩ := h.first (h.clean nofun)
  refine ⟨h.clean, fun _ => ⟨he, ?_⟩, h.calm⟩
  rw [first_append _ fun hl => ?_]
  · exact hf
  · subst hl
    cases hf

/-- A search that fails leaves the rest to the next one. -/
theorem Answer.next (h : Answer q ms l (none, ms')) (h' : Answer q ms' l' r) : Answer q ms (l ++ l') r := by
  refine ⟨h'.clean, fun hr => ?_, fun hq herr => h'.calm hq (h.calm hq herr)⟩
  obtain ⟨he', hf'⟩ := h'.first hr
  obtain ⟨he, hf⟩ := h.first he'
  refine ⟨he, ?_⟩
  cases l with
  | nil =>
    rw [List.nil_append, ← hf']
    exact congrArg (fun captures => Pattern.first captures l') (Prod.ext_iff.mp hf).2
  | cons a l => cases hf

/-- A search with other captures, which are undone when it fails. -/
theorem Answer.undo {r : Option ℕ} {f : List Capture → List Capture}
    (h : Outcome text si { ms with captures := captures } (r, ms') ∧ Answer q { ms with captures := captures } l (r, ms'))
    (hf : f captures = ms.captures) :
    Answer q ms l (r, if r.isNone then { ms' with captures := f ms'.captures } else ms') := by
  obtain ⟨ho, h⟩ := h
  cases r with
  | some stop =>
    obtain ⟨he, hfound⟩ := h.first (h.clean nofun)
    refine ⟨h.clean, fun _ => ⟨he, ?_⟩, h.calm⟩
    cases l with
    | nil => cases hfound
    | cons a l => exact hfound
  | none =>
    refine ⟨fun h => absurd rfl h, fun herr => ?_, h.calm⟩
    obtain ⟨he, hfound⟩ := h.first herr
    refine ⟨he, ?_⟩
    cases l with
    | nil =>
      rw [← hf, ← show ms'.captures = captures from ho]
      rfl
    | cons a l => cases hfound

/-- A call answers with the first result of some pieces. -/
def Agrees (text : List UInt8) (call : Matcher) (q : Prop) (pp : ℕ) (ps : List Piece) : Prop :=
  ∀ si ms, si ≤ text.length → CapturesOk si ms.captures →
    Ensures Never (call si pp ms) fun r => Outcome text si ms r ∧ Answer q ms (results text ps si ms.captures) r

theorem Agrees.imp {q' : Prop} (h : Agrees text call q pp ps) (hq : q' → q) : Agrees text call q' pp ps :=
  fun si ms hsi hms => (h si ms hsi hms).mono fun _ hr => ⟨hr.1, hr.2.imp hq⟩

/-! ### Single items -/

theorem itemHolds_spec (h : Readable pat pp) (c : UInt8) : singlematch c pat pp = .ok (itemHolds pat pp c) := by
  have hs := singlematch_ensures (c := c) h
  cases hm : singlematch c pat pp with
  | error e => rw [hm] at hs; exact hs.elim
  | ok b => simp [itemHolds, hm, Except.toOption]

theorem runLength_le (holds : UInt8 → Bool) (hsi : si ≤ text.length) : si + runLength text holds si ≤ text.length := by
  have := (List.takeWhile_prefix holds (l := text.drop si)).length_le
  rw [List.length_drop] at this
  unfold runLength
  omega

theorem runLength_pos (hlt : si < text.length) (h : holds text[si] = true) :
    runLength text holds si = runLength text holds (si + 1) + 1 := by
  rw [runLength, List.drop_eq_getElem_cons hlt, List.takeWhile_cons_of_pos h]
  rfl

theorem runLength_zero (h : ∀ c, text[si]? = some c → holds c = false) : runLength text holds si = 0 := by
  rw [runLength]
  by_cases hlt : si < text.length
  · rw [List.drop_eq_getElem_cons hlt, List.takeWhile_cons_of_neg]
    · rfl
    · simp [h _ (List.getElem?_eq_getElem hlt)]
  · rw [List.drop_eq_nil_of_le (Nat.not_lt.mp hlt)]
    rfl

theorem matchesHere_eq (h : Readable pat pp) :
    matchesHere text pat si pp = .ok (decide (0 < runLength text (itemHolds pat pp) si)) := by
  rw [matchesHere]
  split
  · next hlt =>
    rw [byteAt_ok (List.getElem?_eq_getElem hlt), ok_bind, itemHolds_spec h]
    cases hb : itemHolds pat pp text[si] with
    | true => simp [runLength_pos hlt hb]
    | false =>
      rw [runLength_zero fun c hc => ?_]
      · rfl
      · rw [List.getElem?_eq_getElem hlt] at hc
        cases hc
        exact hb
  · next hlt =>
    rw [runLength_zero fun c hc => absurd (lt_length_of_getElem? hc) hlt]
    rfl

theorem advanceWhile_eq {p : UInt8 → Except Stop Bool} (hp : ∀ c, p c = .ok (holds c)) (n i : ℕ)
    (hn : text.length < n + i) (hi : i ≤ text.length) :
    advanceWhile text p n i = .ok (i + runLength text holds i) := by
  induction n generalizing i with
  | zero => omega
  | succ n ih =>
    rw [advanceWhile]
    by_cases hlt : i < text.length
    · rw [if_pos hlt, byteAt_ok (List.getElem?_eq_getElem hlt), ok_bind, hp, ok_bind]
      cases hb : holds text[i] with
      | true =>
        rw [if_pos rfl, ih (i + 1) (by omega) hlt, runLength_pos hlt hb]
        congr 1
        omega
      | false =>
        rw [if_neg Bool.false_ne_true, runLength_zero fun c hc => ?_]
        · rfl
        · rw [List.getElem?_eq_getElem hlt] at hc
          cases hc
          exact hb
    · rw [if_neg hlt, runLength_zero fun c hc => absurd (lt_length_of_getElem? hc) hlt]
      rfl

theorem matchClass_literal {cl : UInt8} (h : isClassLetter cl = false) (c : UInt8) :
    matchClass c cl = decide (c = cl) := by
  have hne (x : UInt8) (hx : isClassLetter x = true) : cl ≠ x := fun heq => by simp [heq, hx] at h
  rw [matchClass, if_neg (hne (ch 'a') rfl), if_neg (hne (ch 'c') rfl), if_neg (hne (ch 'd') rfl),
    if_neg (hne (ch 'g') rfl), if_neg (hne (ch 'l') rfl), if_neg (hne (ch 'p') rfl), if_neg (hne (ch 's') rfl),
    if_neg (hne (ch 'u') rfl), if_neg (hne (ch 'w') rfl), if_neg (hne (ch 'x') rfl), if_neg (hne (ch 'z') rfl)]

/-- The shortcuts of the repetition count decide as a single item does. -/
theorem countMaxRepetition_eq (h : Readable pat pp) (hsi : si ≤ text.length) :
    countMaxRepetition text pat si pp = .ok (runLength text (itemHolds pat pp) si) := by
  obtain ⟨p, hp⟩ : ∃ p, pat[pp]? = some p := ⟨_, List.getElem?_eq_getElem h.1⟩
  have hsingle (c : UInt8) := itemHolds_spec h c
  have hcount {q : UInt8 → Except Stop Bool} (hq : ∀ c, q c = singlematch c pat pp) :
      (do let i ← advanceWhile text q (text.length + 1) si; pure (i - si)) =
        Except.ok (ε := Stop) (runLength text (itemHolds pat pp) si) := by
    rw [advanceWhile_eq (fun c => (hq c).trans (hsingle c)) _ _ (by omega) hsi, ok_bind, Nat.add_sub_cancel_left]
    rfl
  rw [countMaxRepetition]
  split
  · next hle => rw [runLength, List.drop_eq_nil_of_le hle, List.takeWhile_nil, List.length_nil]
  · rw [byteAt_ok hp, ok_bind]
    split
    · next hdot =>
      have hall : ∀ c, itemHolds pat pp c = true := fun c => by
        have := hsingle c
        rw [singlematch, byteAt_ok hp, ok_bind, if_pos hdot] at this
        exact (Except.ok.inj this).symm
      rw [runLength, List.takeWhile_eq_self_iff.mpr fun c _ => hall c, List.length_drop]
      rfl
    · next hdot =>
      split
      · next hesc =>
        obtain ⟨cl, hcl⟩ : ∃ cl, pat[pp + 1]? = some cl := ⟨_, List.getElem?_eq_getElem hesc.2⟩
        have hmatch (c : UInt8) : singlematch c pat pp = .ok (matchEscape c cl) := by
          rw [singlematch, byteAt_ok hp, ok_bind, if_neg hdot, if_pos hesc.1, byteAt_ok hcl]
          rfl
        rw [byteAt_ok hcl, ok_bind]
        split
        · next hletter =>
          refine hcount fun c => ?_
          rw [hmatch, matchEscape, hletter, Bool.and_true]
          cases hup : Ascii.isUppercase cl with
          | true => simp
          | false => simp [Ascii.toLowercase, hup]
        · next hletter =>
          refine hcount fun c => ?_
          rw [hmatch, matchEscape, Bool.eq_false_of_not_eq_true hletter, Bool.and_false,
            if_neg Bool.false_ne_true, matchClass_literal (Bool.eq_false_of_not_eq_true hletter)]
      · next hesc =>
        split
        · exact hcount fun c => rfl
        · next hset =>
          refine hcount fun c => ?_
          have hne : p ≠ ch '%' := fun heq => hesc ⟨heq, h.2 (by rw [hp, heq])⟩
          rw [singlematch, byteAt_ok hp, ok_bind, if_neg hdot, if_neg hne, if_neg hset]
          rfl

/-! ### Repetitions -/

/-- A turn of a search: what a call finds is the answer, otherwise the search goes on with the rest. -/
theorem answer_turn {m : Except Stop (Option ℕ × MatchState)} {g : MatchState → Except Stop (Option ℕ × MatchState)}
    {sj : ℕ} (hm : Ensures Never m fun r => Outcome text sj ms r ∧ Answer q ms l r)
    (hg : ∀ ms', ms'.captures = ms.captures → Ensures Never (g ms') (Answer q ms' l')) :
    Ensures Never (do
      let (r, ms) ← m
      match r with
      | some e => pure (some e, ms)
      | none => g ms) (Answer q ms (l ++ l')) := by
  refine hm.bind fun r hr => ?_
  obtain ⟨r, ms'⟩ := r
  cases r with
  | some stop => exact hr.2.found
  | none => exact (hg ms' hr.1).mono fun _ h => hr.2.next h

theorem greedyFrom_answer (ha : Agrees text call q rp ps) (min count : ℕ) (ms : MatchState)
    (hsi : si + count ≤ text.length) (hms : CapturesOk si ms.captures) :
    Ensures Never (greedyFrom call si rp min count ms)
      (Answer q ms ((List.range' min (count + 1 - min)).reverse.flatMap fun k =>
        results text ps (si + k) ms.captures)) := by
  induction count generalizing ms with
  | zero =>
    rw [greedyFrom]
    split
    · next h0 =>
      subst h0
      simpa using (ha si ms hsi hms).mono fun _ h => h.2
    · next h0 =>
      rw [show 0 + 1 - min = 0 by omega]
      exact .miss rfl
  | succ count ih =>
    rw [greedyFrom]
    split
    · next hle =>
      have hrange : (List.range' min (count + 1 + 1 - min)).reverse =
          (count + 1) :: (List.range' min (count + 1 - min)).reverse := by
        rw [show count + 1 + 1 - min = count + 1 - min + 1 by omega, List.range'_concat, List.reverse_append]
        simp
        omega
      rw [hrange, List.flatMap_cons]
      refine answer_turn (ha _ ms hsi (hms.mono (by omega))) fun ms' heq => ?_
      have := ih ms' (by omega) (by rw [heq]; exact hms)
      rwa [heq] at this
    · next hle =>
      rw [show count + 1 + 1 - min = 0 by omega]
      exact .miss rfl

theorem matchGreedy_answer (h : Readable pat pp) (ha : Agrees text call q rp ps) (min : ℕ) (hsi : si ≤ text.length)
    (hms : CapturesOk si ms.captures) :
    Ensures Never (matchGreedy text pat call min si pp rp ms)
      (Answer q ms ((List.range' min (runLength text (itemHolds pat pp) si + 1 - min)).reverse.flatMap fun k =>
        results text ps (si + k) ms.captures)) := by
  rw [matchGreedy, countMaxRepetition_eq h hsi, ok_bind]
  exact greedyFrom_answer ha _ _ ms (runLength_le _ hsi) hms

theorem lazyFrom_answer (h : Readable pat pp) (ha : Agrees text call q rp ps) (n i : ℕ) (ms : MatchState)
    (hn : text.length < n + i) (hi : i ≤ text.length) (hms : CapturesOk i ms.captures) :
    Ensures Never (lazyFrom text pat call pp rp n i ms)
      (Answer q ms ((List.range' i (runLength text (itemHolds pat pp) i + 1)).flatMap fun k =>
        results text ps k ms.captures)) := by
  induction n generalizing i ms with
  | zero => omega
  | succ n ih =>
    rw [lazyFrom, List.range'_succ, List.flatMap_cons]
    refine answer_turn (g := fun ms => do
      if ← matchesHere text pat i pp then lazyFrom text pat call pp rp n (i + 1) ms else pure (none, ms))
      (ha i ms hi hms) fun ms' heq => ?_
    rw [matchesHere_eq h, ok_bind]
    by_cases hpos : 0 < runLength text (itemHolds pat pp) i
    · have hlt : i < text.length := by have := runLength_le (itemHolds pat pp) hi; omega
      have hb : itemHolds pat pp text[i] = true := by
        by_contra hb
        rw [runLength_zero fun c hc => ?_] at hpos
        · exact hpos.false
        · rw [List.getElem?_eq_getElem hlt] at hc
          cases hc
          exact Bool.eq_false_of_not_eq_true hb
      rw [if_pos (decide_eq_true hpos), runLength_pos hlt hb]
      have := ih (i + 1) ms' (by omega) hlt (by rw [heq]; exact hms.mono (by omega))
      rwa [heq] at this
    · rw [if_neg (by simpa using hpos), Nat.eq_zero_of_not_pos hpos]
      exact .miss rfl

theorem matchOptional_answer (h : Readable pat pp) (ha : Agrees text call q rp ps) (hsi : si ≤ text.length)
    (hms : CapturesOk si ms.captures) :
    Ensures Never (matchOptional text pat call si pp rp ms)
      (Answer q ms ((Rep.optional.counts (runLength text (itemHolds pat pp) si)).flatMap fun k =>
        results text ps (si + k) ms.captures)) := by
  rw [matchOptional, matchesHere_eq h, ok_bind]
  by_cases hpos : 0 < runLength text (itemHolds pat pp) si
  · have hle := runLength_le (itemHolds pat pp) hsi
    rw [if_pos (decide_eq_true hpos), Rep.counts, if_pos hpos, List.flatMap_cons]
    refine answer_turn (ha (si + 1) ms (by omega) (hms.mono (by omega))) fun ms' heq => ?_
    have := (ha si ms' hsi (by rw [heq]; exact hms)).mono fun _ h => h.2
    simpa [heq] using this
  · rw [if_neg (by simpa using hpos), Rep.counts, if_neg hpos]
    simpa using (ha si ms hsi hms).mono fun _ h => h.2

/-! ### Captures -/

theorem openCapture_answer {len : CaptureLen} (hlen : ∀ n, len ≠ .len n) (ha : Agrees text call q pp ps)
    (hsi : si ≤ text.length) (hms : CapturesOk si ms.captures) :
    Ensures Never (openCapture call len si pp ms) (Answer q ms (results text (.opening len :: ps) si ms.captures)) := by
  rw [openCapture, results]
  split
  · next hfull =>
    rw [if_neg (Nat.not_lt.mpr hfull)]
    exact .miss rfl
  · next hn =>
    rw [if_pos (Nat.not_le.mp hn)]
    have hstop : Capture.stop ⟨si, len⟩ ≤ si := by
      cases len with
      | len n => exact absurd rfl (hlen n)
      | position => exact le_rfl
      | unfinished => exact le_rfl
    refine (ha si _ hsi (hms.push (Nat.not_le.mp hn) hstop)).bind fun r hr => ?_
    exact Answer.undo (f := List.take ms.captures.length) hr (List.take_left' rfl)

theorem lastUnfinished_eq (captures : List Capture) (n : ℕ) (hn : n ≤ captures.length) :
    ∃ o, lastUnfinished captures n = .ok o ∧
      o.map Prod.fst = (List.range n).reverse.find? (fun k => captures[k]?.any (·.len = .unfinished)) := by
  induction n with
  | zero => exact ⟨none, rfl, rfl⟩
  | succ n ih =>
    rw [lastUnfinished, List.getElem?_eq_getElem hn, List.range_succ, List.reverse_append]
    simp only [List.reverse_cons, List.reverse_nil, List.nil_append, List.singleton_append, List.find?_cons,
      List.getElem?_eq_getElem hn, Option.any_some]
    split
    · next hun => exact ⟨_, rfl, by simp [hun]⟩
    · next hun =>
      obtain ⟨o, ho, hfst⟩ := ih (by omega)
      exact ⟨o, ho, by simp [hun, hfst]⟩

theorem reopen_closed {cap : Capture} {k : ℕ} {len : CaptureLen} (hk : captures[k]? = some cap)
    (hun : cap.len = .unfinished) :
    (captures.set k { cap with len := len }).modify k (fun cap => { cap with len := .unfinished }) = captures := by
  have hundo : { cap with len := CaptureLen.unfinished } = cap := by rw [← hun]
  apply List.ext_getElem?
  intro i
  rw [List.getElem?_modify, List.getElem?_set]
  by_cases hki : k = i
  · subst hki
    rw [if_pos rfl, if_pos (lt_length_of_getElem? hk), hk]
    simp [hundo]
  · simp [hki]

theorem matchCloseCapture_answer (hq : ¬q) (ha : Agrees text call q pp ps) (hsi : si ≤ text.length)
    (hms : CapturesOk si ms.captures) :
    Ensures Never (matchCloseCapture call si pp ms) (Answer q ms (results text (.closing :: ps) si ms.captures)) := by
  obtain ⟨o, ho, hfst⟩ := lastUnfinished_eq ms.captures _ le_rfl
  have hlast := (lastUnfinished_ensures ms.captures _ le_rfl).of_ok ho
  rw [matchCloseCapture, results, lastOpen, ← hfst, ho, ok_bind]
  cases o with
  | none => exact .failed _ _ hq
  | some kc =>
    obtain ⟨k, cap⟩ := kc
    obtain ⟨hk, hun⟩ := hlast k cap rfl
    have hstart : cap.start ≤ si := cap.start_le_stop.trans (hms.upto cap (List.mem_of_getElem? hk))
    have hclosed : Capture.stop { cap with len := .len (si - cap.start) } ≤ si := by
      show cap.start + (si - cap.start) ≤ si
      omega
    have hset : ms.captures.modify k (fun cap => { cap with len := .len (si - cap.start) }) =
        ms.captures.set k { cap with len := .len (si - cap.start) } := by
      rw [List.modify_eq_set_getElem?, hk]
      rfl
    dsimp only [Option.map_some]
    rw [if_neg (Nat.not_lt.mpr hstart), hset]
    refine (ha si _ hsi (hms.set k hclosed)).bind fun r hr => ?_
    exact .undo hr (reopen_closed hk hun)

/-! ### Balanced text, frontiers and back references -/

theorem balancedFrom_eq (opening closing : UInt8) (n i depth : ℕ) (hn : text.length < n + i) (hi : i ≤ text.length)
    (hdepth : depth + (text.length - i) < 2^31) :
    ∃ j d, balancedFrom text opening closing n i depth = .ok (j, d) ∧ i ≤ j ∧
      balancedEnd opening closing (text.drop i) depth = if d = 0 then some (j - i) else none := by
  induction n generalizing i depth with
  | zero => omega
  | succ n ih =>
    rw [balancedFrom]
    cases depth with
    | zero => exact ⟨i, 0, by simp, le_rfl, by simp [balancedEnd]⟩
    | succ depth =>
      by_cases hlt : i < text.length
      · obtain ⟨c, hc⟩ : ∃ c, c = text[i] := ⟨_, rfl⟩
        obtain ⟨next, hnext⟩ : ∃ next, next =
            if c = closing then depth else if c = opening then depth + 2 else depth + 1 := ⟨_, rfl⟩
        have hle : next ≤ depth + 2 := by rw [hnext]; split_ifs <;> omega
        obtain ⟨j, d, hj, hij, hend⟩ := ih (i + 1) next (by omega) hlt (by omega)
        have hwrap : ((depth + 1 : ℤ) + 1).bmod (2^32) = depth + 1 + 1 := by
          simp only [Int.bmod]
          omega
        refine ⟨j, d, ?_, by omega, ?_⟩
        · rw [if_pos ⟨hlt, by omega⟩, byteAt_ok (List.getElem?_eq_getElem hlt), ok_bind, ← hc, ← hj, hnext]
          split_ifs
          · rw [show ((depth + 1 : ℕ) : ℤ) - 1 = (depth : ℤ) by omega]
          · exact congrArg _ hwrap
          · rfl
        · rw [List.drop_eq_getElem_cons hlt, balancedEnd, ← hc, ← hnext, hend]
          split_ifs
          · exact congrArg some (show j - (i + 1) + 1 = j - i by omega)
          · rfl
      · refine ⟨i, depth + 1, ?_, le_rfl, ?_⟩
        · rw [if_neg fun h => hlt h.1]
          rfl
        · rw [List.drop_eq_nil_of_le (Nat.not_lt.mp hlt), balancedEnd, if_neg (by omega)]

theorem matchBalanced_answer (hlen : text.length < 2^31) (hpp : pp + 3 < pat.length)
    (ha : Agrees text call q (pp + 4) ps) (hms : CapturesOk si ms.captures) :
    Ensures Never (matchBalanced text pat call si pp ms)
      (Answer q ms (results text (.balanced (pat.getD (pp + 2) 0) (pat.getD (pp + 3) 0) :: ps) si ms.captures)) := by
  obtain ⟨opening, ho⟩ : ∃ c, pat[pp + 2]? = some c := ⟨_, List.getElem?_eq_getElem (by omega)⟩
  obtain ⟨closing, hc⟩ : ∃ c, pat[pp + 3]? = some c := ⟨_, List.getElem?_eq_getElem (by omega)⟩
  rw [matchBalanced, if_neg (Nat.not_le.mpr hpp), byteAt_ok ho, ok_bind, byteAt_ok hc, ok_bind, results,
    List.getD_eq_getElem?_getD, List.getD_eq_getElem?_getD, ho, hc]
  simp only [Option.getD_some]
  split
  · next hlt =>
    rw [byteAt_ok (List.getElem?_eq_getElem hlt), ok_bind, List.getElem?_eq_getElem hlt]
    simp only [Option.some.injEq]
    split
    · obtain ⟨j, d, hj, hij, hend⟩ :=
        balancedFrom_eq opening closing (text.length + 1) (si + 1) 1 (by omega) hlt (by omega)
      have hle := (balancedFrom_ensures opening closing (text.length + 1) (si + 1) 1 (by omega) hlt).of_ok hj
      rw [show ((1 : ℕ) : ℤ) = 1 from rfl] at hj
      rw [hj, ok_bind, hend]
      dsimp only
      split
      · dsimp only
        rw [show si + 1 + (j - (si + 1)) = j by omega]
        exact (ha j ms hle.2 (hms.mono (by omega))).mono fun _ h => h.2
      · exact .miss rfl
    · exact .miss rfl
  · next hlt =>
    rw [List.getElem?_eq_none (Nat.not_lt.mp hlt)]
    exact .miss rfl

theorem prevChar_eq (hsi : si ≤ text.length) : prevChar text si = .ok (byteBefore text si) := by
  rw [prevChar, byteBefore]
  split
  · next h =>
    have hlt : si - 1 < text.length := by omega
    rw [if_neg (by omega), byteAt_ok (List.getElem?_eq_getElem hlt), List.getD_eq_getElem?_getD,
      List.getElem?_eq_getElem hlt, Option.getD_some]
  · next h => rw [if_pos (by omega)]

theorem currChar_eq : currChar text si = .ok (byteFrom text si) := by
  rw [currChar, byteFrom]
  split
  · next h => rw [byteAt_ok (List.getElem?_eq_getElem h), List.getD_eq_getElem?_getD,
      List.getElem?_eq_getElem h, Option.getD_some]
  · next h => rw [List.getD_eq_getElem?_getD, List.getElem?_eq_none (Nat.not_lt.mp h), Option.getD_none]

theorem matchFrontier_answer {e : ℕ} (hset : pat[pp + 2]? = some (ch '[')) (hend : elementEnd pat (pp + 2) = .ok e)
    (hread : Readable pat (pp + 2)) (ha : Agrees text call q e ps) (hsi : si ≤ text.length)
    (hms : CapturesOk si ms.captures) :
    Ensures Never (matchFrontier text pat call si pp ms)
      (Answer q ms (results text (.frontier (itemHolds pat (pp + 2)) :: ps) si ms.captures)) := by
  rw [matchFrontier, hasByte_eq, ok_bind, decide_eq_true hset, if_pos rfl, hend, ok_bind, prevChar_eq hsi, ok_bind,
    currChar_eq, ok_bind, itemHolds_spec hread, ok_bind, itemHolds_spec hread, ok_bind, results]
  split
  · exact (ha si ms hsi hms).mono fun _ h => h.2
  · exact .miss rfl

theorem sameBytes_eq (n i j : ℕ) (hi : i + n ≤ text.length) (hj : j + n ≤ text.length) :
    sameBytes text i j n = .ok (decide ((text.drop j).take n = (text.drop i).take n)) := by
  induction n generalizing i j with
  | zero => simp [sameBytes]
  | succ n ih =>
    have hlti : i < text.length := by omega
    have hltj : j < text.length := by omega
    rw [sameBytes, byteAt_ok (List.getElem?_eq_getElem hlti), ok_bind, byteAt_ok (List.getElem?_eq_getElem hltj),
      ok_bind, List.drop_eq_getElem_cons hlti, List.drop_eq_getElem_cons hltj, List.take_succ_cons, List.take_succ_cons]
    split
    · next h => simp [h, ih (i + 1) (j + 1) (by omega) (by omega)]
    · next h => simp [Ne.symm h]

theorem matchBackref_answer {d : UInt8} (hq : ¬q) (hd : pat[pp + 1]? = some d) (ha : Agrees text call q (pp + 2) ps)
    (hms : CapturesOk si ms.captures) :
    Ensures Never (matchBackref text pat call si pp ms)
      (Answer q ms (results text (.backref (pat.getD (pp + 1) 0 - ch '0').toNat :: ps) si ms.captures)) := by
  rw [matchBackref, byteAt_ok hd, ok_bind, results, List.getD_eq_getElem?_getD, hd, Option.getD_some]
  dsimp only
  split
  · exact .failed _ _ hq
  · next hn =>
    have hlt : (d - ch '0').toNat - 1 < ms.captures.length := by omega
    have hmem := List.getElem_mem hlt
    rw [List.getElem?_eq_getElem hlt]
    generalize ms.captures[(d - ch '0').toNat - 1] = cap at hmem
    obtain ⟨start, len⟩ := cap
    cases len with
    | len l =>
      have hstop : start + l ≤ si := hms.upto _ hmem
      dsimp only
      split
      · next hlong =>
        rw [if_neg fun h => by omega]
        exact .miss rfl
      · next hfit =>
        rw [sameBytes_eq l si start (by omega) (by omega), ok_bind]
        split
        · next heq =>
          rw [if_pos ⟨of_decide_eq_true heq, by omega⟩]
          exact (ha _ ms (by omega) (hms.mono (by omega))).mono fun _ h => h.2
        · next hne =>
          rw [if_neg fun h => hne (decide_eq_true h.1)]
          exact .miss rfl
    | position => exact .failed _ _ hq
    | unfinished => exact .failed _ _ hq

end Answers

end LuajitRs.Pattern
