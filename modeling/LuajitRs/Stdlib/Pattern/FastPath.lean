import LuajitRs.Stdlib.Pattern.Plain
import Mathlib.Data.List.TakeWhile

/-! Plain patterns in the matcher. Every byte is literal but a `)`, which the test for plain patterns lets through:
the matcher compares the bytes before it and then fails for want of an open capture. -/
namespace LuajitRs.Pattern

open Lib

variable {text pat repl : List UInt8} {call : Matcher} {ms : MatchState} {c p : UInt8} {si pp n : ℕ}
  {max : Option ℕ}

/-- A byte that does not rule out the byte search. -/
def PlainByte (c : UInt8) : Prop := c ∉ ['%', '.', '[', '*', '+', '-', '?', '^', '$', '('].map ch

theorem isPlainPattern_iff : isPlainPattern pat = true ↔ ∀ c ∈ pat, PlainByte c := by
  simp [isPlainPattern, PlainByte]

/-- The bytes before the first `)`. -/
def literalPart (pat : List UInt8) : List UInt8 := pat.takeWhile (· ≠ ch ')')

theorem suffixAt_plain (h : ∀ c, pat[pp]? = some c → PlainByte c) :
    ∃ suffix, suffixAt pat pp = .ok suffix ∧ suffix ≠ some (ch '*') ∧ suffix ≠ some (ch '+') ∧
      suffix ≠ some (ch '-') ∧ suffix ≠ some (ch '?') := by
  rw [suffixAt]
  split
  · next hpp =>
    obtain ⟨c, hc⟩ : ∃ c, pat[pp]? = some c := ⟨_, List.getElem?_eq_getElem hpp⟩
    refine ⟨some c, by rw [byteAt_ok hc]; rfl, ?_⟩
    have hplain := h c hc
    refine ⟨?_, ?_, ?_, ?_⟩
    all_goals
      intro heq
      cases heq
      exact hplain (by decide)
  · exact ⟨none, rfl, nofun, nofun, nofun, nofun⟩

theorem matchesHere_literal (hp : pat[pp]? = some p) (hplain : PlainByte p) :
    matchesHere text pat si pp = .ok (text[si]? = some p : Bool) := by
  have hdot : p ≠ ch '.' := fun h => hplain (by rw [h]; decide)
  have hesc : p ≠ ch '%' := fun h => hplain (by rw [h]; decide)
  have hset : p ≠ ch '[' := fun h => hplain (by rw [h]; decide)
  rw [matchesHere]
  split
  · next hsi =>
    rw [byteAt_ok (List.getElem?_eq_getElem hsi), ok_bind, singlematch, byteAt_ok hp, ok_bind, if_neg hdot,
      if_neg hesc, if_neg hset, List.getElem?_eq_getElem hsi]
    simp
  · next hsi => simp [List.getElem?_eq_none (Nat.not_lt.mp hsi)]

/-- One literal byte. -/
theorem matchInner_literal (hp : pat[pp]? = some p) (hplain : PlainByte p) (hclose : p ≠ ch ')')
    (hnext : ∀ c, pat[pp + 1]? = some c → PlainByte c) :
    matchInner text pat call (n + 1) si pp ms =
      if text[si]? = some p then matchInner text pat call n (si + 1) (pp + 1) ms else .ok (none, ms) := by
  have hopen : p ≠ ch '(' := fun h => hplain (by rw [h]; decide)
  have hend : p ≠ ch '$' := fun h => hplain (by rw [h]; decide)
  have hesc : p ≠ ch '%' := fun h => hplain (by rw [h]; decide)
  have hset : p ≠ ch '[' := fun h => hplain (by rw [h]; decide)
  obtain ⟨suffix, hsuffix, hstar, hplus, hminus, hquestion⟩ := suffixAt_plain hnext
  rw [matchInner, if_neg (Nat.not_le.mpr (lt_length_of_getElem? hp)), byteAt_ok hp, ok_bind, if_neg hopen,
    if_neg hclose, if_neg fun h => hend h.1, if_neg fun h => hesc h.1, matchItem, elementEnd, byteAt_ok hp, ok_bind,
    if_neg hesc, if_neg hset, pure_eq_ok, ok_bind, hsuffix, ok_bind, if_neg hstar, if_neg hplus, if_neg hminus,
    if_neg hquestion, matchesHere_literal hp hplain, ok_bind]
  simp

/-- The bytes up to the first `)` or the end of the pattern. -/
theorem matchInner_plain (hplain : ∀ c ∈ pat, PlainByte c) (n si pp : ℕ) (h0 : 0 < n) (hn : pat.length < n + pp)
    (hpp : pp ≤ pat.length) :
    matchInner text pat call n si pp ms =
      if literalPart (pat.drop pp) <+: text.drop si then
        if pp + (literalPart (pat.drop pp)).length < pat.length then
          matchCloseCapture call (si + (literalPart (pat.drop pp)).length)
            (pp + (literalPart (pat.drop pp)).length + 1) ms
        else .ok (some (si + (literalPart (pat.drop pp)).length), ms)
      else .ok (none, ms) := by
  induction n generalizing si pp with
  | zero => cases h0
  | succ n ih =>
    by_cases hlt : pp < pat.length
    · have hp : pat[pp]? = some pat[pp] := List.getElem?_eq_getElem hlt
      have hnext (c : UInt8) (hc : pat[pp + 1]? = some c) : PlainByte c := hplain c (List.mem_of_getElem? hc)
      rw [List.drop_eq_getElem_cons hlt]
      generalize pat[pp] = p at hp
      by_cases hclose : p = ch ')'
      · subst hclose
        have hlit : literalPart (ch ')' :: pat.drop (pp + 1)) = [] := by simp [literalPart]
        simp only [hlit, if_pos List.nil_prefix, List.length_nil, Nat.add_zero, if_pos hlt]
        rw [matchInner, if_neg (Nat.not_le.mpr hlt), byteAt_ok hp, ok_bind]
        rfl
      · have hlit : literalPart (p :: pat.drop (pp + 1)) = p :: literalPart (pat.drop (pp + 1)) :=
          List.takeWhile_cons_of_pos (decide_eq_true hclose)
        rw [matchInner_literal hp (hplain p (List.mem_of_getElem? hp)) hclose hnext, hlit]
        by_cases hbyte : text[si]? = some p
        · obtain ⟨hsi, rfl⟩ := List.getElem?_eq_some_iff.mp hbyte
          have hiff : text[si] :: literalPart (pat.drop (pp + 1)) <+: text.drop si ↔
              literalPart (pat.drop (pp + 1)) <+: text.drop (si + 1) := by
            rw [List.drop_eq_getElem_cons hsi, List.cons_prefix_cons, eq_self_iff_true, true_and]
          rw [if_pos hbyte, ih (si + 1) (pp + 1) (by omega) (by omega) hlt]
          simp only [hiff, List.length_cons, Nat.add_assoc, Nat.add_comm 1]
        · rw [if_neg hbyte, if_neg]
          intro hpre
          have hhead := (singleton_prefix_drop_iff (h := text) (i := si)).mp
            ((List.prefix_append [p] _).trans hpre)
          exact hbyte hhead
    · have hnil : pat.drop pp = [] := List.drop_eq_nil_of_le (Nat.not_lt.mp hlt)
      have hlit : literalPart [] = [] := rfl
      rw [matchInner, if_pos (Nat.not_lt.mp hlt), hnil, hlit, if_pos List.nil_prefix, if_neg (by simpa using hlt)]
      rfl

/-! ### Attempts -/

theorem patStart_plain (hplain : ∀ c ∈ pat, PlainByte c) : patStart pat = 0 := by
  rw [patStart, if_neg]
  intro h
  exact hplain _ (List.mem_of_head? h) (by decide)

theorem anchored_plain (hplain : ∀ c ∈ pat, PlainByte c) : anchored pat = false := by
  rw [anchored, patStart_plain hplain]
  rfl

theorem literalPart_eq_self_iff : literalPart pat = pat ↔ ch ')' ∉ pat := by
  rw [literalPart, List.takeWhile_eq_self_iff]
  simp only [ne_eq, decide_not, Bool.not_eq_true', decide_eq_false_iff_not]
  exact ⟨fun h hmem => h _ hmem rfl, fun h c hc heq => h (heq ▸ hc)⟩

theorem literalPart_length_lt_iff : (literalPart pat).length < pat.length ↔ ch ')' ∈ pat := by
  have hle : (literalPart pat).length ≤ pat.length := (List.takeWhile_prefix _).length_le
  have hlen : (literalPart pat).length = pat.length ↔ literalPart pat = pat :=
    ⟨(List.takeWhile_prefix _).eq_of_length, fun h => by rw [h]⟩
  have hnot := not_congr (hlen.trans literalPart_eq_self_iff)
  rw [not_not] at hnot
  exact (lt_iff_le_and_ne.trans (and_iff_right hle)).trans hnot

/-- An attempt with a plain pattern: the literal part decides, and a `)` behind it is an error. -/
theorem attempt_plain (hplain : ∀ c ∈ pat, PlainByte c) :
    attempt text pat si =
      if literalPart pat <+: text.drop si then
        if ch ')' ∈ pat then .error (.raise "invalid pattern capture")
        else .ok (some (si + pat.length, .reset))
      else .ok none := by
  rw [attempt, patStart_plain hplain, MAXCCALLS, matchImpl, if_neg (by decide),
    matchInner_plain hplain _ si 0 (Nat.succ_pos _) (by omega) (Nat.zero_le _)]
  simp only [List.drop_zero, Nat.zero_add, literalPart_length_lt_iff]
  by_cases hpre : literalPart pat <+: text.drop si
  · rw [if_pos hpre, if_pos hpre]
    by_cases hclose : ch ')' ∈ pat
    · rw [if_pos hclose, if_pos hclose]
      rfl
    · rw [if_neg hclose, if_neg hclose, literalPart_eq_self_iff.mpr hclose]
      rfl
  · rw [if_neg hpre, if_neg hpre]
    rfl

theorem validatePattern_plain (hplain : ∀ c ∈ pat, PlainByte c) : validatePattern pat = .ok () := by
  have hfrom (n i : ℕ) (h0 : 0 < n) (hn : pat.length < n + i) : validateFrom pat n i = .ok () := by
    induction n generalizing i with
    | zero => cases h0
    | succ n ih =>
      rw [validateFrom]
      by_cases hi : i < pat.length
      · have hp : pat[i]? = some pat[i] := List.getElem?_eq_getElem hi
        have hbyte := hplain _ (List.mem_of_getElem? hp)
        have hesc : pat[i] ≠ ch '%' := fun h => hbyte (by rw [h]; decide)
        have hset : pat[i] ≠ ch '[' := fun h => hbyte (by rw [h]; decide)
        rw [if_pos hi, validateItem, byteAt_ok hp, ok_bind, if_neg hesc, if_neg hset, pure_eq_ok, ok_bind]
        split
        · next hi1 =>
          have hc : pat[i + 1]? = some pat[i + 1] := List.getElem?_eq_getElem hi1
          rw [byteAt_ok hc, Except.map, ok_bind]
          exact ih _ (by omega) (by split <;> omega)
        · exact ih _ (by omega) (by split <;> omega)
      · rw [if_neg hi]
        rfl
  exact hfrom _ _ (Nat.succ_pos _) (by omega)

/-! ### Finding -/

theorem infix_iff_prefix_drop {xs ys : List UInt8} : xs <:+: ys ↔ ∃ i, xs <+: ys.drop i := by
  constructor
  · intro h
    obtain ⟨s, t, rfl⟩ := h
    refine ⟨s.length, t, ?_⟩
    rw [List.append_assoc, List.drop_left]
  · intro h
    obtain ⟨i, h⟩ := h
    exact h.isInfix.trans (List.drop_suffix i ys).isInfix

theorem findLoop_skip (hanch : anchored pat = false) (si i : ℕ) (hi : si + i ≤ text.length)
    (hnone : ∀ j, si ≤ j → j < si + i → attempt text pat j = .ok none) :
    findLoop text pat (n + i) si = findLoop text pat n (si + i) := by
  induction i generalizing si with
  | zero => rfl
  | succ i ih =>
    rw [← Nat.add_assoc, findLoop, hnone si le_rfl (by omega), ok_bind, hanch, Bool.false_or,
      if_neg (by simpa using (show si < text.length by omega)),
      ih (si + 1) (by omega) fun j h1 h2 => hnone j (by omega) (by omega), Nat.add_assoc si,
      Nat.add_comm 1]

theorem findLoop_none (hn : text.length < n + si) (h0 : 0 < n)
    (hnone : ∀ j, si ≤ j → attempt text pat j = .ok none) : findLoop text pat n si = .ok none := by
  induction n generalizing si with
  | zero => cases h0
  | succ n ih =>
    rw [findLoop, hnone si le_rfl, ok_bind]
    dsimp only
    split
    · rfl
    · next hgo =>
      simp only [Bool.or_eq_true, decide_eq_true_eq, not_or] at hgo
      exact ih (by omega) (by omega) fun j hj => hnone j (by omega)

theorem findLoop_anchored (hanch : anchored pat = true) :
    findLoop text pat (n + 1) si =
      (attempt text pat si).map (Option.map fun a => ⟨si, a.1, extractCaptures a.2⟩) := by
  rw [findLoop]
  cases attempt text pat si with
  | error e => rfl
  | ok a =>
    match a with
    | none => rw [hanch]; rfl
    | some (stop, ms) => rfl

/-- `find` without the byte search. -/
def findGeneral (text pat : List UInt8) (init : ℕ) : Except Stop (Option MatchInfo) :=
  if text.length < init then .ok none else findMatch text pat init true

/-- What the matcher's search returns for a plain pattern. -/
theorem findMatch_plain (hplain : ∀ c ∈ pat, PlainByte c) (hsi : si ≤ text.length) {r : Option ℕ}
    (hr : FirstOcc (text.drop si) (literalPart pat) r) :
    findMatch text pat si true =
      match r with
      | none => .ok none
      | some i => if ch ')' ∈ pat then .error (.raise "invalid pattern capture")
        else .ok (some ⟨si + i, si + i + pat.length, []⟩) := by
  have hanch := anchored_plain hplain
  rw [findMatch, if_pos rfl, validatePattern_plain hplain, ok_bind]
  cases r with
  | none =>
    refine findLoop_none (by omega) (Nat.succ_pos _) fun j hj => ?_
    rw [attempt_plain hplain, if_neg]
    have hno := hr (j - si)
    rwa [List.drop_drop, Nat.add_sub_cancel' hj] at hno
  | some i =>
    have hb := hr.bound
    rw [List.length_drop] at hb
    have hpre : literalPart pat <+: text.drop (si + i) := by
      have := hr.1
      rwa [List.drop_drop] at this
    obtain ⟨n, hn⟩ : ∃ n, text.length + 1 = n + 1 + i := ⟨text.length - i, by omega⟩
    rw [hn, findLoop_skip hanch si i (by omega), findLoop, attempt_plain hplain, if_pos hpre]
    · by_cases hclose : ch ')' ∈ pat
      · rw [if_pos hclose, error_bind]
        dsimp only
        rw [if_pos hclose]
      · rw [if_neg hclose, ok_bind]
        dsimp only
        rw [if_neg hclose]
        rfl
    · intro j hj hlt
      rw [attempt_plain hplain, if_neg]
      have hno := hr.2 (j - si) (by omega)
      rwa [List.drop_drop, Nat.add_sub_cancel' hj] at hno

/-- The two searches differ only where a `)` follows a prefix that occurs in the text. -/
theorem find_eq_general_iff (hplain : ∀ c ∈ pat, PlainByte c) (init : ℕ) :
    find text pat init = findGeneral text pat init ↔
      (ch ')' ∈ pat → init ≤ text.length → ¬ literalPart pat <:+: text.drop init) := by
  rw [find, findImpl, findGeneral, if_pos (isPlainPattern_iff.mpr hplain)]
  by_cases hinit : text.length < init
  · rw [if_pos hinit, if_pos hinit]
    exact ⟨fun _ _ h => absurd hinit (Nat.not_lt.mpr h), fun _ => rfl⟩
  rw [if_neg hinit, if_neg hinit]
  have hle := Nat.not_lt.mp hinit
  obtain ⟨r, hfast, hr⟩ := Ensures.none_iff.mp (findBytesInSlice_ensures (text.drop init) pat)
  obtain ⟨q, -, hq⟩ := Ensures.none_iff.mp (findBytesInSlice_ensures (text.drop init) (literalPart pat))
  rw [findMatch_plain hplain hle hq, findPlain, slice_ok hle le_rfl, ok_bind, List.take_length, hfast, ok_bind]
  by_cases hclose : ch ')' ∈ pat
  · simp only [hclose, hle, true_implies]
    cases q with
    | none =>
      have hno : ¬ literalPart pat <:+: text.drop init := fun h => by
        obtain ⟨i, hi⟩ := infix_iff_prefix_drop.mp h
        exact hq i hi
      cases r with
      | none => exact ⟨fun _ => hno, fun _ => rfl⟩
      | some i => exact absurd ((List.takeWhile_prefix _).trans hr.1) (hq i)
    | some i =>
      have hyes : literalPart pat <:+: text.drop init := infix_iff_prefix_drop.mpr ⟨i, hq.1⟩
      refine ⟨fun h => ?_, fun h => absurd hyes h⟩
      cases r with
      | none => exact nomatch h
      | some i => exact nomatch h
  · have hrq : r = q := hr.unique (by rwa [literalPart_eq_self_iff.mpr hclose] at hq)
    subst hrq
    refine ⟨fun _ h => absurd h hclose, fun _ => ?_⟩
    cases r with
    | none => rfl
    | some i =>
      dsimp only
      rw [if_neg hclose]
      rfl

/-! ### Substituting -/

theorem gsubLoop_skip (hanch : anchored pat = false) (n si i : ℕ) (last : Bool) (lastByteEnd : ℕ) {r : Subst}
    (hlim : limitReached max r.count = false) (hi : si + i ≤ text.length)
    (hnone : ∀ j, si ≤ j → j < si + i → attempt text pat j = .ok none) :
    ∃ b, gsubLoop text pat repl max (n + i) si last lastByteEnd r =
      gsubLoop text pat repl max n (si + i) b lastByteEnd r := by
  induction i generalizing si last with
  | zero => exact ⟨last, rfl⟩
  | succ i ih =>
    have hgo : ¬ (text.length < si ∨ limitReached max r.count = true) := by
      rw [hlim]
      simp only [Bool.false_eq_true, or_false]
      omega
    obtain ⟨b, hb⟩ := ih (si + 1) false (by omega) fun j h1 h2 => hnone j (by omega) (by omega)
    refine ⟨b, ?_⟩
    rw [← Nat.add_assoc, gsubLoop, if_neg hgo, hnone si le_rfl (by omega), ok_bind, hanch, Bool.false_or,
      if_neg (by simpa using (show si < text.length by omega)), hb, Nat.add_assoc si, Nat.add_comm 1]

theorem gsubLoop_none {last : Bool} {lastByteEnd : ℕ} {r : Subst} (hn : text.length < n + si) (h0 : 0 < n)
    (hnone : ∀ j, si ≤ j → attempt text pat j = .ok none) :
    gsubLoop text pat repl max n si last lastByteEnd r = .ok (r, lastByteEnd) := by
  induction n generalizing si last with
  | zero => cases h0
  | succ n ih =>
    rw [gsubLoop]
    split
    · rfl
    · rw [hnone si le_rfl, ok_bind]
      dsimp only
      split
      · rfl
      · next hgo =>
        simp only [Bool.or_eq_true, decide_eq_true_eq, not_or] at hgo
        exact ih (by omega) (by omega) fun j hj => hnone j (by omega)

theorem substitute_congr {f g : UInt8 → Except Stop (List UInt8)} (h : ∀ d, f d = g d) :
    substitute f repl = substitute g repl :=
  congrArg (substitute · repl) (funext h)

/-- Without captures, the two substitutions are the same. -/
theorem gsubPiece_plain {stop : ℕ} (hs : si ≤ stop) (hstop : stop ≤ text.length) :
    gsubPiece text repl si stop .reset = plainPiece repl ((text.take stop).drop si) := by
  have hzero : ∀ d : UInt8, (d - ch '0').toNat = 0 ↔ d = ch '0' := by decide +kernel
  have hone : ∀ d : UInt8, (d - ch '0').toNat = 1 ↔ d = ch '1' := by decide +kernel
  rw [gsubPiece, plainPiece, slice_ok hs hstop, ok_bind]
  congr 1
  refine substitute_congr fun d => ?_
  dsimp only
  by_cases h0 : d = ch '0'
  · rw [if_pos ((hzero d).mpr h0), if_pos h0]
  · have hpos : ¬ (d - ch '0').toNat ≤ MatchState.reset.captures.length :=
      Nat.not_le.mpr (Nat.pos_of_ne_zero (mt (hzero d).mp h0))
    rw [if_neg (mt (hzero d).mp h0), if_neg h0, if_neg hpos]
    by_cases h1 : d = ch '1'
    · rw [if_pos ⟨rfl, (hone d).mpr h1⟩, if_pos h1]
    · rw [if_neg fun h => h1 ((hone d).mp h.2), if_neg h1]

/-- For a literal pattern the two scans are the same. -/
theorem gsubPlainLoop_eq (hplain : ∀ c ∈ pat, PlainByte c) (hne : pat ≠ []) (hclose : ch ')' ∉ pat) (n m pos : ℕ)
    (last : Bool) (r : Subst) (hpos : pos ≤ text.length) (hn : text.length + 1 < n + pos)
    (hm : text.length + 1 < m + pos) :
    gsubPlainLoop text pat repl max n pos r = gsubLoop text pat repl max m pos last pos r := by
  have hlen : 0 < pat.length := List.length_pos_iff.mpr hne
  have hanch := anchored_plain hplain
  have hself := literalPart_eq_self_iff.mpr hclose
  have hattempt (j : ℕ) : attempt text pat j =
      if pat <+: text.drop j then .ok (some (j + pat.length, .reset)) else .ok none := by
    rw [attempt_plain hplain, hself, if_neg hclose]
  induction n generalizing m pos last r with
  | zero => omega
  | succ n ih =>
    by_cases hlim : limitReached max r.count = true
    · obtain ⟨m, rfl⟩ : ∃ k, m = k + 1 := ⟨m - 1, by omega⟩
      rw [gsubPlainLoop, gsubLoop, if_pos (.inr hlim), if_pos (.inr hlim)]
    · have hgo : ¬ (text.length < pos ∨ limitReached max r.count = true) := by
        rw [not_or]
        exact ⟨Nat.not_lt.mpr hpos, hlim⟩
      obtain ⟨q, hfast, hq⟩ := Ensures.none_iff.mp (findBytesInSlice_ensures (text.drop pos) pat)
      rw [gsubPlainLoop, if_neg hgo, slice_ok hpos le_rfl, ok_bind, List.take_length, hfast, ok_bind]
      cases q with
      | none =>
        refine (gsubLoop_none (by omega) (by omega) fun j hj => ?_).symm
        rw [hattempt, if_neg]
        have hno := hq (j - pos)
        rwa [List.drop_drop, Nat.add_sub_cancel' hj] at hno
      | some i =>
        have hb := hq.bound
        rw [List.length_drop] at hb
        have hpre : pat <+: text.drop (pos + i) := by
          have := hq.1
          rwa [List.drop_drop] at this
        have hnone (j : ℕ) (hj : pos ≤ j) (hlt : j < pos + i) : attempt text pat j = .ok none := by
          rw [hattempt, if_neg]
          have hno := hq.2 (j - pos) (by omega)
          rwa [List.drop_drop, Nat.add_sub_cancel' hj] at hno
        obtain ⟨m, rfl⟩ : ∃ k, m = k + 1 + i := ⟨m - 1 - i, by omega⟩
        obtain ⟨b, hskip⟩ := gsubLoop_skip hanch (m + 1) pos i last pos (by simpa using hlim) (by omega) hnone
        have hgo' : ¬ (text.length < pos + i ∨ limitReached max r.count = true) := by
          rw [not_or]
          exact ⟨by omega, hlim⟩
        have hstop : ¬ pos + i + pat.length = pos + i := by omega
        rw [hskip, gsubLoop, if_neg hgo', hattempt, if_pos hpre, ok_bind]
        dsimp only
        rw [if_neg fun h => hstop h.1, slice_ok (Nat.le_add_right _ _) (by omega), ok_bind, ok_bind,
          slice_ok (Nat.le_add_right _ _) (by omega), ok_bind, gsubPiece_plain (Nat.le_add_right _ _) (by omega)]
        congr 1
        funext piece
        rw [if_neg hstop]
        exact ih _ _ _ _ (by omega) (by omega) (by omega)

/-- The error of the matcher at a `)` without an open capture. -/
def captureError : Stop := .raise "invalid pattern capture"

theorem gsubPlain_ne_captureError (text repl : List UInt8) (max : Option ℕ) (hne : pat ≠ []) :
    Ensures (· ≠ captureError) (gsubPlain text pat repl max) fun _ => True := by
  refine gsubPlain_ensures (by decide) (fun n h => ?_) hne
  have htake : s!"invalid capture index %{n}".toList.take 9 = "invalid pattern capture".toList.take 9 :=
    congrArg (fun s => s.toList.take 9) (Stop.raise.inj h)
  rw [String.toList_append, List.take_append_of_le_length (by decide)] at htake
  exact absurd htake (by decide)

/-- The scans differ only where a `)` follows a prefix that occurs in the text, and the limit lets them look. -/
theorem gsub_eq_general_iff (hplain : ∀ c ∈ pat, PlainByte c) :
    gsub text pat repl max = gsubMatch text pat repl max ↔
      (ch ')' ∈ pat → max = some 0 ∨ ¬ literalPart pat <:+: text) := by
  by_cases hne : pat = []
  · subst hne
    exact ⟨fun _ h => (nomatch h), fun _ => rfl⟩
  rw [gsub, if_pos ⟨isPlainPattern_iff.mpr hplain, hne⟩]
  by_cases hclose : ch ')' ∈ pat
  · simp only [hclose, true_implies]
    by_cases hlim : max = some 0
    · subst hlim
      refine ⟨fun _ => .inl rfl, fun _ => ?_⟩
      rw [gsubPlain, gsubMatch, validatePattern_plain hplain, ok_bind, gsubPlainLoop, gsubLoop, if_pos (.inr rfl),
        if_pos (.inr rfl)]
    · have hgo (m : ℕ) (hm : m ≤ text.length) : ¬ (text.length < m ∨ limitReached max Subst.start.count = true) := by
        rw [not_or]
        refine ⟨Nat.not_lt.mpr hm, fun h => hlim ?_⟩
        cases max with
        | none => cases h
        | some m => exact congrArg some (Nat.le_zero.mp (of_decide_eq_true h))
      simp only [hlim, false_or]
      obtain ⟨q, -, hq⟩ := Ensures.none_iff.mp (findBytesInSlice_ensures text (literalPart pat))
      cases q with
      | none =>
        have hno (i : ℕ) : ¬ literalPart pat <+: text.drop i := hq i
        refine ⟨fun _ h => ?_, fun _ => ?_⟩
        · obtain ⟨i, hi⟩ := infix_iff_prefix_drop.mp h
          exact hno i hi
        · obtain ⟨r, hfast, hr⟩ := Ensures.none_iff.mp (findBytesInSlice_ensures (text.drop 0) pat)
          cases r with
          | some i => exact absurd ((List.takeWhile_prefix _).trans hr.1) (hno i)
          | none =>
            rw [gsubMatch, validatePattern_plain hplain, ok_bind,
              gsubLoop_none (by omega) (by omega) fun j _ => by rw [attempt_plain hplain, if_neg (hno j)],
              gsubPlain, gsubPlainLoop, if_neg (hgo 0 (Nat.zero_le _)), slice_ok (Nat.zero_le _) le_rfl, ok_bind,
              List.take_length, hfast, ok_bind]
            rfl
      | some i =>
        have hb := hq.bound
        have hyes : literalPart pat <:+: text := infix_iff_prefix_drop.mpr ⟨i, hq.1⟩
        have herror : gsubMatch text pat repl max = .error captureError := by
          obtain ⟨n, hn⟩ : ∃ n, text.length + 2 = n + 1 + i := ⟨text.length + 1 - i, by omega⟩
          have hlim' : limitReached max Subst.start.count = false := by
            simpa using fun h => hgo 0 (Nat.zero_le _) (.inr h)
          obtain ⟨b, hskip⟩ := gsubLoop_skip (anchored_plain hplain) (n + 1) 0 i false 0 hlim'
            (show 0 + i ≤ text.length by omega) fun j _ hj => by
              rw [attempt_plain hplain, if_neg (hq.2 j (by omega))]
          rw [gsubMatch, validatePattern_plain hplain, ok_bind, hn, hskip, Nat.zero_add, gsubLoop,
            if_neg (hgo i (by omega)), attempt_plain hplain, if_pos hq.1, if_pos hclose]
          rfl
        refine ⟨fun h => ?_, fun h => absurd hyes h⟩
        have hne' := gsubPlain_ne_captureError text repl max hne
        rw [h, herror] at hne'
        exact absurd rfl hne'
  · refine ⟨fun _ h => absurd h hclose, fun _ => ?_⟩
    rw [gsubPlain, gsubMatch, validatePattern_plain hplain, ok_bind,
      gsubPlainLoop_eq hplain hne hclose _ (text.length + 2) 0 false _ (Nat.zero_le _) (by omega) (by omega)]

/-! ### Both operations -/

/-- The byte searches of `find` and `gsub` return what the matcher does. -/
def FastPathsAgree (text pat repl : List UInt8) (init : ℕ) (max : Option ℕ) : Prop :=
  find text pat init = findGeneral text pat init ∧ gsub text pat repl max = gsubMatch text pat repl max

/-- Plain patterns take the fast path soundly exactly where no `)` follows a prefix that the matcher reaches. -/
theorem fastPathsAgree_iff (text repl : List UInt8) (max : Option ℕ) (hplain : isPlainPattern pat = true) (init : ℕ) :
    FastPathsAgree text pat repl init max ↔
      (ch ')' ∈ pat → (init ≤ text.length → ¬ literalPart pat <:+: text.drop init) ∧
        (max = some 0 ∨ ¬ literalPart pat <:+: text)) := by
  rw [FastPathsAgree, find_eq_general_iff (isPlainPattern_iff.mp hplain),
    gsub_eq_general_iff (isPlainPattern_iff.mp hplain)]
  exact forall_and.symm

theorem fastPathsAgree_iff_word :
    FastPathsAgree [97, 98, 97] [97] [37, 49] 1 none ↔
      (ch ')' ∈ [97] → (1 ≤ 3 → ¬ literalPart [97] <:+: [98, 97]) ∧
        ((none : Option ℕ) = some 0 ∨ ¬ literalPart [97] <:+: [97, 98, 97])) :=
  fastPathsAgree_iff [97, 98, 97] _ none rfl 1

/-- `string.find("a)", ")")` and `string.gsub("a)", ")", "b")` succeed; the matcher rejects the pattern. -/
theorem fastPaths_disagree :
    ¬ ∀ (text pat repl : List UInt8) (init : ℕ) (max : Option ℕ), isPlainPattern pat = true →
      FastPathsAgree text pat repl init max := by
  intro h
  have hagree := (h [97, ch ')'] [ch ')'] [98] 0 none (by decide)).1
  exact absurd hagree (by decide)

end LuajitRs.Pattern
