import LuajitRs.Stdlib.Pattern.GsubAgree

/-! The anchor in the three substitutions. The matcher drops the `^` wherever it is tried, and a loop stops at a
miss only: a pattern that matches again behind its match at the first byte is replaced again. -/
namespace LuajitRs.Pattern

open Lib

variable {text pat repl : List UInt8} {max : Option ℕ} {n pos : ℕ} {r : Subst}

/-! ### One substitution -/

section Once
variable (text pat : List UInt8) (max : Option ℕ)

/-- At most one substitution, of the match at the first byte; the text behind it is copied. -/
def replaceFirst (piece : ℕ → MatchState → Except Stop (List UInt8)) : Except Stop Subst := do
  if limitReached max 0 then pure ⟨text, 0, []⟩
  else
    validatePattern pat
    match ← attempt text pat 0 with
    | some (stop, ms) =>
      let bytes ← piece stop ms
      pure ⟨bytes ++ text.drop stop, 1, [(0, stop)]⟩
    | none => pure ⟨text, 0, []⟩

/-- A string replacement looks at the pattern first, whatever the limit. -/
def TextOnce (repl : List UInt8) : Prop :=
  gsub text pat repl max = do
    validatePattern pat
    replaceFirst text pat max (gsubPiece text repl 0)

/-- The piece of the first match in a loop of `find`. -/
def firstPiece (piece : ℕ → MatchInfo → Except Stop (List UInt8)) (stop : ℕ) (ms : MatchState) :
    Except Stop (List UInt8) :=
  piece 0 ⟨0, stop, extractCaptures ms⟩

def FnOnce (call : ℕ → List Arg → Except Stop ReplValue) : Prop :=
  gsubFn text pat max call = replaceFirst text pat max (firstPiece (fnPiece text call))

def TabOnce (get : ℕ → Arg → Except Stop ReplValue) : Prop :=
  gsubTab text pat max get = replaceFirst text pat max (firstPiece (tabPiece text get))

/-- Where the first match is replaced, the limit is reached or the text behind it is as `rest` says. -/
def LastOne (piece : ℕ → MatchState → Except Stop (List UInt8)) (rest : ℕ → Prop) : Prop :=
  validatePattern pat = .ok () → ∀ stop ms bytes, attempt text pat 0 = .ok (some (stop, ms)) →
    piece stop ms = .ok bytes → limitReached max 1 = true ∨ rest stop

/-- The pattern does not match at `si`. -/
def NoMatchAt (si : ℕ) : Prop := text.length < si ∨ attempt text pat si = .ok none

/-- Behind the first match, the pattern does not match where the scan goes on. -/
def NoneBehind (stop : ℕ) : Prop := NoMatchAt text pat (afterMatch 0 stop)

/-- The string loop passes over an empty match directly behind the first one and goes on at the next byte. -/
def PassedBehind (stop : ℕ) : Prop :=
  NoneBehind text pat stop ∨
    stop ≠ 0 ∧ (∃ ms, attempt text pat stop = .ok (some (stop, ms))) ∧ NoMatchAt text pat (stop + 1)

end Once

theorem limitReached_mono {i j : ℕ} (hij : i ≤ j) (h : limitReached max i = true) : limitReached max j = true := by
  cases max with
  | none => exact h
  | some k => exact decide_eq_true ((of_decide_eq_true h).trans hij)

/-- With the first match replaced, only the copy of the rest is left. -/
theorem first_fill (bytes repl : List UInt8) (stop : ℕ) :
    (⟨bytes ++ text.drop stop, 1, [(0, stop)]⟩ : Subst) =
      (replaced text bytes 0 stop 0 .start).fill text repl stop [] := by
  simp [replaced, Subst.fill, Subst.push, Subst.replace, Subst.start, render]

section ReplaceFirst
variable {piece : ℕ → MatchState → Except Stop (List UInt8)} {rest : ℕ → Prop}

theorem replaceFirst_limit (hlim : limitReached max 0 = true) :
    replaceFirst text pat max piece = .ok ⟨text, 0, []⟩ := by
  rw [replaceFirst, if_pos hlim]
  rfl

theorem replaceFirst_rejected {e : Stop} (hlim : limitReached max 0 = false) (hv : validatePattern pat = .error e) :
    replaceFirst text pat max piece = .error e := by
  rw [replaceFirst, hlim, if_neg Bool.false_ne_true, hv]
  rfl

section Tried
variable (hlim : limitReached max 0 = false) (hv : validatePattern pat = .ok ())
include hlim hv

theorem replaceFirst_fails {e : Stop} (ha : attempt text pat 0 = .error e) :
    replaceFirst text pat max piece = .error e := by
  rw [replaceFirst, hlim, if_neg Bool.false_ne_true, hv, ok_bind, ha]
  rfl

theorem replaceFirst_miss (ha : attempt text pat 0 = .ok none) :
    replaceFirst text pat max piece = .ok ⟨text, 0, []⟩ := by
  rw [replaceFirst, hlim, if_neg Bool.false_ne_true, hv, ok_bind, ha]
  rfl

theorem replaceFirst_hit {stop : ℕ} {ms : MatchState} (ha : attempt text pat 0 = .ok (some (stop, ms))) :
    replaceFirst text pat max piece =
      piece stop ms >>= fun bytes => .ok ⟨bytes ++ text.drop stop, 1, [(0, stop)]⟩ := by
  rw [replaceFirst, hlim, if_neg Bool.false_ne_true, hv, ok_bind, ha]
  rfl

end Tried

theorem lastOne_of_limit (hlim : limitReached max 0 = true) : LastOne text pat max piece rest :=
  fun _ _ _ _ _ _ => .inl (limitReached_mono (Nat.zero_le 1) hlim)

theorem lastOne_of_rejected {e : Stop} (hv : validatePattern pat = .error e) : LastOne text pat max piece rest := by
  intro h
  rw [hv] at h
  cases h

theorem lastOne_of_unmatched (ha : ∀ stop ms, attempt text pat 0 ≠ .ok (some (stop, ms))) :
    LastOne text pat max piece rest :=
  fun _ stop ms _ h _ => absurd h (ha stop ms)

theorem lastOne_of_unfilled {e : Stop} {stop : ℕ} {ms : MatchState}
    (ha : attempt text pat 0 = .ok (some (stop, ms))) (hp : piece stop ms = .error e) :
    LastOne text pat max piece rest := by
  intro _ stop' ms' bytes ha' hp'
  rw [ha] at ha'
  cases ha'
  rw [hp] at hp'
  cases hp'

theorem lastOne_iff {stop : ℕ} {ms : MatchState} {bytes : List UInt8} (hv : validatePattern pat = .ok ())
    (ha : attempt text pat 0 = .ok (some (stop, ms))) (hp : piece stop ms = .ok bytes) :
    LastOne text pat max piece rest ↔ limitReached max 1 = true ∨ rest stop := by
  refine ⟨fun h => h hv stop ms bytes ha hp, fun h _ stop' ms' _ ha' _ => ?_⟩
  rw [ha] at ha'
  cases ha'
  exact h

end ReplaceFirst

/-! ### The string loop -/

section Loop
variable (h : Wf pat (patStart pat)) (hanch : anchored pat = true) (hpos : pos ≤ text.length)
include h

/-- A match that is not passed over stays among the visits. -/
theorem gsubLoop_found {last : Bool} {lastByteEnd stop : ℕ} {ms : MatchState} (hl : lastByteEnd ≤ pos)
    (hlim : limitReached max r.count = false) (hpos : pos ≤ text.length)
    (ha : attempt text pat pos = .ok (some (stop, ms))) (hlast : ¬ (stop = pos ∧ last = true)) :
    Ensures (fun _ => True) (gsubLoop text pat repl max (n + 1) pos last lastByteEnd r) fun p =>
      ∃ spans, p.1.visits = r.visits ++ (pos, stop) :: spans := by
  have hwithin := attempt_ensures h hpos
  rw [ha] at hwithin
  obtain ⟨hs, hstop, -⟩ := hwithin _ rfl
  dsimp only at hs hstop
  have hmore {x : Except Stop (Subst × ℕ)} {sj : ℕ} (hx : Ensures (fun _ => True) x fun p =>
      ∃ spans, p.1.visits = r.visits ++ [(pos, stop)] ++ spans ∧ ∀ v ∈ spans, sj ≤ v.1) :
      Ensures (fun _ => True) x fun p => ∃ spans, p.1.visits = r.visits ++ (pos, stop) :: spans := by
    refine hx.mono fun p hp => ?_
    obtain ⟨spans, heq, -⟩ := hp
    rw [List.append_assoc] at heq
    exact ⟨spans, heq⟩
  cases hpiece : gsubPiece text repl pos stop ms with
  | error e =>
    rw [gsubLoop_unfilled hlim hl hpiece hpos hlast ha]
    trivial
  | ok piece =>
    by_cases heq : stop = pos
    · subst heq
      obtain rfl : last = false := by simpa using hlast
      by_cases hend : stop = text.length
      · rw [gsubLoop_empty_end hlim hl hpiece hend ha]
        exact hmore (gsubLoop_visits h _ _ _ _ _ (Nat.le_succ stop))
      · rw [gsubLoop_empty hlim hl hpiece (List.getElem?_eq_getElem (by omega)) ha]
        exact hmore (gsubLoop_visits h _ _ _ _ _ le_rfl)
    · rw [gsubLoop_match hlim hl hpiece hpos heq ha]
      exact hmore (gsubLoop_visits h _ _ _ _ _ le_rfl)

theorem gsubLoop_found_ne {last : Bool} {stop : ℕ} {ms : MatchState} {v : ℕ × ℕ} (hv : r.visits = [v])
    (hlim : limitReached max r.count = false) (hpos : pos ≤ text.length)
    (ha : attempt text pat pos = .ok (some (stop, ms))) (hlast : ¬ (stop = pos ∧ last = true)) :
    gsubLoop text pat repl max (n + 1) pos last pos r >>= copyRest text ≠ .ok (r.fill text repl pos []) := by
  intro heq
  have hvisits : Ensures (fun _ => True)
      (gsubLoop text pat repl max (n + 1) pos last pos r >>= copyRest text) fun s =>
        ∃ spans, s.visits = r.visits ++ (pos, stop) :: spans := by
    refine (gsubLoop_found h le_rfl hlim hpos ha hlast).bind fun p hp => ?_
    refine (copyRest_visits p).mono fun s hs => ?_
    rwa [hs]
  rw [heq] at hvisits
  obtain ⟨spans, hspans⟩ := hvisits
  simp [Subst.fill, hv] at hspans

include hanch hpos

/-- After the first match, the loop replaces nothing more where the pattern does not match again. -/
theorem gsubLoop_again_iff (repl : List UInt8) (max : Option ℕ) {v : ℕ × ℕ} (hn : 0 < n) (hv : r.visits = [v]) :
    gsubLoop text pat repl max n pos false pos r >>= copyRest text = .ok (r.fill text repl pos []) ↔
      limitReached max r.count = true ∨ attempt text pat pos = .ok none := by
  refine ⟨fun heq => ?_, gsubLoop_again hanch hn hpos false⟩
  obtain ⟨n, rfl⟩ : ∃ k, n = k + 1 := ⟨n - 1, by omega⟩
  cases hlim : limitReached max r.count with
  | true => exact .inl rfl
  | false =>
    cases ha : attempt text pat pos with
    | error e =>
      rw [gsubLoop_fails hlim hpos ha] at heq
      cases heq
    | ok a =>
      match a with
      | none => exact .inr rfl
      | some (stop, ms) => exact absurd heq (gsubLoop_found_ne h hv hlim hpos ha (by simp))

/-- Directly behind a non-empty match, an empty one is passed over. -/
theorem gsubLoop_behind_iff {v : ℕ × ℕ} (hv : r.visits = [v]) :
    gsubLoop text pat repl max (n + 2) pos true pos r >>= copyRest text = .ok (r.fill text repl pos []) ↔
      limitReached max r.count = true ∨ attempt text pat pos = .ok none ∨
        (∃ ms, attempt text pat pos = .ok (some (pos, ms))) ∧ NoMatchAt text pat (pos + 1) := by
  cases hlim : limitReached max r.count with
  | true => exact iff_of_true (gsubLoop_again hanch (by omega) hpos true (.inl hlim)) (.inl rfl)
  | false =>
    obtain ⟨e, ha⟩ | ha | ⟨ms, ha⟩ | ⟨stop, ms, hlt, hstop, ha⟩ := attempt_cases h hpos
    · rw [gsubLoop_fails hlim hpos ha, ha]
      exact iff_of_false nofun (by simp)
    · exact iff_of_true (gsubLoop_again hanch (by omega) hpos true (.inr ha)) (.inr (.inl ha))
    · have hrest : (false = true ∨ attempt text pat pos = .ok none ∨
          (∃ ms, attempt text pat pos = .ok (some (pos, ms))) ∧ NoMatchAt text pat (pos + 1)) ↔
          NoMatchAt text pat (pos + 1) := by simp [ha]
      rw [hrest, NoMatchAt]
      by_cases hend : pos = text.length
      · rw [gsubLoop_pass_end hlim hend ha, gsubLoop_end (Nat.succ_pos n) (by omega)]
        exact iff_of_true (copyRest_eq_fill hpos repl) (.inl (by omega))
      · have hc : text[pos]? = some text[pos] := List.getElem?_eq_getElem (by omega)
        have hagain := gsubLoop_again_iff h hanch (show pos + 1 ≤ text.length by omega) repl max
          (Nat.succ_pos n) (show (r.push [text[pos]]).visits = [v] from hv)
        rw [show (r.push [text[pos]]).count = r.count from rfl, hlim,
          fill_push hc fun v hv => absurd hv List.not_mem_nil] at hagain
        rw [gsubLoop_pass hlim hc ha, hagain, or_iff_right Bool.false_ne_true,
          or_iff_right (show ¬ text.length < pos + 1 by omega)]
    · refine iff_of_false (gsubLoop_found_ne h hv hlim hpos ha fun hp => by omega) ?_
      rw [ha]
      simp only [Except.ok.injEq, Option.some.injEq, Prod.mk.injEq, reduceCtorEq, false_or]
      rintro ⟨⟨ms', heq, -⟩, -⟩
      omega

end Loop

/-! ### The law -/

section Law
variable (hanch : anchored pat = true)
include hanch

theorem isPlainPattern_of_anchored : isPlainPattern pat = false := by
  rw [← Bool.not_eq_true]
  intro hplain
  rw [anchored_plain (isPlainPattern_iff.mp hplain)] at hanch
  cases hanch

theorem textOnce_iff :
    TextOnce text pat max repl ↔ LastOne text pat max (gsubPiece text repl 0) (PassedBehind text pat) := by
  have hplain := isPlainPattern_of_anchored hanch
  rw [TextOnce]
  cases hv : validatePattern pat with
  | error e =>
    refine iff_of_true ?_ (lastOne_of_rejected hv)
    rw [gsub, hplain, if_neg fun h => Bool.noConfusion h.1, gsubMatch, hv]
    rfl
  | ok u =>
    have h := wf_of_validatePattern hv
    rw [gsub_eq_gsubLoop hv (fun hp => by rw [hplain] at hp; cases hp), ok_bind]
    cases hlim : limitReached max 0 with
    | true =>
      refine iff_of_true ?_ (lastOne_of_limit hlim)
      rw [gsubLoop_limit (by omega) hlim, replaceFirst_limit hlim]
      exact copyRest_eq_fill (Nat.zero_le _) repl
    | false =>
      have hlim' : limitReached max Subst.start.count = false := hlim
      obtain ⟨e, ha⟩ | ha | ⟨ms, ha⟩ | ⟨stop, ms, hlt, hstop, ha⟩ := attempt_cases h (Nat.zero_le text.length)
      · rw [gsubLoop_fails hlim' (Nat.zero_le _) ha, replaceFirst_fails hlim hv ha]
        exact iff_of_true rfl (lastOne_of_unmatched fun stop ms heq => by rw [ha] at heq; cases heq)
      · rw [gsubLoop_miss_end hlim' (Nat.zero_le _) (.inl hanch) ha, replaceFirst_miss hlim hv ha]
        refine iff_of_true ?_ (lastOne_of_unmatched fun stop ms heq => by rw [ha] at heq; cases heq)
        exact copyRest_eq_fill (Nat.zero_le _) repl
      · rw [replaceFirst_hit hlim hv ha]
        cases hp : gsubPiece text repl 0 0 ms with
        | error e =>
          rw [gsubLoop_unfilled hlim' le_rfl hp (Nat.zero_le _) (by simp) ha]
          exact iff_of_true rfl (lastOne_of_unfilled ha hp)
        | ok bytes =>
          have hbehind : PassedBehind text pat 0 ↔ NoMatchAt text pat (0 + 1) := by
            rw [PassedBehind, NoneBehind, afterMatch_self]
            exact or_iff_left fun hne => hne.1 rfl
          rw [lastOne_iff hv ha hp, ok_bind, first_fill bytes repl, hbehind, NoMatchAt]
          by_cases hend : 0 = text.length
          · rw [gsubLoop_empty_end hlim' le_rfl hp hend ha, gsubLoop_end (by omega) (by omega)]
            exact iff_of_true (copyRest_eq_fill (Nat.zero_le _) repl) (.inr (.inl (by omega)))
          · have hc : text[0]? = some text[0] := List.getElem?_eq_getElem (by omega)
            rw [gsubLoop_empty hlim' le_rfl hp hc ha, ← fill_push hc fun v hv => absurd hv List.not_mem_nil,
              gsubLoop_again_iff h hanch (show 0 + 1 ≤ text.length by omega) repl max (Nat.succ_pos _) rfl,
              or_iff_right (show ¬ text.length < 0 + 1 by omega)]
            rfl
      · rw [replaceFirst_hit hlim hv ha]
        cases hp : gsubPiece text repl 0 stop ms with
        | error e =>
          rw [gsubLoop_unfilled hlim' le_rfl hp (Nat.zero_le _) (by simp) ha]
          exact iff_of_true rfl (lastOne_of_unfilled ha hp)
        | ok bytes =>
          have hne : stop ≠ 0 := by omega
          obtain ⟨n, hn⟩ : ∃ n, text.length + 1 = n + 2 := ⟨text.length - 1, by omega⟩
          rw [lastOne_iff hv ha hp, ok_bind, first_fill bytes repl, PassedBehind, NoneBehind, NoMatchAt,
            afterMatch_of_ne hne, or_iff_right (show ¬ text.length < stop by omega), and_iff_right hne,
            gsubLoop_match hlim' le_rfl hp (Nat.zero_le _) hne ha, hn, gsubLoop_behind_iff h hanch hstop rfl]
          rfl

theorem findOnce_iff {piece : ℕ → MatchInfo → Except Stop (List UInt8)} :
    gsubFind text pat max piece = replaceFirst text pat max (firstPiece piece) ↔
      LastOne text pat max (firstPiece piece) (NoneBehind text pat) := by
  have hplain := isPlainPattern_of_anchored hanch
  have hdone : copyRest text (Subst.start, 0) = .ok ⟨text, 0, []⟩ := copyRest_eq_fill (Nat.zero_le _) []
  rw [gsubFind, gsubFindLoop]
  cases hlim : limitReached max 0 with
  | true =>
    refine iff_of_true ?_ (lastOne_of_limit hlim)
    rw [if_pos (show limitReached max Subst.start.count = true from hlim), replaceFirst_limit hlim]
    exact hdone
  | false =>
    rw [show limitReached max Subst.start.count = false from hlim, if_neg Bool.false_ne_true]
    cases hv : validatePattern pat with
    | error e =>
      refine iff_of_true ?_ (lastOne_of_rejected hv)
      rw [find, findImpl, if_neg (Nat.not_lt.mpr (Nat.zero_le _)), hplain, if_neg Bool.false_ne_true, findMatch,
        if_pos rfl, hv, replaceFirst_rejected hlim hv]
      rfl
    | ok u =>
      have h := wf_of_validatePattern hv
      have hfind (pos : ℕ) (hpos : pos ≤ text.length) :=
        find_eq_findLoop hv (fun hp => by rw [hplain] at hp; cases hp) hpos
      have hloop : find text pat 0 = _ := (hfind 0 (Nat.zero_le _)).trans (findLoop_anchored hanch)
      rw [hloop]
      obtain ⟨e, ha⟩ | ha | ⟨ms, ha⟩ | ⟨stop, ms, hlt, hstop, ha⟩ := attempt_cases h (Nat.zero_le text.length)
      · rw [replaceFirst_fails hlim hv ha, ha]
        exact iff_of_true rfl (lastOne_of_unmatched fun stop ms heq => by rw [ha] at heq; cases heq)
      · rw [replaceFirst_miss hlim hv ha, ha]
        exact iff_of_true hdone (lastOne_of_unmatched fun stop ms heq => by rw [ha] at heq; cases heq)
      · rw [replaceFirst_hit hlim hv ha, ha]
        simp only [Except.map, Option.map, ok_bind, slice_ok (Nat.zero_le 0) (Nat.zero_le _), if_pos]
        rw [show firstPiece piece 0 ms = piece Subst.start.count ⟨0, 0, extractCaptures ms⟩ from rfl]
        cases hp : piece Subst.start.count ⟨0, 0, extractCaptures ms⟩ with
        | error e => exact iff_of_true rfl (lastOne_of_unfilled ha hp)
        | ok bytes =>
          rw [lastOne_iff hv ha hp, ok_bind, ok_bind, first_fill bytes [], NoneBehind, NoMatchAt,
            afterMatch_self]
          by_cases hend : 0 = text.length
          · rw [if_pos hend]
            exact iff_of_true (copyRest_eq_fill (Nat.zero_le _) []) (.inr (.inl (by omega)))
          · have hc : text[0]? = some text[0] := List.getElem?_eq_getElem (by omega)
            rw [if_neg hend, byteAt_ok hc, ok_bind, or_iff_right (show ¬ text.length < 0 + 1 by omega),
              ← fill_push hc fun v hv => absurd hv List.not_mem_nil]
            exact gsubFindLoop_again hanch hfind piece [] max ((replaced text bytes 0 0 0 .start).push [text[0]])
              (Nat.succ_pos _) (by omega) rfl
      · have hne : stop ≠ 0 := by omega
        rw [replaceFirst_hit hlim hv ha, ha]
        simp only [Except.map, Option.map, ok_bind, slice_ok (Nat.zero_le 0) (Nat.zero_le _), if_neg hne]
        rw [show firstPiece piece stop ms = piece Subst.start.count ⟨0, stop, extractCaptures ms⟩ from rfl]
        cases hp : piece Subst.start.count ⟨0, stop, extractCaptures ms⟩ with
        | error e => exact iff_of_true rfl (lastOne_of_unfilled ha hp)
        | ok bytes =>
          rw [lastOne_iff hv ha hp, ok_bind, ok_bind, first_fill bytes [], NoneBehind, NoMatchAt,
            afterMatch_of_ne hne, or_iff_right (show ¬ text.length < stop by omega)]
          exact gsubFindLoop_again hanch hfind piece [] max (replaced text bytes 0 stop 0 .start) (Nat.succ_pos _)
            hstop rfl

end Law

/-- Each substitution replaces the match at the first byte only exactly where its loop finds no other behind it. -/
theorem anchor_law (text pat repl : List UInt8) (max : Option ℕ) (call : ℕ → List Arg → Except Stop ReplValue)
    (get : ℕ → Arg → Except Stop ReplValue) :
    (TextOnce text (ch '^' :: pat) max repl ↔
      LastOne text (ch '^' :: pat) max (gsubPiece text repl 0) (PassedBehind text (ch '^' :: pat))) ∧
    (FnOnce text (ch '^' :: pat) max call ↔
      LastOne text (ch '^' :: pat) max (firstPiece (fnPiece text call)) (NoneBehind text (ch '^' :: pat))) ∧
    (TabOnce text (ch '^' :: pat) max get ↔
      LastOne text (ch '^' :: pat) max (firstPiece (tabPiece text get)) (NoneBehind text (ch '^' :: pat))) := by
  have hanch : anchored (ch '^' :: pat) = true := by simp [anchored, patStart]
  exact ⟨textOnce_iff hanch, findOnce_iff hanch, findOnce_iff hanch⟩

/-- `string.gsub("aa", "^a", "x")` is `xx`. -/
theorem anchor_retried :
    ¬ ∀ (text pat repl : List UInt8) (max : Option ℕ) (call : ℕ → List Arg → Except Stop ReplValue)
      (get : ℕ → Arg → Except Stop ReplValue),
      TextOnce text (ch '^' :: pat) max repl ∧ FnOnce text (ch '^' :: pat) max call ∧
        TabOnce text (ch '^' :: pat) max get := by
  intro h
  have honce := (h [97, 97] [97] [120] none (fun _ _ => .ok .nil) (fun _ _ => .ok .nil)).1
  exact absurd honce (by unfold TextOnce; decide)

end LuajitRs.Pattern
