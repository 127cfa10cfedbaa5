import LuajitRs.Stdlib.Pattern.GsubLaw

/-! When `string.gsub` is independent of the kind of replacement and does what the scan of Lua 5.1 does. -/
namespace LuajitRs.Pattern

open Lib

variable {text pat repl : List UInt8} {max : Option ℕ} {n pos : ℕ} {r : Subst}

/-! ### Constant replacements -/

theorem gsubFindLoop_congr {p q : ℕ → MatchInfo → Except Stop (List UInt8)}
    (hpq : ∀ i m, m.Within text 0 → p i m = q i m) (n pos : ℕ) (r : Subst) :
    gsubFindLoop text pat max p n pos r = gsubFindLoop text pat max q n pos r := by
  induction n generalizing pos r with
  | zero => rfl
  | succ n ih =>
    rw [gsubFindLoop, gsubFindLoop]
    split
    · rfl
    · have hall := find_ensures text pat pos
      cases hf : find text pat pos with
      | error e => rfl
      | ok f =>
        rw [hf] at hall
        cases f with
        | none => rfl
        | some m =>
          have hm := hall m rfl
          have heq : p r.count m = q r.count m := hpq _ _ ⟨Nat.zero_le _, hm.span, hm.stop, hm.captures⟩
          rw [ok_bind, ok_bind]
          dsimp only
          simp only [heq, ih]

/-- A function that returns the same string at every call. -/
theorem gsubFn_const (text pat repl : List UInt8) (max : Option ℕ) :
    gsubFn text pat max (fun _ _ => .ok (.str repl)) = gsubFind text pat max (fun _ _ => .ok repl) := by
  have hpiece (i : ℕ) (m : MatchInfo) (hm : m.Within text 0) :
      fnPiece text (fun _ _ => .ok (.str repl)) i m = .ok repl := by
    obtain ⟨args, hargs, -⟩ := Ensures.none_iff.mp (matchArgs_ensures hm)
    rw [fnPiece, hargs]
    rfl
  rw [gsubFn, gsubFind, gsubFind, gsubFindLoop_congr hpiece]

/-- A table that maps every key to the same string. -/
theorem gsubTab_const (text pat repl : List UInt8) (max : Option ℕ) :
    gsubTab text pat max (fun _ _ => .ok (.str repl)) = gsubFind text pat max (fun _ _ => .ok repl) := by
  have hpiece (i : ℕ) (m : MatchInfo) (hm : m.Within text 0) :
      tabPiece text (fun _ _ => .ok (.str repl)) i m = .ok repl := by
    obtain ⟨key, hkey, -⟩ := Ensures.none_iff.mp (tabKey_ensures hm)
    rw [tabPiece, hkey]
    rfl
  rw [gsubTab, gsubFind, gsubFind, gsubFindLoop_congr hpiece]

/-! ### Anchored patterns -/

/-- A match at the beginning, if there is one, is the last allowed one or the pattern does not match behind it. -/
def TriedOnce (text pat : List UInt8) (max : Option ℕ) (spans : List (ℕ × ℕ)) : Prop :=
  ∀ stop, (0, stop) ∈ spans →
    max = some 1 ∨ text.length < afterMatch 0 stop ∨ attempt text pat (afterMatch 0 stop) = .ok none

section Visits
variable {piece : ℕ → MatchInfo → Except Stop (List UInt8)}

/-- After a match has been found, it stays among the visits. -/
theorem gsubFindLoop_found {m : MatchInfo}
    (hrest : ∀ pos r, Ensures (fun _ => True) (gsubFindLoop text pat max piece n pos r) fun p =>
      r.visits <+: p.1.visits)
    (hlim : limitReached max r.count = false) (hf : find text pat pos = .ok (some m)) :
    Ensures (fun _ => True) (gsubFindLoop text pat max piece (n + 1) pos r) fun p =>
      r.visits ++ [(m.start, m.stop)] <+: p.1.visits := by
  rw [gsubFindLoop, hlim, if_neg Bool.false_ne_true, hf, ok_bind]
  dsimp only
  cases slice text pos m.start with
  | error e => trivial
  | ok between =>
    rw [ok_bind]
    cases piece r.count m with
    | error e => trivial
    | ok bytes =>
      rw [ok_bind]
      split
      · split
        · exact List.prefix_rfl
        · cases byteAt text m.stop with
          | error e => trivial
          | ok c => exact hrest _ _
      · exact hrest _ _

theorem gsubFindLoop_visits (piece : ℕ → MatchInfo → Except Stop (List UInt8)) (n pos : ℕ) (r : Subst) :
    Ensures (fun _ => True) (gsubFindLoop text pat max piece n pos r) fun p => r.visits <+: p.1.visits := by
  induction n generalizing pos r with
  | zero => trivial
  | succ n ih =>
    cases hlim : limitReached max r.count with
    | true =>
      rw [gsubFindLoop, if_pos hlim]
      exact List.prefix_rfl
    | false =>
      cases hf : find text pat pos with
      | error e =>
        rw [gsubFindLoop, hlim, if_neg Bool.false_ne_true, hf]
        trivial
      | ok f =>
        cases f with
        | none =>
          rw [gsubFindLoop, hlim, if_neg Bool.false_ne_true, hf]
          exact List.prefix_rfl
        | some m =>
          exact (gsubFindLoop_found ih hlim hf).mono fun p hp => (List.prefix_append _ _).trans hp

end Visits

theorem triedOnce_singleton {stop : ℕ} :
    (∀ spans, (Except.ok [(0, stop)] : Except Stop _) = .ok spans → TriedOnce text pat max spans) ↔
      max = some 1 ∨ text.length < afterMatch 0 stop ∨ attempt text pat (afterMatch 0 stop) = .ok none := by
  simp [TriedOnce]

section Anchored
variable (hanch : anchored pat = true)
  (hfind : ∀ pos ≤ text.length, find text pat pos = findLoop text pat (text.length + 1) pos)

theorem limitReached_one (h0 : max ≠ some 0) (hc : r.count = 1) : limitReached max r.count = true ↔ max = some 1 := by
  rw [hc]
  cases max with
  | none => exact iff_of_false nofun nofun
  | some k =>
    have hk : k ≠ 0 := fun h => h0 (congrArg some h)
    simp only [limitReached, Option.any_some, decide_eq_true_eq, Option.some.injEq]
    omega

include hanch

/-- After the first match, the string loop ends where the limit is reached or the pattern does not match again. -/
theorem gsubLoop_again (hn : 0 < n) (hpos : pos ≤ text.length) (last : Bool)
    (hend : limitReached max r.count = true ∨ attempt text pat pos = .ok none) :
    gsubLoop text pat repl max n pos last pos r >>= copyRest text = .ok (r.fill text repl pos []) := by
  obtain ⟨n, rfl⟩ : ∃ k, n = k + 1 := ⟨n - 1, by omega⟩
  cases hlim : limitReached max r.count with
  | true =>
    rw [gsubLoop_limit hn hlim]
    exact copyRest_eq_fill hpos repl
  | false =>
    rw [hlim] at hend
    rw [gsubLoop_miss_end hlim hpos (.inl hanch) (hend.resolve_left Bool.false_ne_true)]
    exact copyRest_eq_fill hpos repl

include hfind

/-- The other loop ends there alike, and otherwise it replaces more. -/
theorem gsubFindLoop_again (piece : ℕ → MatchInfo → Except Stop (List UInt8)) (repl : List UInt8) (max : Option ℕ)
    (r : Subst) (hn : 0 < n) (hpos : pos ≤ text.length) {v : ℕ × ℕ} (hv : r.visits = [v]) :
    gsubFindLoop text pat max piece n pos r >>= copyRest text = .ok (r.fill text repl pos []) ↔
      limitReached max r.count = true ∨ attempt text pat pos = .ok none := by
  obtain ⟨n, rfl⟩ : ∃ k, n = k + 1 := ⟨n - 1, by omega⟩
  cases hlim : limitReached max r.count with
  | true =>
    rw [gsubFindLoop, if_pos hlim]
    exact iff_of_true (copyRest_eq_fill hpos repl) (.inl rfl)
  | false =>
    have hloop : find text pat pos = _ := (hfind pos hpos).trans (findLoop_anchored hanch)
    cases ha : attempt text pat pos with
    | error e =>
      rw [ha] at hloop
      rw [gsubFindLoop, hlim, if_neg Bool.false_ne_true, hloop]
      exact iff_of_false (by rintro ⟨⟩) (by simp)
    | ok a =>
      rw [ha] at hloop
      rcases a with _ | ⟨stop, ms⟩
      · rw [gsubFindLoop, hlim, if_neg Bool.false_ne_true, hloop]
        exact iff_of_true (copyRest_eq_fill hpos repl) (.inr rfl)
      · refine iff_of_false (fun heq => ?_) (by simp)
        have hvisits : Ensures (fun _ => True)
            (gsubFindLoop text pat max piece (n + 1) pos r >>= copyRest text) fun s =>
              r.visits ++ [(pos, stop)] <+: s.visits := by
          refine (gsubFindLoop_found (gsubFindLoop_visits _ n) hlim hloop).bind fun p hp => ?_
          refine (copyRest_visits p).mono fun s hs => ?_
          rwa [hs]
        rw [heq] at hvisits
        have hlen := List.IsPrefix.length_le hvisits
        simp [Subst.fill, hv] at hlen

/-- An anchored pattern: both loops do what the scan does where the pattern does not match a second time. -/
theorem anchored_law (h : Wf pat (patStart pat)) (hrepl : ch '%' ∉ repl) (h0 : max ≠ some 0)
    (hlim : limitReached max 0 = false) :
    (gsubLoop text pat repl max (text.length + 2) 0 false 0 .start >>= copyRest text =
        (scanFrom text pat max (text.length + 1) 0 0).map (Subst.start.fill text repl 0) ∧
      gsubFindLoop text pat max (fun _ _ => .ok repl) (text.length + 2) 0 .start >>= copyRest text =
        (scanFrom text pat max (text.length + 1) 0 0).map (Subst.start.fill text repl 0)) ↔
      ∀ spans, scanFrom text pat max (text.length + 1) 0 0 = .ok spans → TriedOnce text pat max spans := by
  have hloop : find text pat 0 = _ := (hfind 0 (Nat.zero_le _)).trans (findLoop_anchored hanch)
  have hlim' : limitReached max Subst.start.count = false := hlim
  have hdone : copyRest text (Subst.start, 0) = .ok (Subst.start.fill text repl 0 []) :=
    copyRest_eq_fill (Nat.zero_le _) repl
  obtain ⟨e, ha⟩ | ha | ⟨ms, ha⟩ | ⟨stop, ms, hlt, hstop, ha⟩ := attempt_cases h (Nat.zero_le text.length)
  · rw [ha] at hloop
    rw [scanFrom_fails hlim ha, gsubLoop_fails hlim' (Nat.zero_le _) ha, gsubFindLoop, hlim',
      if_neg Bool.false_ne_true, hloop]
    exact iff_of_true ⟨rfl, rfl⟩ (by rintro _ ⟨⟩)
  · rw [ha] at hloop
    rw [scanFrom_miss_end hlim (.inl hanch) ha, gsubLoop_miss_end hlim' (Nat.zero_le _) (.inl hanch) ha,
      gsubFindLoop, hlim', if_neg Bool.false_ne_true, hloop]
    refine iff_of_true ⟨hdone, hdone⟩ fun spans hs => ?_
    cases hs
    exact by rintro _ ⟨⟩
  · have htarget : Subst.start.fill text repl 0 [(0, 0)] = (replaced text repl 0 0 0 .start).fill text repl 0 [] :=
      fill_cons _ _ _ _ _
    rw [ha] at hloop
    rw [scanFrom_hit_end hlim (.inl hanch) ha, gsubFindLoop, hlim', if_neg Bool.false_ne_true, hloop,
      Except.map, htarget, triedOnce_singleton]
    simp only [Except.map, Option.map, ok_bind, slice_ok (Nat.zero_le 0) (Nat.zero_le _), if_pos]
    by_cases hend : 0 = text.length
    · rw [gsubLoop_empty_end hlim' le_rfl (gsubPiece_literal hrepl ..) hend ha, gsubLoop_end (by omega) (by omega), if_pos hend]
      have hsame := copyRest_eq_fill (r := replaced text repl 0 0 0 .start) (Nat.zero_le text.length) repl
      refine iff_of_true ⟨hsame, hsame⟩ (.inr (.inl ?_))
      rw [afterMatch_self]
      omega
    · have hc : text[0]? = some text[0] := List.getElem?_eq_getElem (by omega)
      have hend' : ¬ text.length < afterMatch 0 0 := by
        rw [afterMatch_self]
        omega
      rw [gsubLoop_empty hlim' le_rfl (gsubPiece_literal hrepl ..) hc ha, if_neg hend, byteAt_ok hc, ok_bind,
        ← fill_push hc (fun v hv => absurd hv List.not_mem_nil), or_iff_right hend', afterMatch_self,
        ← limitReached_one (r := (replaced text repl 0 0 0 .start).push [text[0]]) h0 rfl]
      have hagain := gsubFindLoop_again hanch hfind (fun _ _ => .ok repl) repl max
        ((replaced text repl 0 0 0 .start).push [text[0]]) (Nat.succ_pos text.length) (show 1 ≤ text.length by omega) rfl
      refine (and_congr_right fun _ => hagain).trans (and_iff_right_of_imp fun hcond => ?_)
      exact gsubLoop_again hanch (by omega) (by omega) false hcond
  · have hne : stop ≠ 0 := by omega
    have htarget : Subst.start.fill text repl 0 [(0, stop)] =
        (replaced text repl 0 stop 0 .start).fill text repl stop [] := fill_cons _ _ _ _ _
    have hend : ¬ text.length < afterMatch 0 stop := by
      rw [afterMatch_of_ne hne]
      omega
    rw [ha] at hloop
    rw [scanFrom_hit_end hlim (.inl hanch) ha, gsubFindLoop, hlim', if_neg Bool.false_ne_true, hloop,
      Except.map, htarget, triedOnce_singleton, gsubLoop_match hlim' le_rfl (gsubPiece_literal hrepl ..) (Nat.zero_le _) hne ha,
      or_iff_right hend, afterMatch_of_ne hne, ← limitReached_one (r := replaced text repl 0 stop 0 .start) h0 rfl]
    simp only [Except.map, Option.map, ok_bind, slice_ok (Nat.zero_le 0) (Nat.zero_le _), if_neg hne]
    have hagain := gsubFindLoop_again hanch hfind (fun _ _ => .ok repl) repl max (replaced text repl 0 stop 0 .start)
      (Nat.succ_pos text.length) hstop rfl
    refine (and_congr_right fun _ => hagain).trans (and_iff_right_of_imp fun hcond => ?_)
    exact gsubLoop_again hanch (by omega) hstop true hcond

end Anchored

/-! ### All kinds of replacement -/

section Agree
variable (text pat repl : List UInt8) (max : Option ℕ)

/-- The three substitutions by one string return what the scan of Lua 5.1 does, and replace the same matches. -/
def GsubsAgree : Prop :=
  gsub text pat repl max = strGsub text pat max repl ∧
  gsubFn text pat max (fun _ _ => .ok (.str repl)) = strGsub text pat max repl ∧
  gsubTab text pat max (fun _ _ => .ok (.str repl)) = strGsub text pat max repl

/-- The substitutions on which the loops do what the scan does. -/
structure GsubRegular : Prop where
  /-- Without a match to replace, only a string replacement looks at the pattern. -/
  accepted : max = some 0 → validatePattern pat = .ok ()
  /-- The byte search does not meet a `)` that the matcher would reject. -/
  closed : isPlainPattern pat = true → ch ')' ∈ pat → max = some 0 ∨ ¬ literalPart pat <:+: text
  once : anchored pat = true → ∀ s, strGsub text pat max repl = .ok s → TriedOnce text pat max s.visits
  behind : anchored pat = false → ∀ s, strGsub text pat max repl = .ok s → NoEmptyBehind none s.visits
  inPlace : anchored pat = false → ∀ s, strGsub text pat max repl = .ok s → EndsInPlace text.length 0 s.visits

end Agree

/-- With the limit 0, only the string replacement rejects a malformed pattern. -/
theorem gsubsAgree_zero_iff : GsubsAgree text pat repl (some 0) ↔ validatePattern pat = .ok () := by
  have hdone : copyRest text (Subst.start, 0) = .ok (Subst.start.fill text repl 0 []) :=
    copyRest_eq_fill (Nat.zero_le _) repl
  have href : strGsub text pat (some 0) repl = .ok (Subst.start.fill text repl 0 []) := rfl
  have hfind : gsubFind text pat (some 0) (fun _ _ => .ok repl) = .ok (Subst.start.fill text repl 0 []) := by
    rw [gsubFind, gsubFindLoop]
    exact hdone
  rw [GsubsAgree, gsubFn_const, gsubTab_const, href, hfind]
  simp only [and_true]
  rw [gsub]
  split
  · next hplain =>
    rw [validatePattern_plain (isPlainPattern_iff.mp hplain.1), gsubPlain, gsubPlainLoop, if_pos (.inr rfl)]
    exact iff_of_true hdone rfl
  · rw [gsubMatch]
    cases validatePattern pat with
    | error e => exact iff_of_false (by rintro ⟨⟩) (by rintro ⟨⟩)
    | ok u =>
      rw [ok_bind, gsubLoop_limit (by omega) rfl]
      exact iff_of_true hdone rfl

/-- A plain pattern with a `)` that the matcher reaches. -/
theorem strGsub_captureError (hplain : ∀ c ∈ pat, PlainByte c) (hclose : ch ')' ∈ pat)
    (hocc : literalPart pat <:+: text) (hlim : limitReached max 0 = false) :
    strGsub text pat max repl = .error captureError := by
  obtain ⟨q, -, hq⟩ := Ensures.none_iff.mp (findBytesInSlice_ensures text (literalPart pat))
  cases q with
  | none =>
    obtain ⟨i, hi⟩ := infix_iff_prefix_drop.mp hocc
    exact absurd hi (hq i)
  | some i =>
    have hb := hq.bound
    obtain ⟨n, hn⟩ : ∃ n, text.length + 1 = n + 1 + i := ⟨text.length - i, by omega⟩
    have hskip := scanFrom_skip (n := n + 1) hlim (anchored_plain hplain) 0 i (show 0 + i ≤ text.length by omega)
      fun j _ hj => by rw [attempt_plain hplain, if_neg (hq.2 j (by omega))]
    rw [strGsub, hlim, if_neg Bool.false_ne_true, validatePattern_plain hplain, ok_bind, hn, hskip, Nat.zero_add,
      scanFrom_fails (e := captureError) hlim (by rw [attempt_plain hplain, if_pos hq.1, if_pos hclose]; rfl)]
    rfl

section Accepted
variable (hv : validatePattern pat = .ok ())
  (hclosed : isPlainPattern pat = true → ch ')' ∈ pat → ¬ literalPart pat <:+: text)
include hv

theorem strGsub_eq_map (hlim : limitReached max 0 = false) : strGsub text pat max repl =
    (scanFrom text pat max (text.length + 1) 0 0).map (Subst.start.fill text repl 0) := by
  rw [strGsub, hlim, if_neg Bool.false_ne_true, hv, ok_bind]
  cases scanFrom text pat max (text.length + 1) 0 0 with
  | error e => rfl
  | ok spans => rfl

theorem forall_strGsub_iff (hlim : limitReached max 0 = false) {P : List (ℕ × ℕ) → Prop} :
    (∀ s, strGsub text pat max repl = .ok s → P s.visits) ↔
      ∀ spans, scanFrom text pat max (text.length + 1) 0 0 = .ok spans → P spans := by
  rw [strGsub_eq_map hv hlim]
  cases scanFrom text pat max (text.length + 1) 0 0 with
  | error e => exact iff_of_true nofun nofun
  | ok spans => simp [Except.map, Subst.fill, Subst.start]
include hclosed

theorem find_eq_findLoop (hpos : pos ≤ text.length) : find text pat pos = findLoop text pat (text.length + 1) pos := by
  have hgeneral : findMatch text pat pos true = findLoop text pat (text.length + 1) pos := by
    rw [findMatch, if_pos rfl, hv, ok_bind]
  by_cases hplain : isPlainPattern pat = true
  · rw [(find_eq_general_iff (isPlainPattern_iff.mp hplain) pos).mpr, findGeneral, if_neg (Nat.not_lt.mpr hpos),
      hgeneral]
    exact fun hmem _ hocc => hclosed hplain hmem (hocc.trans (List.drop_suffix pos text).isInfix)
  · rw [find, findImpl, if_neg (Nat.not_lt.mpr hpos), if_neg hplain, hgeneral]

theorem gsub_eq_gsubLoop : gsub text pat repl max =
    gsubLoop text pat repl max (text.length + 2) 0 false 0 .start >>= copyRest text := by
  have hgeneral : gsubMatch text pat repl max =
      gsubLoop text pat repl max (text.length + 2) 0 false 0 .start >>= copyRest text := by
    rw [gsubMatch, hv, ok_bind]
  by_cases hplain : isPlainPattern pat = true
  · rw [(gsub_eq_general_iff (isPlainPattern_iff.mp hplain)).mpr fun hmem => .inr (hclosed hplain hmem), hgeneral]
  · rw [gsub, if_neg fun h => hplain h.1, hgeneral]

theorem gsubsAgree_accepted_iff (hrepl : ch '%' ∉ repl) (h0 : max ≠ some 0) (hlim : limitReached max 0 = false) :
    GsubsAgree text pat repl max ↔
      (anchored pat = true → ∀ s, strGsub text pat max repl = .ok s → TriedOnce text pat max s.visits) ∧
      (anchored pat = false → ∀ s, strGsub text pat max repl = .ok s → NoEmptyBehind none s.visits) ∧
      (anchored pat = false → ∀ s, strGsub text pat max repl = .ok s → EndsInPlace text.length 0 s.visits) := by
  have hwf := wf_of_validatePattern hv
  have hfind (pos : ℕ) (hpos : pos ≤ text.length) := find_eq_findLoop hv hclosed hpos
  rw [GsubsAgree, gsubFn_const, gsubTab_const, and_self, gsub_eq_gsubLoop hv hclosed, gsubFind,
    forall_strGsub_iff hv hlim, forall_strGsub_iff hv hlim, forall_strGsub_iff hv hlim,
    strGsub_eq_map hv hlim]
  cases hanch : anchored pat with
  | true =>
    simp only [true_implies, Bool.true_eq_false, false_implies, and_true]
    exact anchored_law hanch hfind hwf hrepl h0 hlim
  | false =>
    simp only [Bool.false_eq_true, false_implies, true_implies, true_and]
    exact and_congr
      (gsubLoop_follows hwf hanch hrepl _ _ 0 false 0 .start (Nat.zero_le _) le_rfl (by rintro ⟨⟩) (by omega) (by omega))
      (gsubFindLoop_follows hwf hanch hfind _ _ 0 .start (Nat.zero_le _) (by omega) (by omega))

end Accepted

/-- `string.gsub` does what the scan of Lua 5.1 does for every kind of replacement exactly in the regular cases. -/
theorem gsubsAgree_iff (hrepl : ch '%' ∉ repl) : GsubsAgree text pat repl max ↔ GsubRegular text pat repl max := by
  by_cases h0 : max = some 0
  · subst h0
    have href : strGsub text pat (some 0) repl = .ok (Subst.start.fill text repl 0 []) := rfl
    rw [gsubsAgree_zero_iff]
    refine ⟨fun hv => ⟨fun _ => hv, fun _ _ => .inl rfl, ?_, ?_, ?_⟩, fun h => h.accepted rfl⟩
    all_goals
      intro _ s hs
      rw [href] at hs
      cases hs
    · exact nofun
    · trivial
    · trivial
  · have hlim : limitReached max 0 = false := by
      cases max with
      | none => rfl
      | some k => exact decide_eq_false fun hk => h0 (congrArg some (Nat.le_zero.mp hk))
    cases hv : validatePattern pat with
    | error e =>
      have hplain : ¬ isPlainPattern pat = true := fun hplain => by
        rw [validatePattern_plain (isPlainPattern_iff.mp hplain)] at hv
        cases hv
      have href : strGsub text pat max repl = .error e := by
        rw [strGsub, hlim, if_neg Bool.false_ne_true, hv]
        rfl
      have hgsub : gsub text pat repl max = .error e := by
        rw [gsub, if_neg fun h => hplain h.1, gsubMatch, hv]
        rfl
      have hfind : gsubFind text pat max (fun _ _ => .ok repl) = .error e := by
        rw [gsubFind, gsubFindLoop, if_neg (by rw [show Subst.start.count = 0 from rfl, hlim]; decide), find, findImpl,
          if_neg (Nat.not_lt.mpr (Nat.zero_le _)), if_neg hplain, findMatch, if_pos rfl, hv]
        rfl
      rw [GsubsAgree, gsubFn_const, gsubTab_const, hgsub, hfind, href]
      refine iff_of_true ⟨rfl, rfl, rfl⟩ ⟨fun h => absurd h h0, fun h => absurd h hplain, ?_, ?_, ?_⟩
      all_goals
        intro _ s hs
        rw [href] at hs
        cases hs
    | ok u =>
      by_cases hclosed : isPlainPattern pat = true → ch ')' ∈ pat → ¬ literalPart pat <:+: text
      · rw [gsubsAgree_accepted_iff hv hclosed hrepl h0 hlim]
        exact ⟨fun h => ⟨fun h => absurd h h0, fun hp hc => .inr (hclosed hp hc), h.1, h.2.1, h.2.2⟩,
          fun h => ⟨h.once, h.behind, h.inPlace⟩⟩
      · simp only [not_forall, not_not] at hclosed
        obtain ⟨hplain, hmem, hocc⟩ := hclosed
        refine iff_of_false (fun h => ?_) fun h => (h.closed hplain hmem).elim h0 (absurd hocc)
        have hfast := h.1
        rw [strGsub_captureError (isPlainPattern_iff.mp hplain) hmem hocc hlim, gsub,
          if_pos ⟨hplain, List.ne_nil_of_mem hmem⟩] at hfast
        have hne := gsubPlain_ne_captureError text repl max (List.ne_nil_of_mem hmem)
        rw [hfast] at hne
        exact hne rfl

theorem gsubsAgree_iff_word : GsubsAgree [97] [98] [99] none ↔ GsubRegular [97] [98] [99] none :=
  gsubsAgree_iff (by decide)

/-- `string.gsub("a", "$", "x")` is `ax`, and with a function that returns `x` it is `axa`. -/
theorem gsubs_disagree :
    ¬ ∀ (text pat repl : List UInt8) (max : Option ℕ), ch '%' ∉ repl → GsubsAgree text pat repl max := by
  intro h
  have hagree := (h [97] [ch '$'] [120] none (by decide)).2.1
  exact absurd hagree (by decide)

end LuajitRs.Pattern
