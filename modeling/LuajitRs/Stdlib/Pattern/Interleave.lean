import LuajitRs.Lib.Weave
import LuajitRs.Stdlib.Pattern.GsubLaw

/-! `string.gsub` with a template: the output is the unmatched text, in order, with the template expanded for each
match between its segments. -/
namespace LuajitRs.Pattern

open Lib

variable {text pat repl : List UInt8} {max : Option ℕ} {n si count pos : ℕ} {last : Bool} {r : Subst}

/-! ### What a substitution stands for -/

def MatchInfo.span (m : MatchInfo) : ℕ × ℕ := (m.start, m.stop)

/-- The text of `%d` for a match; without captures, `%1` is the whole match. -/
def captureText (text : List UInt8) (m : MatchInfo) (d : UInt8) : Except Stop (List UInt8) :=
  let n := (d - ch '0').toNat
  if n = 0 ∨ n = 1 ∧ m.captures = [] then .ok ((text.take m.stop).drop m.start)
  else
    match m.captures[n - 1]? with
    | some (.substring start stop) => .ok ((text.take stop).drop start)
    | some (.position p) => .ok (decimalUpTo 20 p)
    | none => .error (.raise s!"invalid capture index %{n}")

/-- The template with the captures of a match. -/
def expand (text repl : List UInt8) (m : MatchInfo) : Except Stop (List UInt8) := substitute (captureText text m) repl

section Spec
variable (text pat : List UInt8) (max : Option ℕ)

/-- What is found at `si`: the pattern itself where the byte search runs, else what the matcher matches there. -/
def tryAt (si : ℕ) : Except Stop (Option MatchInfo) :=
  if isPlainPattern pat ∧ pat ≠ [] then
    .ok (if pat <+: text.drop si then some ⟨si, si + pat.length, []⟩ else none)
  else (attempt text pat si).map (Option.map fun a => ⟨si, a.1, extractCaptures a.2⟩)

/-- An empty match directly behind a non-empty one is passed over. -/
def PassedAt (si : ℕ) (last : Bool) (i : ℕ) : Prop :=
  i = si ∧ last = true ∧ ∃ m, tryAt text pat i = .ok (some m) ∧ m.stop = i

/-- No match begins between `si` and `stop`; an anchored pattern is not tried behind a miss. -/
def Unmatched (si : ℕ) (last : Bool) (stop : ℕ) : Prop :=
  ∀ i, si ≤ i → i < stop → tryAt text pat i = .ok none ∨ PassedAt text pat si last i ∨
    anchored pat = true ∧ ∃ j, si ≤ j ∧ j < i ∧ tryAt text pat j = .ok none

/-- The next match of a scan from `si`. -/
structure Next (si : ℕ) (last : Bool) (m : MatchInfo) : Prop where
  le : si ≤ m.start
  inside : m.start ≤ text.length
  unmatched : Unmatched text pat si last m.start
  /-- An anchored pattern is given up at a miss. -/
  unbroken : anchored pat = true → ∀ i, si ≤ i → i < m.start → tryAt text pat i ≠ .ok none
  found : tryAt text pat m.start = .ok (some m)
  kept : ¬ PassedAt text pat si last m.start

/-- The matches of the scan from `si` after `count` of them; `last` says that it stands behind a non-empty match. -/
def Scans : ℕ → Bool → ℕ → List MatchInfo → Prop
  | si, last, count, [] => limitReached max count = true ∨ Unmatched text pat si last (text.length + 1)
  | si, last, count, m :: ms => limitReached max count = false ∧ Next text pat si last m ∧
      Scans (afterMatch m.start m.stop) (decide (m.stop ≠ m.start)) (count + 1) ms

/-- The result `s` that a scan from `si` makes of `r`, with the text copied up to `pos`. -/
def Woven (repl : List UInt8) (si : ℕ) (last : Bool) (pos : ℕ) (r s : Subst) : Prop :=
  ∃ ps : List (MatchInfo × List UInt8), Scans text pat max si last r.count (ps.map Prod.fst) ∧
    (∀ p ∈ ps, expand text repl p.1 = .ok p.2) ∧
    s = ⟨r.out ++ weave text pos (ps.map fun p => (p.1.span, p.2)), r.count + ps.length,
      r.visits ++ ps.map fun p => p.1.span⟩

/-- The errors: of an attempt, and of the template at a match. -/
def Refused (repl : List UInt8) (e : Stop) : Prop :=
  ∃ i ≤ text.length, tryAt text pat i = .error e ∨
    ∃ m, tryAt text pat i = .ok (some m) ∧ expand text repl m = .error e

end Spec

/-! ### Templates -/

theorem substitute_literal (capture : UInt8 → Except Stop (List UInt8)) (hrepl : ch '%' ∉ repl) :
    substitute capture repl = .ok repl := by
  induction repl with
  | nil => rfl
  | cons c rest ih =>
    rw [List.mem_cons, not_or] at hrepl
    cases rest with
    | nil => rfl
    | cons d rest =>
      rw [substitute, if_neg (Ne.symm hrepl.1), ih hrepl.2]
      rfl

/-- Once all captures are finished, none is left out. -/
theorem map_value {ms : MatchState} (hms : checkCaptures ms = .ok ()) :
    ms.captures.map Capture.value = (extractCaptures ms).map some := by
  have hall : ∀ cap ∈ ms.captures, cap.len ≠ .unfinished := by
    rw [checkCaptures] at hms
    split at hms
    · cases hms
    · next h => simpa using h
  rw [extractCaptures]
  generalize ms.captures = caps at hall
  induction caps with
  | nil => rfl
  | cons cap caps ih =>
    obtain ⟨start, len⟩ := cap
    have hrest := ih fun cap hcap => hall cap (List.mem_cons_of_mem _ hcap)
    obtain ⟨v, hv⟩ : ∃ v, Capture.value ⟨start, len⟩ = some v := by
      cases len with
      | len l => exact ⟨_, rfl⟩
      | position => exact ⟨_, rfl⟩
      | unfinished => exact absurd rfl (hall _ (List.mem_cons_self ..))
    rw [List.map_cons, List.filterMap_cons_some hv, List.map_cons, hv, hrest]

/-- The code expands a template with the captures of the match at hand. -/
theorem gsubPiece_eq_expand (repl : List UInt8) {stop : ℕ} {ms : MatchState} (hs : si ≤ stop)
    (hstop : stop ≤ text.length) (hms : checkCaptures ms = .ok ()) (hcaps : CapturesOk stop ms.captures) :
    gsubPiece text repl si stop ms = expand text repl ⟨si, stop, extractCaptures ms⟩ := by
  have hvalues := map_value hms
  have hlen : ms.captures.length = (extractCaptures ms).length := by
    simpa using congrArg List.length hvalues
  rw [gsubPiece, expand]
  by_cases hrepl : ch '%' ∈ repl
  · rw [if_pos (List.contains_iff_mem.mpr hrepl), slice_ok hs hstop, ok_bind, substituteCapturesBytes]
    refine substitute_congr fun d => ?_
    rw [captureText]
    generalize (d - ch '0').toNat = n
    dsimp only
    by_cases h0 : n = 0
    · rw [if_pos h0, if_pos (.inl h0)]
    · rw [if_neg h0]
      by_cases hn : n ≤ ms.captures.length
      · have hne : extractCaptures ms ≠ [] := by
          rw [← List.length_pos_iff]
          omega
        rw [if_pos hn, if_neg (by simp [h0, hne])]
        have hlt : n - 1 < ms.captures.length := by omega
        have hget := congrArg (·[n - 1]?) hvalues
        simp only [List.getElem?_map, List.getElem?_eq_getElem hlt,
          List.getElem?_eq_getElem (hlen ▸ hlt : n - 1 < (extractCaptures ms).length), Option.map_some,
          Option.some.injEq] at hget
        rw [List.getElem?_eq_getElem hlt, List.getElem?_eq_getElem (hlen ▸ hlt)]
        have hupto := hcaps.upto _ (List.getElem_mem hlt)
        generalize ms.captures[n - 1] = cap at hget hupto
        obtain ⟨start, len⟩ := cap
        cases len with
        | len l =>
          have hl : start + l ≤ stop := hupto
          rw [← Option.some.inj hget]
          dsimp only
          rw [slice_ok (Nat.le_add_right _ _) (hl.trans hstop)]
        | position => rw [← Option.some.inj hget]
        | unfinished => cases hget
      · rw [if_neg hn]
        by_cases h1 : ms.captures.length = 0 ∧ n = 1
        · rw [if_pos h1, if_pos (.inr ⟨h1.2, List.length_eq_zero_iff.mp (hlen ▸ h1.1)⟩)]
        · have hnone : (extractCaptures ms)[n - 1]? = none := List.getElem?_eq_none (by omega)
          have hempty : ¬ (n = 0 ∨ n = 1 ∧ extractCaptures ms = []) := by
            rintro (h | ⟨h, hnil⟩)
            · exact h0 h
            · exact h1 ⟨by rw [hlen, hnil]; rfl, h⟩
          rw [if_neg h1, if_neg hempty, hnone]
  · rw [if_neg fun h => hrepl (List.contains_iff_mem.mp h), substitute_literal _ hrepl]

/-! ### What is found -/

theorem checkCaptures_of_attempt {stop : ℕ} {ms : MatchState} (ha : attempt text pat si = .ok (some (stop, ms))) :
    checkCaptures ms = .ok () := by
  rw [attempt] at ha
  obtain ⟨⟨r, ms'⟩, -, ha⟩ := bind_eq_ok.mp ha
  cases r with
  | none =>
    dsimp only at ha
    split at ha <;> cases ha
  | some stop' =>
    obtain ⟨u, hu, ha⟩ := bind_eq_ok.mp ha
    cases ha
    exact hu

theorem attempt_within {stop : ℕ} {ms : MatchState} (h : Wf pat (patStart pat)) (hsi : si ≤ text.length)
    (ha : attempt text pat si = .ok (some (stop, ms))) :
    si ≤ stop ∧ stop ≤ text.length ∧ CapturesOk stop ms.captures := by
  have hall := attempt_ensures h hsi
  rw [ha] at hall
  exact hall _ rfl

/-- A match begins where it is found and lies in the text. -/
theorem tryAt_within (hv : validatePattern pat = .ok ()) {m : MatchInfo} (hsi : si ≤ text.length)
    (hm : tryAt text pat si = .ok (some m)) : m.start = si ∧ si ≤ m.stop ∧ m.stop ≤ text.length := by
  rw [tryAt] at hm
  split at hm
  · split at hm
    · next hpre =>
      cases hm
      exact ⟨rfl, Nat.le_add_right _ _, length_le_of_prefix_drop hpre hsi⟩
    · cases hm
  · have hall := attempt_ensures (wf_of_validatePattern hv) hsi
    cases ha : attempt text pat si with
    | error e =>
      rw [ha] at hm
      cases hm
    | ok a =>
      rw [ha] at hm hall
      match a, hall, hm with
      | some (stop, ms), hall, hm =>
        cases hm
        have hspan := hall _ rfl
        exact ⟨rfl, hspan.1, hspan.2.1⟩

theorem tryAt_eq (hm : ¬ (isPlainPattern pat = true ∧ pat ≠ [])) (text : List UInt8) (si : ℕ) :
    tryAt text pat si = (attempt text pat si).map (Option.map fun a => ⟨si, a.1, extractCaptures a.2⟩) :=
  if_neg hm

/-! ### The scan -/

/-- The scan goes on at the next position. -/
def Tried (text pat : List UInt8) (si : ℕ) (last : Bool) : Prop :=
  anchored pat = false ∧ tryAt text pat si = .ok none ∨ PassedAt text pat si last si

theorem Unmatched.step {stop : ℕ} (ht : Tried text pat si last) (h : Unmatched text pat (si + 1) false stop) :
    Unmatched text pat si last stop := by
  intro i hi hstop
  obtain rfl | hlt : i = si ∨ si < i := by omega
  · cases ht with
    | inl ht => exact .inl ht.2
    | inr ht => exact .inr (.inl ht)
  · obtain hmiss | ⟨-, hlast, -⟩ | ⟨hanch, j, hj, hji, hmiss⟩ := h i hlt hstop
    · exact .inl hmiss
    · cases hlast
    · exact .inr (.inr ⟨hanch, j, by omega, hji, hmiss⟩)

theorem Next.step {m : MatchInfo} (ht : Tried text pat si last) (h : Next text pat (si + 1) false m) :
    Next text pat si last m where
  le := (Nat.le_succ si).trans h.le
  inside := h.inside
  unmatched := h.unmatched.step ht
  unbroken := by
    intro hanch i hi hlt
    obtain rfl | hsi : i = si ∨ si < i := by omega
    · obtain ⟨hanch', -⟩ | ⟨-, -, m', hm, -⟩ := ht
      · rw [hanch] at hanch'
        cases hanch'
      · rw [hm]
        nofun
    · exact h.unbroken hanch i hsi hlt
  found := h.found
  kept := fun hp => by
    have := h.le
    have := hp.1
    omega

theorem Scans.step {ms : List MatchInfo} (ht : Tried text pat si last)
    (h : Scans text pat max (si + 1) false count ms) : Scans text pat max si last count ms := by
  cases ms with
  | nil => exact h.imp_right (Unmatched.step ht)
  | cons m ms => exact ⟨h.1, h.2.1.step ht, h.2.2⟩

/-- The matches of a scan stand one behind the other. -/
theorem Scans.spaced (hv : validatePattern pat = .ok ()) {ms : List MatchInfo} (hpos : pos ≤ si)
    (hlen : pos ≤ text.length) (h : Scans text pat max si last count ms) :
    Spaced text.length pos (ms.map MatchInfo.span) := by
  induction ms generalizing si pos last count with
  | nil => exact hlen
  | cons m ms ih =>
    obtain ⟨-, hnext, hrest⟩ := h
    obtain ⟨-, hspan, hstop⟩ := tryAt_within hv hnext.inside hnext.found
    refine ⟨hpos.trans hnext.le, hspan, ih ?_ hstop hrest⟩
    unfold afterMatch
    split <;> omega

/-! ### The result -/

section Woven
variable {s : Subst}

theorem Woven.done (hend : limitReached max r.count = true ∨ Unmatched text pat si last (text.length + 1)) :
    Woven text pat max repl si last pos r (r.push (text.drop pos)) := by
  refine ⟨[], hend, fun p hp => (List.not_mem_nil hp).elim, ?_⟩
  simp [Subst.push, weave]

theorem Woven.step (ht : Tried text pat si last) (h : Woven text pat max repl (si + 1) false pos r s) :
    Woven text pat max repl si last pos r s := by
  obtain ⟨ps, hscan, hps, heq⟩ := h
  exact ⟨ps, hscan.step ht, hps, heq⟩

/-- The byte before the scan is copied. -/
theorem Woven.copy (hv : validatePattern pat = .ok ()) {c : UInt8} (hc : text[si]? = some c)
    (h : Woven text pat max repl (si + 1) last (si + 1) (r.push [c]) s) :
    Woven text pat max repl (si + 1) last si r s := by
  obtain ⟨ps, hscan, hps, heq⟩ := h
  have hspaced := hscan.spaced hv le_rfl (lt_length_of_getElem? hc)
  refine ⟨ps, hscan, hps, ?_⟩
  rw [weave_succ hc, heq]
  · simp [Subst.push]
  · intro p hp
    obtain ⟨q, hq, rfl⟩ := List.mem_map.mp hp
    exact hspaced.le_of_mem _ (List.mem_map.mpr ⟨q.1, List.mem_map.mpr ⟨q, hq, rfl⟩, rfl⟩)

/-- The next match is replaced by the expanded template. -/
theorem Woven.take {m : MatchInfo} {piece : List UInt8} (hlim : limitReached max r.count = false)
    (hnext : Next text pat si last m) (hpiece : expand text repl m = .ok piece)
    (h : Woven text pat max repl (afterMatch m.start m.stop) (decide (m.stop ≠ m.start)) m.stop
      (replaced text piece m.start m.stop pos r) s) : Woven text pat max repl si last pos r s := by
  obtain ⟨ps, hscan, hps, heq⟩ := h
  refine ⟨(m, piece) :: ps, ⟨hlim, hnext, hscan⟩, List.forall_mem_cons.mpr ⟨hpiece, hps⟩, ?_⟩
  rw [heq]
  simp [replaced, Subst.push, Subst.replace, MatchInfo.span, weave, Nat.add_assoc, Nat.add_comm 1]

end Woven

/-! ### The loops -/

theorem Woven.found {stop : ℕ} {ms : MatchState} {piece : List UInt8} {s : Subst}
    (hsi : si ≤ text.length) (hlim : limitReached max r.count = false) (hkept : ¬ PassedAt text pat si last si)
    (hfound : tryAt text pat si = .ok (some ⟨si, stop, extractCaptures ms⟩))
    (hpiece : expand text repl ⟨si, stop, extractCaptures ms⟩ = .ok piece)
    (h : Woven text pat max repl (afterMatch si stop) (decide (stop ≠ si)) stop (replaced text piece si stop pos r) s) :
    Woven text pat max repl si last pos r s := by
  have hnext : Next text pat si last ⟨si, stop, extractCaptures ms⟩ :=
    { le := le_rfl
      inside := hsi
      unmatched := fun i h1 h2 => absurd h2 (Nat.not_lt.mpr h1)
      unbroken := fun _ i h1 h2 => absurd h2 (Nat.not_lt.mpr h1)
      found := hfound
      kept := hkept }
  exact Woven.take hlim hnext hpiece h

theorem gsubLoop_woven (hv : validatePattern pat = .ok ()) (hm : ¬ (isPlainPattern pat = true ∧ pat ≠ []))
    (n si : ℕ) (last : Bool) (pos : ℕ) (r : Subst) (hsi : si ≤ text.length + 1) (hpos : pos ≤ si)
    (hlen : pos ≤ text.length) (hlast : last = true → pos = si) (hn : text.length + 1 < n + si) :
    Ensures (Refused text pat repl) (gsubLoop text pat repl max n si last pos r >>= copyRest text)
      (Woven text pat max repl si last pos r) := by
  have h := wf_of_validatePattern hv
  have hcopy (r : Subst) {pos : ℕ} (hlen : pos ≤ text.length) :
      copyRest text (r, pos) = .ok (r.push (text.drop pos)) := by
    rw [copyRest, slice_ok hlen le_rfl, ok_bind, List.take_length]
    rfl
  induction n generalizing si last pos r with
  | zero => omega
  | succ n ih =>
    by_cases hend : text.length < si
    · rw [gsubLoop_end (Nat.succ_pos n) hend, ok_bind, hcopy r hlen]
      exact Woven.done (.inr fun i h1 h2 => by omega)
    have hle : si ≤ text.length := Nat.not_lt.mp hend
    cases hlim : limitReached max r.count with
    | true =>
      rw [gsubLoop_limit (Nat.succ_pos n) hlim, ok_bind, hcopy r hlen]
      exact Woven.done (.inl hlim)
    | false =>
      have htry := tryAt_eq hm text si
      obtain ⟨e, ha⟩ | ha | ⟨ms, ha⟩ | ⟨stop, ms, hlt, hstop, ha⟩ := attempt_cases h hle
      · rw [ha] at htry
        rw [gsubLoop_fails hlim hle ha]
        exact ⟨si, hle, .inl htry⟩
      · rw [ha] at htry
        by_cases hstop : anchored pat = true ∨ si = text.length
        · rw [gsubLoop_miss_end hlim hle hstop ha, ok_bind, hcopy r hlen]
          refine Woven.done (.inr fun i h1 h2 => ?_)
          obtain rfl | hi : i = si ∨ si < i := by omega
          · exact .inl htry
          · exact .inr (.inr ⟨hstop.resolve_right (by omega), si, le_rfl, hi, htry⟩)
        · rw [not_or, Bool.not_eq_true] at hstop
          rw [gsubLoop_miss hstop.1 hlim (by omega) ha]
          exact (ih (si + 1) false pos r (by omega) (by omega) hlen (by rintro ⟨⟩) (by omega)).mono fun s hs =>
            hs.step (.inl ⟨hstop.1, htry⟩)
      · rw [ha] at htry
        have hempty : tryAt text pat si = .ok (some ⟨si, si, extractCaptures ms⟩) := htry
        have hcaps := (attempt_within h hle ha).2.2
        have hexpand := gsubPiece_eq_expand repl le_rfl hle (checkCaptures_of_attempt ha) hcaps
        cases last with
        | true =>
          obtain rfl := hlast rfl
          have hpass : Tried text pat pos true := .inr ⟨rfl, rfl, _, hempty, rfl⟩
          by_cases hstop : pos = text.length
          · rw [gsubLoop_pass_end hlim hstop ha]
            exact (ih (pos + 1) false pos r (by omega) (by omega) hlen (by rintro ⟨⟩) (by omega)).mono fun s hs =>
              hs.step hpass
          · have hc : text[pos]? = some text[pos] := List.getElem?_eq_getElem (by omega)
            rw [gsubLoop_pass hlim hc ha]
            exact (ih (pos + 1) false (pos + 1) _ (by omega) le_rfl (by omega) (by rintro ⟨⟩) (by omega)).mono fun s hs =>
              (Woven.copy hv hc hs).step hpass
        | false =>
          have hkept : ¬ PassedAt text pat si false si := fun hp => Bool.noConfusion hp.2.1
          cases hpiece : gsubPiece text repl si si ms with
          | error e =>
            rw [gsubLoop_unfilled hlim hpos hpiece hle (by simp) ha]
            exact ⟨si, hle, .inr ⟨_, hempty, hexpand ▸ hpiece⟩⟩
          | ok piece =>
            have hfound {s : Subst}
                (hs : Woven text pat max repl (si + 1) false si (replaced text piece si si pos r) s) :
                Woven text pat max repl si false pos r s := by
              refine Woven.found hle hlim hkept hempty (hexpand ▸ hpiece) ?_
              rw [afterMatch_self]
              simpa using hs
            by_cases hstop : si = text.length
            · rw [gsubLoop_empty_end hlim hpos hpiece hstop ha]
              exact (ih (si + 1) false si _ (by omega) (by omega) hle (by rintro ⟨⟩) (by omega)).mono fun s hs => hfound hs
            · have hc : text[si]? = some text[si] := List.getElem?_eq_getElem (by omega)
              rw [gsubLoop_empty hlim hpos hpiece hc ha]
              exact (ih (si + 1) false (si + 1) _ (by omega) le_rfl (by omega) (by rintro ⟨⟩) (by omega)).mono fun s hs =>
                hfound (Woven.copy hv hc hs)
      · rw [ha] at htry
        have hfound : tryAt text pat si = .ok (some ⟨si, stop, extractCaptures ms⟩) := htry
        have hcaps := (attempt_within h hle ha).2.2
        have hexpand := gsubPiece_eq_expand repl hlt.le hstop (checkCaptures_of_attempt ha) hcaps
        have hkept : ¬ PassedAt text pat si last si := by
          rintro ⟨-, -, m, hm, heq⟩
          rw [hfound] at hm
          cases hm
          exact absurd heq (by dsimp only; omega)
        cases hpiece : gsubPiece text repl si stop ms with
        | error e =>
          rw [gsubLoop_unfilled hlim hpos hpiece hle (by omega) ha]
          exact ⟨si, hle, .inr ⟨_, hfound, hexpand ▸ hpiece⟩⟩
        | ok piece =>
          have hne : stop ≠ si := by omega
          rw [gsubLoop_match hlim hpos hpiece hle hne ha]
          refine (ih stop true stop _ (by omega) le_rfl hstop (fun _ => rfl) (by omega)).mono fun s hs => ?_
          refine Woven.found hle hlim hkept hfound (hexpand ▸ hpiece) ?_
          rw [afterMatch_of_ne hne]
          simpa [hne] using hs

theorem plainPiece_eq_expand (repl : List UInt8) {stop : ℕ} (hs : si ≤ stop) (hstop : stop ≤ text.length) :
    plainPiece repl ((text.take stop).drop si) = expand text repl ⟨si, stop, []⟩ := by
  rw [← gsubPiece_plain hs hstop]
  exact gsubPiece_eq_expand repl hs hstop rfl ⟨Nat.zero_le _, fun cap hcap => nomatch hcap⟩

/-- The byte search does not look for an empty match. -/
theorem gsubPlainLoop_woven (hp : isPlainPattern pat = true ∧ pat ≠ []) (n pos : ℕ) (last : Bool) (r : Subst)
    (hpos : pos ≤ text.length) (hn : text.length + 1 < n + pos) :
    Ensures (Refused text pat repl) (gsubPlainLoop text pat repl max n pos r >>= copyRest text)
      (Woven text pat max repl pos last pos r) := by
  have hlen : 0 < pat.length := List.length_pos_iff.mpr hp.2
  have htry (i : ℕ) : tryAt text pat i =
      .ok (if pat <+: text.drop i then some ⟨i, i + pat.length, []⟩ else none) := if_pos hp
  induction n generalizing pos last r with
  | zero => omega
  | succ n ih =>
    rw [gsubPlainLoop]
    cases hlim : limitReached max r.count with
    | true =>
      rw [if_pos (.inr rfl), pure_eq_ok, ok_bind, copyRest, slice_ok hpos le_rfl, ok_bind, List.take_length]
      exact Woven.done (.inl hlim)
    | false =>
      obtain ⟨q, hfast, hq⟩ := Ensures.none_iff.mp (findBytesInSlice_ensures (text.drop pos) pat)
      rw [if_neg (by simp [hpos]), slice_ok hpos le_rfl, ok_bind, List.take_length, hfast, ok_bind]
      cases q with
      | none =>
        rw [pure_eq_ok, ok_bind, copyRest, slice_ok hpos le_rfl, ok_bind, List.take_length]
        refine Woven.done (.inr fun i hi _ => .inl ?_)
        have hno := hq (i - pos)
        rw [List.drop_drop, Nat.add_sub_cancel' hi] at hno
        rw [htry, if_neg hno]
      | some i =>
        have hb := hq.bound
        rw [List.length_drop] at hb
        have hpre : pat <+: text.drop (pos + i) := by
          have := hq.1
          rwa [List.drop_drop] at this
        have hfound : tryAt text pat (pos + i) = .ok (some ⟨pos + i, pos + i + pat.length, []⟩) := by
          rw [htry, if_pos hpre]
        have hle : pos + i ≤ pos + i + pat.length := Nat.le_add_right _ _
        have hstop : pos + i + pat.length ≤ text.length := by omega
        have hnext : Next text pat pos last ⟨pos + i, pos + i + pat.length, []⟩ :=
          { le := Nat.le_add_right _ _
            inside := hle.trans hstop
            unmatched := by
              intro j hj hlt
              dsimp only at hlt
              have hno := hq.2 (j - pos) (by omega)
              rw [List.drop_drop, Nat.add_sub_cancel' hj] at hno
              exact .inl (by rw [htry, if_neg hno])
            unbroken := by
              intro hanch
              rw [anchored_plain (isPlainPattern_iff.mp hp.1)] at hanch
              cases hanch
            found := hfound
            kept := by
              rintro ⟨-, -, m, hm, heq⟩
              rw [hfound] at hm
              cases hm
              exact absurd heq (by dsimp only; omega) }
        have hexpand := plainPiece_eq_expand repl hle hstop
        dsimp only
        rw [slice_ok (Nat.le_add_right _ _) (hle.trans hstop), ok_bind, slice_ok hle hstop, ok_bind, hexpand]
        cases hpiece : expand text repl ⟨pos + i, pos + i + pat.length, []⟩ with
        | error e => exact ⟨pos + i, hle.trans hstop, .inr ⟨_, hfound, hpiece⟩⟩
        | ok piece =>
          refine (ih (pos + i + pat.length) true (replaced text piece (pos + i) (pos + i + pat.length) pos r) hstop
            (by omega)).mono fun s hs => Woven.take hlim hnext hpiece ?_
          have hne : pos + i + pat.length ≠ pos + i := by omega
          dsimp only
          rw [afterMatch_of_ne hne, decide_eq_true hne]
          exact hs

/-! ### The law -/

section Law
variable (hv : validatePattern pat = .ok ())
include hv

theorem gsub_woven (text repl : List UInt8) (max : Option ℕ) :
    Ensures (Refused text pat repl) (gsub text pat repl max) (Woven text pat max repl 0 false 0 .start) := by
  rw [gsub]
  split
  · next hp => exact gsubPlainLoop_woven hp _ 0 false .start (Nat.zero_le _) (by omega)
  · next hp =>
    rw [gsubMatch, hv, ok_bind]
    exact gsubLoop_woven hv hp _ 0 false 0 .start (Nat.zero_le _) le_rfl (Nat.zero_le _) (by rintro ⟨⟩) (by omega)

theorem Woven.spaced {s : Subst} (hs : Woven text pat max repl 0 false 0 .start s) :
    Spaced text.length 0 s.visits := by
  obtain ⟨ps, hscan, -, heq⟩ := hs
  have hspaced := hscan.spaced hv le_rfl (Nat.zero_le _)
  rw [List.map_map] at hspaced
  rw [heq]
  exact hspaced

end Law

/-- `%0` stands for the whole match. -/
theorem expand_whole (text : List UInt8) (m : MatchInfo) :
    expand text [ch '%', ch '0'] m = .ok ((text.take m.stop).drop m.start) := by
  rw [expand, substitute, if_pos rfl, escapePiece, if_neg (by decide), if_pos (by decide)]
  simp [captureText, substitute]

theorem gsub_whole (hv : validatePattern pat = .ok ()) (text : List UInt8) (max : Option ℕ) :
    Ensures (fun e => ∃ i ≤ text.length, tryAt text pat i = .error e) (gsub text pat [ch '%', ch '0'] max)
      fun s => s.out = text := by
  refine ((gsub_woven hv text [ch '%', ch '0'] max).weaken fun e he => ?_).mono fun s hs => ?_
  · obtain ⟨i, hi, he | ⟨m, -, he⟩⟩ := he
    · exact ⟨i, hi, he⟩
    · rw [expand_whole] at he
      cases he
  · obtain ⟨ps, hscan, hps, heq⟩ := hs
    have hspaced := hscan.spaced hv le_rfl (Nat.zero_le _)
    rw [heq]
    rw [List.map_map] at hspaced
    refine (weave_self (by rw [List.map_map]; exact hspaced) fun p hp => ?_).trans List.drop_zero
    obtain ⟨q, hq, rfl⟩ := List.mem_map.mp hp
    have hpiece := hps q hq
    rw [expand_whole] at hpiece
    exact (Except.ok.inj hpiece).symm

/-- Every byte lies in exactly one of the spans and the gaps between them. -/
def EachOnce (len : ℕ) (spans : List (ℕ × ℕ)) : Prop :=
  ∀ i < len, (spans ++ gaps len 0 spans).countP (covers i) = 1

/-- `string.gsub` weaves the expanded template into the unmatched text, and with `%0` it returns the subject. -/
theorem gsub_interleaves (text pat repl : List UInt8) (max : Option ℕ) (hv : validatePattern pat = .ok ()) :
    Ensures (Refused text pat repl) (gsub text pat repl max) (fun s =>
      Woven text pat max repl 0 false 0 .start s ∧ EachOnce text.length s.visits) ∧
    Ensures (fun e => ∃ i ≤ text.length, tryAt text pat i = .error e) (gsub text pat [ch '%', ch '0'] max)
      fun s => s.out = text := by
  refine ⟨(gsub_woven hv text repl max).mono fun s hs => ⟨hs, fun i hi => ?_⟩, gsub_whole hv text max⟩
  exact (hs.spaced hv).countP_eq_one (Nat.zero_le i) hi

/-- `string.gsub("ab", "%a", "%0")` is `ab`. -/
theorem gsub_interleaves_word :
    Ensures (Refused [97, 98] [ch '%', 97] [ch '%', ch '0'])
      (gsub [97, 98] [ch '%', 97] [ch '%', ch '0'] none) (fun s =>
        Woven [97, 98] [ch '%', 97] none [ch '%', ch '0'] 0 false 0 .start s ∧ EachOnce 2 s.visits) ∧
    Ensures (fun e => ∃ i ≤ 2, tryAt [97, 98] [ch '%', 97] i = .error e)
      (gsub [97, 98] [ch '%', 97] [ch '%', ch '0'] none) fun s => s.out = [97, 98] :=
  gsub_interleaves [97, 98] [ch '%', 97] [ch '%', ch '0'] none (by decide)

/-- The pattern of `k` items `a?`. -/
def optionals (k : ℕ) : List UInt8 := (List.replicate k [97, ch '?']).flatten

section Optionals
variable {k j : ℕ}

theorem length_optionals : (optionals k).length = 2 * k := by
  simp [optionals, List.length_flatten, Nat.mul_comm]

theorem drop_optionals (hj : j < k) : (optionals k).drop (2 * j) = 97 :: ch '?' :: optionals (k - j - 1) := by
  induction j generalizing k with
  | zero =>
    obtain ⟨k, rfl⟩ : ∃ i, k = i + 1 := ⟨k - 1, by omega⟩
    rfl
  | succ j ih =>
    obtain ⟨k, rfl⟩ : ∃ i, k = i + 1 := ⟨k - 1, by omega⟩
    have hcons : optionals (k + 1) = 97 :: ch '?' :: optionals k := rfl
    rw [hcons, show 2 * (j + 1) = 2 * j + 1 + 1 by ring, List.drop_succ_cons, List.drop_succ_cons, ih (by omega)]
    congr 3
    omega

theorem item_optionals (hj : j < k) :
    (optionals k)[2 * j]? = some 97 ∧ (optionals k)[2 * j + 1]? = some (ch '?') := by
  have hget (i : ℕ) : (optionals k)[2 * j + i]? = (97 :: ch '?' :: optionals (k - j - 1))[i]? := by
    rw [← drop_optionals hj, List.getElem?_drop]
  exact ⟨hget 0, hget 1⟩

theorem validateFrom_optionals (n : ℕ) (hj : j ≤ k) (hn : k < n + j) :
    validateFrom (optionals k) n (2 * j) = .ok () := by
  induction n generalizing j with
  | zero => omega
  | succ n ih =>
    rw [validateFrom, length_optionals]
    by_cases hend : j = k
    · rw [hend, if_neg (lt_irrefl _)]
      rfl
    · obtain ⟨hitem, hsuffix⟩ := item_optionals (show j < k by omega)
      have hstep : validateItem (optionals k) (2 * j) = .ok (2 * j + 1) := by
        rw [validateItem, byteAt_ok hitem]
        rfl
      rw [if_pos (by omega), hstep, ok_bind, if_pos (by omega), byteAt_ok hsuffix]
      exact ih (j := j + 1) (by omega) (by omega)

/-- Each optional item takes one nested call. -/
theorem matchImpl_optionals (n : ℕ) (hn : n + j ≤ k) :
    matchImpl [] (optionals k) n 0 (2 * j) .reset = .ok (none, MatchState.reset.fail "pattern too complex") := by
  induction n generalizing j with
  | zero => rfl
  | succ n ih =>
    obtain ⟨hitem, hsuffix⟩ := item_optionals (show j < k by omega)
    have hend : elementEnd (optionals k) (2 * j) = .ok (2 * j + 1) := by
      rw [elementEnd, byteAt_ok hitem]
      rfl
    have hopt : suffixAt (optionals k) (2 * j + 1) = .ok (some (ch '?')) := by
      rw [suffixAt, length_optionals, if_pos (by omega), byteAt_ok hsuffix]
      rfl
    have hcall : matchItem [] (optionals k) (matchImpl [] (optionals k) n)
        (matchInner [] (optionals k) (matchImpl [] (optionals k) n) (optionals k).length) 0 (2 * j) .reset =
        matchImpl [] (optionals k) n 0 (2 * (j + 1)) .reset := by
      rw [matchItem, hend, ok_bind, hopt]
      rfl
    have hclean : ¬ MatchState.reset.error.isSome = true := by decide
    rw [matchImpl, if_neg hclean, matchInner, length_optionals, if_neg (by omega), byteAt_ok hitem, ok_bind,
      if_neg (by decide), if_neg (by decide), if_neg (by simp), if_neg (by simp), ← length_optionals, hcall]
    exact ih (by omega)

end Optionals

/-- Two hundred optional items are one nested call too many for the matcher. -/
theorem whole_too_complex :
    ¬ ∀ (text pat : List UInt8) (max : Option ℕ), validatePattern pat = .ok () →
      ∃ s, gsub text pat [ch '%', ch '0'] max = .ok s ∧ s.out = text := by
  intro h
  have hstart : patStart (optionals 200) = 0 := rfl
  have hv : validatePattern (optionals 200) = .ok () := by
    rw [validatePattern, hstart]
    exact validateFrom_optionals (j := 0) _ (by omega) (by rw [length_optionals]; omega)
  have hfail : attempt [] (optionals 200) 0 = .error (.raise "pattern too complex") := by
    have hnested : matchImpl [] (optionals 200) MAXCCALLS 0 0 .reset = .ok (none, _) :=
      matchImpl_optionals (j := 0) MAXCCALLS (k := 200) le_rfl
    rw [attempt, hstart, hnested]
    rfl
  have hplain : isPlainPattern (optionals 200) = false := rfl
  have hraise : gsub [] (optionals 200) [ch '%', ch '0'] none = .error (.raise "pattern too complex") := by
    rw [gsub, hplain, if_neg fun hp => Bool.false_ne_true hp.1, gsubMatch, hv, ok_bind,
      gsubLoop_fails rfl (Nat.zero_le _) hfail]
    rfl
  obtain ⟨s, hs, -⟩ := h [] _ none hv
  rw [hraise] at hs
  cases hs

end LuajitRs.Pattern
