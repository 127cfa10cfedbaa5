import LuajitRs.Stdlib.Pattern.Scan

/-! How the three substitutions relate to the scan of Lua 5.1. The loop of a string replacement passes over an empty
match directly behind another match; the loop of functions and tables copies text twice after an empty match at the
end; and both try an anchored pattern again. -/
namespace LuajitRs.Pattern

open Lib

variable {text pat repl : List UInt8} {max : Option ℕ} {n m si count pos : ℕ} {spans : List (ℕ × ℕ)} {r : Subst}

/-- No span is empty directly behind a non-empty one; `behind` is the end of a non-empty span just before. -/
def NoEmptyBehind : Option ℕ → List (ℕ × ℕ) → Prop
  | _, [] => True
  | behind, (start, stop) :: spans =>
    (stop = start → behind ≠ some start) ∧ NoEmptyBehind (if stop = start then none else some stop) spans

/-- Where the last span is empty at the end of the text, the scan from `pos` stands there already. -/
def EndsInPlace (len : ℕ) : ℕ → List (ℕ × ℕ) → Prop
  | _, [] => True
  | pos, (start, stop) :: spans =>
    (stop = start → stop = len → pos = len) ∧ EndsInPlace len (afterMatch start stop) spans

theorem NoEmptyBehind.none_iff (h : ∀ v ∈ spans, si + 1 ≤ v.1) :
    NoEmptyBehind (some si) spans ↔ NoEmptyBehind none spans := by
  cases spans with
  | nil => exact Iff.rfl
  | cons v spans =>
    obtain ⟨start, stop⟩ := v
    have hlt : si < start := h _ (List.mem_cons_self ..)
    refine and_congr (forall_congr' fun _ => ?_) Iff.rfl
    refine iff_of_true (fun heq => ?_) (fun heq => ?_)
    · exact absurd (Option.some.inj heq) (by omega)
    · cases heq

/-! ### Following the scan -/

/-- A substitution `x` follows the scan `y`, whose spans it renders by `f`, exactly where the spans satisfy `P`. -/
def Follows (x : Except Stop Subst) (y : Except Stop (List (ℕ × ℕ))) (f : List (ℕ × ℕ) → Subst)
    (P : List (ℕ × ℕ) → Prop) : Prop :=
  x = y.map f ↔ ∀ spans, y = .ok spans → P spans

section Follows
variable {x : Except Stop Subst} {y : Except Stop (List (ℕ × ℕ))} {f g : List (ℕ × ℕ) → Subst}
  {P Q : List (ℕ × ℕ) → Prop}

theorem Follows.congr (h : Follows x y f P) (hf : ∀ spans, y = .ok spans → g spans = f spans)
    (hP : ∀ spans, y = .ok spans → (Q spans ↔ P spans)) : Follows x y g Q := by
  cases y with
  | error e =>
    refine h.trans (forall_congr' fun spans => ?_)
    exact iff_of_true nofun nofun
  | ok spans =>
    unfold Follows at h ⊢
    simp only [Except.map, Except.ok.injEq, forall_eq'] at h ⊢
    rw [hf spans rfl, hP spans rfl]
    exact h

theorem Follows.cons (v : ℕ × ℕ) (h : Follows x y f P) (hf : ∀ spans, y = .ok spans → g (v :: spans) = f spans)
    (hP : ∀ spans, y = .ok spans → (Q (v :: spans) ↔ P spans)) :
    Follows x (y >>= fun spans => pure (v :: spans)) g Q := by
  cases y with
  | error e =>
    refine h.trans (forall_congr' fun spans => ?_)
    exact iff_of_true nofun nofun
  | ok spans =>
    unfold Follows at h ⊢
    simp only [Except.map, ok_bind, pure_eq_ok, Except.ok.injEq, forall_eq'] at h ⊢
    rw [hf spans rfl, hP spans rfl]
    exact h

/-- Where both return the same, the spans must satisfy `P` anyway. -/
theorem Follows.ok (hf : x = .ok (f spans)) (hP : P spans) : Follows x (.ok spans) f P := by
  refine iff_of_true hf fun spans' h => ?_
  cases h
  exact hP

theorem Follows.error {e : Stop} (hx : x = .error e) : Follows x (.error e) f P :=
  iff_of_true hx nofun

end Follows

theorem error_of_cons {y : Except Stop (List (ℕ × ℕ))} {v : ℕ × ℕ} {e : Stop}
    (h : (y >>= fun spans => pure (v :: spans)) = .error e) : y = .error e := by
  cases y with
  | error e' => exact h
  | ok spans => cases h

/-! ### A string replacement -/

theorem gsubPiece_literal (hrepl : ch '%' ∉ repl) (si stop : ℕ) (ms : MatchState) :
    gsubPiece text repl si stop ms = .ok repl := by
  rw [gsubPiece, if_neg]
  rwa [List.contains_iff_mem]

section Steps
variable {last : Bool} {lastByteEnd stop : ℕ} {c : UInt8} {ms : MatchState} {piece : List UInt8}
  (hanch : anchored pat = false) (hlim : limitReached max r.count = false) (hl : lastByteEnd ≤ si)

/-- The text up to a match, and its replacement. -/
def replaced (text repl : List UInt8) (si stop lastByteEnd : ℕ) (r : Subst) : Subst :=
  (r.push ((text.take si).drop lastByteEnd)).replace (si, stop) repl

theorem go_iff : ¬ (text.length < si ∨ limitReached max r.count = true) ↔
    si ≤ text.length ∧ limitReached max r.count = false := by
  rw [not_or, Nat.not_lt, Bool.not_eq_true]

theorem gsubLoop_limit (h0 : 0 < n) (h : limitReached max r.count = true) :
    gsubLoop text pat repl max n si last lastByteEnd r = .ok (r, lastByteEnd) := by
  obtain ⟨n, rfl⟩ : ∃ k, n = k + 1 := ⟨n - 1, by omega⟩
  rw [gsubLoop, if_pos (.inr h)]
  rfl

theorem gsubLoop_end (h0 : 0 < n) (h : text.length < si) :
    gsubLoop text pat repl max n si last lastByteEnd r = .ok (r, lastByteEnd) := by
  obtain ⟨n, rfl⟩ : ∃ k, n = k + 1 := ⟨n - 1, by omega⟩
  rw [gsubLoop, if_pos (.inl h)]
  rfl

theorem copyByte_lt (hc : text[si]? = some c) : copyByte text si lastByteEnd r = .ok (r.push [c], si + 1) := by
  rw [copyByte, if_pos (lt_length_of_getElem? hc), byteAt_ok hc]
  rfl

theorem copyByte_end (hsi : text.length ≤ si) : copyByte text si lastByteEnd r = .ok (r, lastByteEnd) := by
  rw [copyByte, if_neg (Nat.not_lt.mpr hsi)]

include hlim

theorem gsubLoop_fails (hsi : si ≤ text.length) {e : Stop} (ha : attempt text pat si = .error e) :
    gsubLoop text pat repl max (n + 1) si last lastByteEnd r = .error e := by
  rw [gsubLoop, if_neg (go_iff.mpr ⟨hsi, hlim⟩), ha]
  rfl

include hanch in
theorem gsubLoop_miss (hsi : si < text.length) (ha : attempt text pat si = .ok none) :
    gsubLoop text pat repl max (n + 1) si last lastByteEnd r =
      gsubLoop text pat repl max n (si + 1) false lastByteEnd r := by
  rw [gsubLoop, if_neg (go_iff.mpr ⟨hsi.le, hlim⟩), ha, ok_bind, hanch, Bool.false_or,
    if_neg (by simpa using hsi)]

theorem gsubLoop_miss_end (hsi : si ≤ text.length) (hend : anchored pat = true ∨ si = text.length)
    (ha : attempt text pat si = .ok none) :
    gsubLoop text pat repl max (n + 1) si last lastByteEnd r = .ok (r, lastByteEnd) := by
  rw [gsubLoop, if_neg (go_iff.mpr ⟨hsi, hlim⟩), ha, ok_bind]
  dsimp only
  rw [if_pos]
  · rfl
  · cases hend with
    | inl h => rw [h, Bool.true_or]
    | inr h => rw [decide_eq_true h.ge, Bool.or_true]

/-- An empty match directly behind another one is passed over. -/
theorem gsubLoop_pass (hc : text[si]? = some c) (ha : attempt text pat si = .ok (some (si, ms))) :
    gsubLoop text pat repl max (n + 1) si true lastByteEnd r =
      gsubLoop text pat repl max n (si + 1) false (si + 1) (r.push [c]) := by
  rw [gsubLoop, if_neg (go_iff.mpr ⟨(lt_length_of_getElem? hc).le, hlim⟩), ha, ok_bind]
  dsimp only
  rw [if_pos ⟨rfl, rfl⟩, copyByte_lt hc]
  rfl

theorem gsubLoop_pass_end (hsi : si = text.length) (ha : attempt text pat si = .ok (some (si, ms))) :
    gsubLoop text pat repl max (n + 1) si true lastByteEnd r =
      gsubLoop text pat repl max n (si + 1) false lastByteEnd r := by
  rw [gsubLoop, if_neg (go_iff.mpr ⟨hsi.le, hlim⟩), ha, ok_bind]
  dsimp only
  rw [if_pos ⟨rfl, rfl⟩, copyByte_end hsi.ge]
  rfl

include hl

theorem gsubLoop_empty (hpiece : gsubPiece text repl si si ms = .ok piece) (hc : text[si]? = some c) (ha : attempt text pat si = .ok (some (si, ms))) :
    gsubLoop text pat repl max (n + 1) si false lastByteEnd r =
      gsubLoop text pat repl max n (si + 1) false (si + 1) ((replaced text piece si si lastByteEnd r).push [c]) := by
  have hsi := (lt_length_of_getElem? hc).le
  rw [gsubLoop, if_neg (go_iff.mpr ⟨hsi, hlim⟩), ha, ok_bind]
  dsimp only
  rw [if_neg fun h => Bool.noConfusion h.2, slice_ok hl hsi, ok_bind, hpiece, ok_bind, if_pos rfl,
    copyByte_lt hc]
  rfl

theorem gsubLoop_empty_end (hpiece : gsubPiece text repl si si ms = .ok piece) (hsi : si = text.length)
    (ha : attempt text pat si = .ok (some (si, ms))) :
    gsubLoop text pat repl max (n + 1) si false lastByteEnd r =
      gsubLoop text pat repl max n (si + 1) false si (replaced text piece si si lastByteEnd r) := by
  rw [gsubLoop, if_neg (go_iff.mpr ⟨hsi.le, hlim⟩), ha, ok_bind]
  dsimp only
  rw [if_neg fun h => Bool.noConfusion h.2, slice_ok hl hsi.le, ok_bind, hpiece, ok_bind, if_pos rfl,
    copyByte_end hsi.ge]
  rfl

theorem gsubLoop_unfilled {e : Stop} (hpiece : gsubPiece text repl si stop ms = .error e) (hsi : si ≤ text.length)
    (hlast : ¬ (stop = si ∧ last = true)) (ha : attempt text pat si = .ok (some (stop, ms))) :
    gsubLoop text pat repl max (n + 1) si last lastByteEnd r = .error e := by
  rw [gsubLoop, if_neg (go_iff.mpr ⟨hsi, hlim⟩), ha, ok_bind]
  dsimp only
  rw [if_neg hlast, slice_ok hl hsi, ok_bind, hpiece]
  rfl

theorem gsubLoop_match (hpiece : gsubPiece text repl si stop ms = .ok piece) (hsi : si ≤ text.length)
    (hne : stop ≠ si) (ha : attempt text pat si = .ok (some (stop, ms))) :
    gsubLoop text pat repl max (n + 1) si last lastByteEnd r =
      gsubLoop text pat repl max n stop true stop (replaced text piece si stop lastByteEnd r) := by
  rw [gsubLoop, if_neg (go_iff.mpr ⟨hsi, hlim⟩), ha, ok_bind]
  dsimp only
  rw [if_neg fun h => hne h.1, slice_ok hl hsi, ok_bind, hpiece, ok_bind, if_neg hne]
  rfl

end Steps

theorem copyRest_visits (p : Subst × ℕ) :
    Ensures (fun _ => True) (copyRest text p) fun s => s.visits = p.1.visits := by
  rw [copyRest]
  cases slice text p.2 text.length with
  | error e => trivial
  | ok rest => rfl

/-- Every span that the loop adds begins at the scan or behind it. -/
theorem gsubLoop_visits (h : Wf pat (patStart pat)) (n si : ℕ) (last : Bool) (lastByteEnd : ℕ) (r : Subst)
    (hl : lastByteEnd ≤ si) :
    Ensures (fun _ => True) (gsubLoop text pat repl max n si last lastByteEnd r) fun p =>
      ∃ spans, p.1.visits = r.visits ++ spans ∧ ∀ v ∈ spans, si ≤ v.1 := by
  induction n generalizing si last lastByteEnd r with
  | zero => trivial
  | succ n ih =>
    have hnone : ∃ spans, r.visits = r.visits ++ spans ∧ ∀ v ∈ spans, si ≤ v.1 :=
      ⟨[], (List.append_nil _).symm, fun v hv => nomatch hv⟩
    have hlater {p : Subst × ℕ} {sj : ℕ} (hs : si ≤ sj)
        (hp : ∃ spans, p.1.visits = r.visits ++ spans ∧ ∀ v ∈ spans, sj ≤ v.1) :
        ∃ spans, p.1.visits = r.visits ++ spans ∧ ∀ v ∈ spans, si ≤ v.1 := by
      obtain ⟨spans, heq, hsp⟩ := hp
      exact ⟨spans, heq, fun v hv => hs.trans (hsp v hv)⟩
    have hcons {p : Subst × ℕ} {stop sj : ℕ} (hs : si ≤ sj)
        (hp : ∃ spans, p.1.visits = r.visits ++ [(si, stop)] ++ spans ∧ ∀ v ∈ spans, sj ≤ v.1) :
        ∃ spans, p.1.visits = r.visits ++ spans ∧ ∀ v ∈ spans, si ≤ v.1 := by
      obtain ⟨spans, heq, hsp⟩ := hp
      rw [List.append_assoc] at heq
      exact ⟨(si, stop) :: spans, heq, List.forall_mem_cons.mpr ⟨le_rfl, fun v hv => hs.trans (hsp v hv)⟩⟩
    by_cases hsi : si ≤ text.length
    · cases hlim : limitReached max r.count with
      | true =>
        rw [gsubLoop_limit (Nat.succ_pos n) hlim]
        exact hnone
      | false =>
        obtain ⟨e, ha⟩ | ha | ⟨ms, ha⟩ | ⟨stop, ms, hlt, hstop, ha⟩ := attempt_cases h hsi
        · rw [gsubLoop_fails hlim hsi ha]
          trivial
        · by_cases hend : anchored pat = true ∨ si = text.length
          · rw [gsubLoop_miss_end hlim hsi hend ha]
            exact hnone
          · rw [not_or, Bool.not_eq_true] at hend
            rw [gsubLoop_miss hend.1 hlim (by omega) ha]
            exact (ih (si + 1) _ _ _ (by omega)).mono fun p hp => hlater (Nat.le_succ si) hp
        · by_cases hend : si = text.length
          · cases last with
            | true =>
              rw [gsubLoop_pass_end hlim hend ha]
              exact (ih (si + 1) _ _ _ (by omega)).mono fun p hp => hlater (Nat.le_succ si) hp
            | false =>
              cases hpiece : gsubPiece text repl si si ms with
              | error e =>
                rw [gsubLoop_unfilled hlim hl hpiece hsi (by simp) ha]
                trivial
              | ok piece =>
                rw [gsubLoop_empty_end hlim hl hpiece hend ha]
                exact (ih (si + 1) _ _ _ (Nat.le_succ si)).mono fun p hp => hcons (Nat.le_succ si) hp
          · have hc : text[si]? = some text[si] := List.getElem?_eq_getElem (by omega)
            cases last with
            | true =>
              rw [gsubLoop_pass hlim hc ha]
              exact (ih (si + 1) _ _ _ le_rfl).mono fun p hp => hlater (Nat.le_succ si) hp
            | false =>
              cases hpiece : gsubPiece text repl si si ms with
              | error e =>
                rw [gsubLoop_unfilled hlim hl hpiece hsi (by simp) ha]
                trivial
              | ok piece =>
                rw [gsubLoop_empty hlim hl hpiece hc ha]
                exact (ih (si + 1) _ _ _ le_rfl).mono fun p hp => hcons (Nat.le_succ si) hp
        · cases hpiece : gsubPiece text repl si stop ms with
          | error e =>
            rw [gsubLoop_unfilled hlim hl hpiece hsi (by omega) ha]
            trivial
          | ok piece =>
            rw [gsubLoop_match hlim hl hpiece hsi (by omega) ha]
            exact (ih stop _ _ _ le_rfl).mono fun p hp => hcons (by omega) hp
    · rw [gsubLoop_end (Nat.succ_pos n) (Nat.not_le.mp hsi)]
      exact hnone

/-- The loop cannot replace a match that it has passed. -/
theorem gsubLoop_ne_fill (h : Wf pat (patStart pat)) (n lastByteEnd : ℕ) (last : Bool) (r r' : Subst)
    (hl : lastByteEnd ≤ si + 1) (hr : r'.visits = r.visits) (spans : List (ℕ × ℕ)) :
    gsubLoop text pat repl max n (si + 1) last lastByteEnd r' >>= copyRest text ≠
      .ok (r.fill text repl pos ((si, si) :: spans)) := by
  intro heq
  have hvisits : Ensures (fun _ => True)
      (gsubLoop text pat repl max n (si + 1) last lastByteEnd r' >>= copyRest text) fun s =>
        ∃ spans, s.visits = r'.visits ++ spans ∧ ∀ v ∈ spans, si + 1 ≤ v.1 := by
    refine (gsubLoop_visits h n (si + 1) last lastByteEnd r' hl).bind fun p hp => ?_
    refine (copyRest_visits p).mono fun s hs => ?_
    rwa [hs]
  rw [heq] at hvisits
  obtain ⟨spans', hv, hlater⟩ := hvisits
  rw [hr] at hv
  have hmem := List.append_cancel_left hv
  have := hlater (si, si) (by rw [← hmem]; exact List.mem_cons_self ..)
  simp at this

section Law
variable (h : Wf pat (patStart pat)) (hanch : anchored pat = false) (hrepl : ch '%' ∉ repl)
include h hanch hrepl

/-- Where the scan fails, the loop fails alike, even when it has replaced fewer matches. -/
theorem gsubLoop_error {e : Stop} (n m si count : ℕ) (last : Bool) (lastByteEnd : ℕ) (r : Subst)
    (hsi : si ≤ text.length) (hl : lastByteEnd ≤ si) (hcount : r.count ≤ count) (hn : text.length < n + si)
    (hm : text.length < m + si) (he : scanFrom text pat max m si count = .error e) :
    gsubLoop text pat repl max n si last lastByteEnd r = .error e := by
  induction m generalizing n si count last lastByteEnd r with
  | zero => omega
  | succ m ih =>
    obtain ⟨n, rfl⟩ : ∃ k, n = k + 1 := ⟨n - 1, by omega⟩
    cases hlim : limitReached max count with
    | true =>
      rw [scanFrom_limit (Nat.succ_pos m) hlim] at he
      cases he
    | false =>
      have hlim' : limitReached max r.count = false := by
        cases max with
        | none => rfl
        | some k => exact decide_eq_false fun hr => of_decide_eq_false hlim (hr.trans hcount)
      obtain ⟨e', ha⟩ | ha | ⟨ms, ha⟩ | ⟨stop, ms, hlt, hstop, ha⟩ := attempt_cases h hsi
      · rw [scanFrom_fails hlim ha] at he
        rw [gsubLoop_fails hlim' hsi ha, Except.error.inj he]
      · by_cases hend : si = text.length
        · rw [scanFrom_miss_end hlim (.inr (by omega)) ha] at he
          cases he
        · rw [scanFrom_miss hlim hanch (by omega) ha] at he
          rw [gsubLoop_miss hanch hlim' (by omega) ha]
          exact ih _ _ _ _ _ _ (by omega) (by omega) hcount (by omega) (by omega) he
      · by_cases hend : si = text.length
        · rw [scanFrom_hit_end hlim (.inr (by rw [afterMatch_self]; omega)) ha] at he
          cases he
        · have hc : text[si]? = some text[si] := List.getElem?_eq_getElem (by omega)
          have he' : scanFrom text pat max m (si + 1) (count + 1) = .error e := by
            rw [scanFrom_hit hlim hanch (by rw [afterMatch_self]; omega) ha, afterMatch_self] at he
            exact error_of_cons he
          cases last with
          | true =>
            rw [gsubLoop_pass hlim' hc ha]
            exact ih _ _ _ _ _ _ (by omega) le_rfl (hcount.trans (Nat.le_succ _)) (by omega) (by omega) he'
          | false =>
            rw [gsubLoop_empty hlim' hl (gsubPiece_literal hrepl ..) hc ha]
            exact ih _ _ _ _ _ _ (by omega) le_rfl (Nat.succ_le_succ hcount) (by omega) (by omega) he'
      · have he' : scanFrom text pat max m stop (count + 1) = .error e := by
          rw [scanFrom_hit hlim hanch (by rw [afterMatch_of_ne (by omega)]; omega) ha,
            afterMatch_of_ne (by omega)] at he
          exact error_of_cons he
        rw [gsubLoop_match hlim' hl (gsubPiece_literal hrepl ..) hsi (by omega) ha]
        exact ih _ _ _ _ _ _ hstop le_rfl (Nat.succ_le_succ hcount) (by omega) (by omega) he'

/-- The loop follows the scan where no empty match lies directly behind another match. -/
theorem gsubLoop_follows (n m si : ℕ) (last : Bool) (lastByteEnd : ℕ) (r : Subst) (hsi : si ≤ text.length)
    (hl : lastByteEnd ≤ si) (hlast : last = true → lastByteEnd = si) (hn : text.length + 1 < n + si)
    (hm : text.length < m + si) :
    Follows (gsubLoop text pat repl max n si last lastByteEnd r >>= copyRest text)
      (scanFrom text pat max m si r.count) (r.fill text repl lastByteEnd)
      (NoEmptyBehind (if last then some si else none)) := by
  induction m generalizing n si last lastByteEnd r with
  | zero => omega
  | succ m ih =>
    obtain ⟨n, rfl⟩ : ∃ k, n = k + 1 := ⟨n - 1, by omega⟩
    have hdone : copyRest text (r, lastByteEnd) = .ok (r.fill text repl lastByteEnd []) :=
      copyRest_eq_fill (hl.trans hsi) repl
    cases hlim : limitReached max r.count with
    | true =>
      rw [scanFrom_limit (Nat.succ_pos m) hlim, gsubLoop_limit (Nat.succ_pos n) hlim]
      exact .ok hdone trivial
    | false =>
      obtain ⟨e, ha⟩ | ha | ⟨ms, ha⟩ | ⟨stop, ms, hlt, hstop, ha⟩ := attempt_cases h hsi
      · rw [scanFrom_fails hlim ha, gsubLoop_fails hlim hsi ha]
        exact .error rfl
      · by_cases hend : si = text.length
        · rw [scanFrom_miss_end hlim (.inr (by omega)) ha, gsubLoop_miss_end hlim hsi (.inr hend) ha]
          exact .ok hdone trivial
        · rw [scanFrom_miss hlim hanch (by omega) ha, gsubLoop_miss hanch hlim (by omega) ha]
          refine (ih n (si + 1) false lastByteEnd r (by omega) (by omega) (fun h => nomatch h) (by omega)
            (by omega)).congr (fun _ _ => rfl) fun spans hspans => ?_
          cases last with
          | false => exact Iff.rfl
          | true => exact NoEmptyBehind.none_iff (le_of_mem_scanFrom h (by omega) hspans)
      · by_cases hend : si = text.length
        · rw [scanFrom_hit_end hlim (.inr (by rw [afterMatch_self]; omega)) ha]
          cases last with
          | true =>
            rw [gsubLoop_pass_end hlim hend ha]
            refine iff_of_false (gsubLoop_ne_fill h n _ _ _ _ (by omega) rfl []) fun hP => ?_
            exact (hP _ rfl).1 rfl rfl
          | false =>
            rw [gsubLoop_empty_end hlim hl (gsubPiece_literal hrepl ..) hend ha, gsubLoop_end (by omega) (by omega), ok_bind,
              copyRest_eq_fill hsi repl, replaced, ← fill_cons]
            exact .ok rfl ⟨fun _ => nofun, trivial⟩
        · have hc : text[si]? = some text[si] := List.getElem?_eq_getElem (by omega)
          have hnext : afterMatch si si ≤ text.length := by
            rw [afterMatch_self]
            omega
          rw [scanFrom_hit hlim hanch hnext ha, afterMatch_self]
          cases last with
          | true =>
            rw [gsubLoop_pass hlim hc ha]
            cases hs : scanFrom text pat max m (si + 1) (r.count + 1) with
            | error e =>
              rw [gsubLoop_error h hanch hrepl n m (si + 1) (r.count + 1) false (si + 1) (r.push [text[si]]) (by omega)
                le_rfl (Nat.le_succ _) (by omega) (by omega) hs]
              exact .error rfl
            | ok spans =>
              refine iff_of_false (gsubLoop_ne_fill h n (si + 1) false r (r.push [text[si]]) le_rfl rfl spans)
                fun hP => ?_
              exact (hP _ rfl).1 rfl rfl
          | false =>
            rw [gsubLoop_empty hlim hl (gsubPiece_literal hrepl ..) hc ha]
            refine (ih n (si + 1) false (si + 1) _ (by omega) le_rfl (fun h => nomatch h) (by omega) (by omega)).cons _
              (fun spans hspans => ?_) fun spans _ => ?_
            · rw [fill_cons, fill_push hc (le_of_mem_scanFrom h (by omega) hspans)]
              rfl
            · simp [NoEmptyBehind]
      · have hnext : afterMatch si stop = stop := afterMatch_of_ne (by omega)
        rw [scanFrom_hit hlim hanch (by omega) ha,
          gsubLoop_match hlim hl (gsubPiece_literal hrepl ..) hsi (by omega) ha, hnext]
        refine (ih n stop true stop (replaced text repl si stop lastByteEnd r) hstop le_rfl (fun _ => rfl) (by omega)
          (by omega)).cons _ (fun spans _ => fill_cons _ _ _ _ _) fun spans _ => ?_
        have hne : stop ≠ si := by omega
        simp only [NoEmptyBehind, hne, false_implies, true_and, if_false, if_true]

end Law

/-! ### A function or a table -/

/-- The search stops where the scan does: at its next span, at its end, or with its error. -/
theorem findLoop_scan (hanch : anchored pat = false)
    (hlim : limitReached max count = false) (k m si : ℕ) (hsi : si ≤ text.length) (hk : text.length < k + si)
    (hm : text.length < m + si) :
    Ensures (fun e => scanFrom text pat max m si count = .error e) (findLoop text pat k si) fun f =>
      (f = none → scanFrom text pat max m si count = .ok []) ∧
      ∀ mi ∈ f, si ≤ mi.start ∧ (∃ ms, attempt text pat mi.start = .ok (some (mi.stop, ms))) ∧
        ∃ m', text.length < m' + 1 + mi.start ∧
          scanFrom text pat max m si count = scanFrom text pat max (m' + 1) mi.start count := by
  induction k generalizing m si with
  | zero => omega
  | succ k ih =>
    obtain ⟨m, rfl⟩ : ∃ j, m = j + 1 := ⟨m - 1, by omega⟩
    rw [findLoop]
    cases ha : attempt text pat si with
    | error e => exact scanFrom_fails hlim ha
    | ok a =>
      rcases a with _ | ⟨stop, ms⟩
      · rw [ok_bind]
        dsimp only
        split
        · next hend =>
          rw [hanch, Bool.false_or, decide_eq_true_eq] at hend
          exact ⟨fun _ => scanFrom_miss_end hlim (.inr (by omega)) ha, by rintro _ ⟨⟩⟩
        · next hend =>
          rw [hanch, Bool.false_or, decide_eq_true_eq] at hend
          rw [scanFrom_miss hlim hanch (by omega) ha]
          refine (ih m (si + 1) (by omega) (by omega) (by omega)).mono fun f hf => ⟨hf.1, fun mi hmi => ?_⟩
          have := hf.2 mi hmi
          exact ⟨by omega, this.2⟩
      · refine ⟨by rintro ⟨⟩, fun mi hmi => ?_⟩
        cases hmi
        exact ⟨le_rfl, ⟨ms, ha⟩, m, hm, rfl⟩

/-- The text is copied from two places alike only if there is nothing left in both. -/
theorem fill_nil_inj {stop : ℕ} (hpos : pos ≤ text.length) (hend : text.length ≤ stop) :
    r.fill text repl pos [] = r.fill text repl stop [] ↔ pos = text.length := by
  simp only [Subst.fill, render, List.drop_eq_nil_of_le hend, Subst.mk.injEq, List.append_cancel_left_eq, and_true,
    List.drop_eq_nil_iff]
  omega

section Loop
variable (h : Wf pat (patStart pat)) (hanch : anchored pat = false)
  (hfind : ∀ pos ≤ text.length, find text pat pos = findLoop text pat (text.length + 1) pos)
include h hanch hfind

/-- The loop follows the scan where an empty match at the end of the text is where the scan stands. -/
theorem gsubFindLoop_follows (n m pos : ℕ) (r : Subst) (hpos : pos ≤ text.length) (hn : text.length < n + pos)
    (hm : text.length < m + pos) :
    Follows (gsubFindLoop text pat max (fun _ _ => .ok repl) n pos r >>= copyRest text)
      (scanFrom text pat max m pos r.count) (r.fill text repl pos) (EndsInPlace text.length pos) := by
  induction n generalizing m pos r with
  | zero => omega
  | succ n ih =>
    have hdone : copyRest text (r, pos) = .ok (r.fill text repl pos []) := copyRest_eq_fill hpos repl
    rw [gsubFindLoop]
    cases hlim : limitReached max r.count with
    | true =>
      rw [scanFrom_limit (by omega) hlim]
      exact .ok hdone trivial
    | false =>
      have hscan := findLoop_scan hanch hlim (text.length + 1) m pos hpos (by omega) hm
      rw [if_neg Bool.false_ne_true, hfind pos hpos]
      cases hf : findLoop text pat (text.length + 1) pos with
      | error e =>
        rw [hf] at hscan
        rw [show scanFrom text pat max m pos r.count = .error e from hscan]
        exact .error rfl
      | ok f =>
        rw [hf] at hscan
        cases f with
        | none =>
          rw [hscan.1 rfl]
          exact .ok hdone trivial
        | some mi =>
          obtain ⟨hstart, ⟨ms, ha⟩, m, hm, hs⟩ := hscan.2 mi rfl
          obtain ⟨start, stop, caps⟩ := mi
          have hin : MatchInfo.Within text pos ⟨start, stop, caps⟩ := by
            have hall := find_ensures text pat pos
            rw [hfind pos hpos, hf] at hall
            exact hall _ rfl
          have hspan : start ≤ stop := hin.span
          have hstop : stop ≤ text.length := hin.stop
          dsimp only at hstart ha hm hs ⊢
          rw [hs, ok_bind]
          dsimp only
          rw [slice_ok hstart (by omega), ok_bind, ok_bind]
          by_cases hempty : stop = start
          · subst hempty
            rw [if_pos rfl]
            by_cases hend : stop = text.length
            · rw [if_pos hend, scanFrom_hit_end hlim (.inr (by rw [afterMatch_self]; omega)) ha, pure_eq_ok, ok_bind,
                copyRest_eq_fill hpos repl]
              unfold Follows
              simp only [Except.map, Except.ok.injEq, forall_eq', fill_cons, fill_nil_inj hpos, hend.ge]
              simp [EndsInPlace, hend]
            · have hc : text[stop]? = some text[stop] := List.getElem?_eq_getElem (by omega)
              rw [if_neg hend, scanFrom_hit hlim hanch (by rw [afterMatch_self]; omega) ha, afterMatch_self,
                byteAt_ok hc, ok_bind]
              refine (ih m (stop + 1) _ (by omega) (by omega) (by omega)).cons _ (fun spans hspans => ?_)
                fun spans _ => ?_
              · rw [fill_cons, fill_push hc (le_of_mem_scanFrom h (by omega) hspans)]
              · simp [EndsInPlace, hend]
          · rw [if_neg hempty, scanFrom_hit hlim hanch (by rw [afterMatch_of_ne hempty]; exact hstop) ha,
              afterMatch_of_ne hempty]
            refine (ih m stop _ hstop (by omega) (by omega)).cons _ (fun spans _ => fill_cons _ _ _ _ _)
              fun spans _ => ?_
            simp [EndsInPlace, hempty, afterMatch_of_ne hempty]

end Loop

end LuajitRs.Pattern
