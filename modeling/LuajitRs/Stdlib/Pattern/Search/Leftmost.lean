import LuajitRs.Stdlib.Pattern.FastPath
import LuajitRs.Stdlib.Pattern.Search

/-! The matcher computes the first result of the search that a pattern means, and a search from a position on finds the
leftmost match. -/
namespace LuajitRs.Pattern

open Lib

section Answers
variable {text pat : List UInt8} {call : Matcher} {ms : MatchState} {si pp : ℕ} {ps : List Piece}

/-! ### The recursion -/

/-- A piece that neither raises an error nor leaves a capture unfinished. -/
def Piece.Calm : Piece → Prop
  | .opening len => len = .position
  | .closing => False
  | .backref _ => False
  | _ => True

/-- With `d` calls left at `pp`, no error is raised. -/
def Calm (pat : List UInt8) (d pp : ℕ) (ps : List Piece) : Prop := pat.length - pp < d ∧ ∀ p ∈ ps, p.Calm

theorem Calm.later {d pp' : ℕ} {p : Piece} (h : Calm pat (d + 1) pp (p :: ps)) (hpp : pp < pat.length)
    (hlt : pp < pp') : Calm pat d pp' ps :=
  ⟨by have := h.1; omega, fun p' hp' => h.2 p' (List.mem_cons_of_mem p hp')⟩

/-- A matcher with `d` calls left answers at `pp` with the first result of the pieces from there on. -/
def Realizes (text pat : List UInt8) (call : Matcher) (d pp : ℕ) : Prop :=
  ∀ m, pat.length < m + pp → Agrees text call (Calm pat d pp (pieces pat m pp)) pp (pieces pat m pp)

/-- The same for a call that is made only while no error is flagged. -/
def Continues (text pat : List UInt8) (next : Matcher) (d pp : ℕ) : Prop :=
  ∀ m, pat.length < m + pp → ∀ si ms, si ≤ text.length → CapturesOk si ms.captures → ms.error = none →
    Ensures Never (next si pp ms)
      (Answer (Calm pat (d + 1) pp (pieces pat m pp)) ms (results text (pieces pat m pp) si ms.captures))

theorem itemEnd_ok {e : ℕ} (h : elementEnd pat pp = .ok e) : itemEnd pat pp = e := by
  rw [itemEnd, h]
  rfl

theorem suffixAt_eq {e : ℕ} : suffixAt pat e = .ok pat[e]? := by
  rw [suffixAt]
  split
  · next h => rw [byteAt_ok (List.getElem?_eq_getElem h), List.getElem?_eq_getElem h, Except.map]
  · next h => rw [List.getElem?_eq_none (Nat.not_lt.mp h)]

theorem repOf_cases (c : UInt8) :
    (c = ch '*' ∧ repOf c = some .star) ∨ (c = ch '+' ∧ repOf c = some .plus) ∨
      (c = ch '-' ∧ repOf c = some .lazy) ∨ (c = ch '?' ∧ repOf c = some .optional) ∨
        (c ≠ ch '*' ∧ c ≠ ch '+' ∧ c ≠ ch '-' ∧ c ≠ ch '?' ∧ repOf c = none) := by
  simp only [repOf]
  split_ifs <;> simp_all

/-- The pieces from a single item on. -/
def itemPieces (pat : List UInt8) (m pp : ℕ) : List Piece :=
  match pat[itemEnd pat pp]?.bind repOf with
  | some rep => .single (itemHolds pat pp) rep :: pieces pat m (itemEnd pat pp + 1)
  | none => .single (itemHolds pat pp) .once :: pieces pat m (itemEnd pat pp)

/-- A single item with its repetition. -/
theorem matchItem_answer {next : Matcher} {m d : ℕ} (h : Wf pat pp) (hpp : pp < pat.length)
    (hm : pat.length < m + 1 + pp)
    (hbf : pat[pp]? = some (ch '%') → pat[pp + 1]? ≠ some (ch 'b') ∧ pat[pp + 1]? ≠ some (ch 'f'))
    (hcall : ∀ e, Wf pat e → Realizes text pat call d e) (hnext : ∀ e, pp < e → Wf pat e → Continues text pat next d e)
    (hsi : si ≤ text.length) (hms : CapturesOk si ms.captures) (herr : ms.error = none) :
    Ensures Never (matchItem text pat call next si pp ms)
      (Answer (Calm pat (d + 1) pp (itemPieces pat m pp)) ms (results text (itemPieces pat m pp) si ms.captures)) := by
  obtain ⟨e, hend, hlt, hle, hw⟩ := h.elementEnd_ok hpp hbf
  have hread := h.readable hpp
  have hitem := itemEnd_ok hend
  rw [matchItem, hend, ok_bind, suffixAt_eq, ok_bind]
  have honce (hrep : pat[e]?.bind repOf = none) :
      Ensures Never (do if ← matchesHere text pat si pp then next (si + 1) e ms else pure (none, ms))
        (Answer (Calm pat (d + 1) pp (itemPieces pat m pp)) ms
          (results text (itemPieces pat m pp) si ms.captures)) := by
    rw [itemPieces, hitem, hrep, matchesHere_eq hread, ok_bind]
    dsimp only
    rw [results, Rep.counts]
    have hle := runLength_le (itemHolds pat pp) hsi
    by_cases hpos : 0 < runLength text (itemHolds pat pp) si
    · rw [if_pos (decide_eq_true hpos), if_pos hpos]
      have := (hnext e hlt hw m (by omega) (si + 1) ms (by omega) (hms.mono (by omega)) herr).mono
        fun _ h => h.imp fun hq : Calm pat (d + 1) pp (.single (itemHolds pat pp) .once :: pieces pat m e) =>
          ⟨by have := hq.1; omega, (hq.later hpp hlt).2⟩
      simpa using this
    · rw [if_neg (by simpa using hpos), if_neg hpos]
      exact .miss rfl
  have hrest {c : UInt8} (rep : Rep) (hc : pat[e]? = some c) (hrep : isRepetition c = true) : Agrees text call
      (Calm pat (d + 1) pp (.single (itemHolds pat pp) rep :: pieces pat m (e + 1))) (e + 1) (pieces pat m (e + 1)) :=
    (hcall _ (hw.repetition hc hrep) m (by omega)).imp fun hq => hq.later hpp (by omega)
  cases hc : pat[e]? with
  | none =>
    rw [hc] at honce
    exact honce rfl
  | some c =>
    rw [hc] at honce
    obtain ⟨rfl, hrep⟩ | ⟨rfl, hrep⟩ | ⟨rfl, hrep⟩ | ⟨rfl, hrep⟩ | ⟨h1, h2, h3, h4, hrep⟩ := repOf_cases c
    · rw [if_pos rfl, itemPieces, hitem, hc, Option.bind_some, hrep]
      dsimp only
      rw [results, Rep.counts, List.range_eq_range']
      exact matchGreedy_answer hread (hrest .star hc rfl) 0 hsi hms
    · rw [if_neg (by decide), if_pos rfl, itemPieces, hitem, hc, Option.bind_some, hrep]
      dsimp only
      rw [results, Rep.counts]
      exact matchGreedy_answer hread (hrest .plus hc rfl) 1 hsi hms
    · rw [if_neg (by decide), if_neg (by decide), if_pos rfl, itemPieces, hitem, hc, Option.bind_some, hrep]
      dsimp only
      rw [results, Rep.counts, matchLazy]
      have := lazyFrom_answer hread (hrest .lazy hc rfl) (text.length + 1) si ms (by omega) hsi hms
      rwa [List.range'_eq_map_range, List.flatMap_map] at this
    · rw [if_neg (by decide), if_neg (by decide), if_neg (by decide), if_pos rfl, itemPieces, hitem, hc,
        Option.bind_some, hrep]
      dsimp only
      rw [results]
      exact matchOptional_answer hread (hrest .optional hc rfl) hsi hms
    · rw [if_neg fun h => h1 (Option.some.inj h), if_neg fun h => h2 (Option.some.inj h),
        if_neg fun h => h3 (Option.some.inj h), if_neg fun h => h4 (Option.some.inj h)]
      exact honce hrep

theorem matchInner_continues {d : ℕ} (hlen : text.length < 2^31) (hcall : ∀ e, Wf pat e → Realizes text pat call d e)
    (n pp : ℕ) (h0 : 0 < n) (hn : pat.length < n + pp) (h : Wf pat pp) :
    Continues text pat (matchInner text pat call n) d pp := by
  induction n generalizing pp with
  | zero => cases h0
  | succ n ih =>
    intro m hm si ms hsi hms herr
    rw [matchInner]
    by_cases hpp : pat.length ≤ pp
    · rw [if_pos hpp]
      have hnil : pieces pat m pp = [] := by
        cases m with
        | zero => rfl
        | succ m => rw [pieces, List.getElem?_eq_none hpp]
      rw [hnil, results]
      exact ⟨fun _ => herr, fun _ => ⟨herr, rfl⟩, fun _ h => h⟩
    · have hlt : pp < pat.length := Nat.not_le.mp hpp
      obtain ⟨p, hp⟩ : ∃ p, pat[pp]? = some p := ⟨_, List.getElem?_eq_getElem hlt⟩
      obtain ⟨m, rfl⟩ : ∃ k, m = k + 1 := ⟨m - 1, by omega⟩
      have hnext (e : ℕ) (he : pp < e) (hw : Wf pat e) : Continues text pat (matchInner text pat call n) d e :=
        ih e (by omega) (by omega) hw
      have hrest (p : Piece) (e : ℕ) (he : pp < e) (hw : Wf pat e) :
          Agrees text call (Calm pat (d + 1) pp (p :: pieces pat m e)) e (pieces pat m e) :=
        (hcall e hw m (by omega)).imp fun hq => hq.later hlt he
      rw [if_neg hpp, byteAt_ok hp, ok_bind, pieces, hp]
      dsimp only
      split
      · next hopen =>
        subst hopen
        have hw := h.byte hp (by decide) (by decide)
        rw [hasByte_eq, ok_bind]
        simp only [decide_eq_true_eq]
        split
        · next hclose =>
          have hw2 := hw.byte hclose (by decide) (by decide)
          exact openCapture_answer (fun n h => by cases h) (hrest _ _ (by omega) hw2) hsi hms
        · exact openCapture_answer (fun n h => by cases h) (hrest _ _ (by omega) hw) hsi hms
      · split
        · next hclose =>
          subst hclose
          exact matchCloseCapture_answer (fun hq => hq.2 _ List.mem_cons_self)
            (hrest _ _ (by omega) (h.byte hp (by decide) (by decide))) hsi hms
        · split
          · rw [results]
            split
            · exact ⟨fun _ => herr, fun _ => ⟨herr, rfl⟩, fun _ h => h⟩
            · exact .miss rfl
          · by_cases hesc : p = ch '%'
            · subst hesc
              have hl := h.escape_lt hp
              obtain ⟨cl, hcl⟩ : ∃ cl, pat[pp + 1]? = some cl := ⟨_, List.getElem?_eq_getElem hl⟩
              rw [if_pos ⟨rfl, hl⟩, byteAt_ok hcl, ok_bind, hcl]
              simp only [true_and, Option.some.injEq, Option.any_some]
              split
              · next hb =>
                subst hb
                obtain ⟨hpp3, hw⟩ := h.balanced hp hcl
                exact matchBalanced_answer hlen hpp3 (hrest _ _ (by omega) hw) hms
              · next hb =>
                split
                · next hf =>
                  subst hf
                  obtain ⟨hs, e, he, hw⟩ := h.frontier hp hcl
                  have hend := elementEnd_set hs he
                  have hread : Readable pat (pp + 2) := by
                    refine ⟨lt_length_of_getElem? hs, fun hesc => ?_⟩
                    rw [hs] at hesc
                    cases hesc
                  have hbounds := he.bounds
                  have hitems := lt_setItems pat (pp + 2)
                  rw [itemEnd_ok hend]
                  exact matchFrontier_answer hs hend hread (hrest _ _ (by omega) hw) hsi hms
                · next hf =>
                  split
                  · exact matchBackref_answer (fun hq => hq.2 _ List.mem_cons_self) hcl
                      (hrest _ _ (by omega) (h.escape hp hcl hb hf)) hms
                  · refine matchItem_answer h hlt (by omega) (fun _ => ?_) hcall hnext hsi hms herr
                    rw [hcl]
                    exact ⟨fun h => hb (Option.some.inj h), fun h => hf (Option.some.inj h)⟩
            · simp only [hesc, false_and, if_false]
              refine matchItem_answer h hlt (by omega) (fun hp' => ?_) hcall hnext hsi hms herr
              exact absurd (Option.some.inj (hp.symm.trans hp')) hesc

/-- The matcher on a well-formed pattern answers with the first result of its pieces. -/
theorem matchImpl_realizes (hlen : text.length < 2^31) (d pp : ℕ) (h : Wf pat pp) :
    Realizes text pat (matchImpl text pat d) d pp := by
  induction d generalizing pp with
  | zero =>
    intro m hm si ms hsi hms
    refine ensures_and (matchImpl_ensures 0 pp h si ms hsi hms) ?_
    rw [matchImpl]
    refine ⟨fun h => absurd rfl h, fun herr => ?_, fun hq => absurd hq.1 (Nat.not_lt_zero _)⟩
    cases he : ms.error with
    | none => simp [he, MatchState.fail] at herr
    | some e => simp [he] at herr
  | succ d ih =>
    intro m hm si ms hsi hms
    refine ensures_and (matchImpl_ensures (d + 1) pp h si ms hsi hms) ?_
    rw [matchImpl]
    cases he : ms.error with
    | some e => exact ⟨fun h => absurd rfl h, fun herr => by simp [he] at herr, fun _ herr => by simp [he] at herr⟩
    | none => exact matchInner_continues hlen ih _ pp (Nat.succ_pos _) (by omega) h m hm si ms hsi hms he

end Answers

/-! ### Searching -/

section Searching
variable {text pat : List UInt8} {si stop n : ℕ} {ms : MatchState} {m : MatchInfo} {ps : List Piece}

/-- Without a closing parenthesis, calm pieces capture positions only. -/
theorem results_positions (hps : ∀ p ∈ ps, p.Calm) (captures : List Capture)
    (hcap : ∀ cap ∈ captures, cap.len = .position) :
    ∀ r ∈ results text ps si captures, ∀ cap ∈ r.2, cap.len = .position := by
  induction ps generalizing si captures with
  | nil =>
    intro r hr
    rw [results, List.mem_singleton] at hr
    subst hr
    exact hcap
  | cons p ps ih =>
    have ih {si : ℕ} (captures : List Capture) (hcap : ∀ cap ∈ captures, cap.len = .position) :
        ∀ r ∈ results text ps si captures, ∀ cap ∈ r.2, cap.len = .position :=
      ih (fun p hp => hps p (List.mem_cons_of_mem _ hp)) captures hcap
    have hp := hps p List.mem_cons_self
    intro r hr
    cases p with
    | single holds rep =>
      rw [results, List.mem_flatMap] at hr
      obtain ⟨k, _, hr⟩ := hr
      exact ih captures hcap r hr
    | opening len =>
      rw [results] at hr
      split at hr
      · refine ih _ (fun cap h => ?_) r hr
        obtain h | h := List.mem_append.mp h
        · exact hcap cap h
        · rw [List.mem_singleton.mp h]
          exact hp
      · cases hr
    | closing => exact hp.elim
    | balanced opening closing =>
      rw [results] at hr
      split at hr
      · split at hr
        · exact ih captures hcap r hr
        · cases hr
      · cases hr
    | frontier holds =>
      rw [results] at hr
      split at hr
      · exact ih captures hcap r hr
      · cases hr
    | backref n => exact hp.elim
    | atEnd =>
      rw [results] at hr
      split at hr
      · exact ih captures hcap r hr
      · cases hr

/-- A pattern for which no search raises an error: it is short, and captures positions at most. -/
def Quiet (pat : List UInt8) : Prop :=
  pat.length < MAXCCALLS ∧ ∀ p ∈ pieces pat (pat.length + 1) (patStart pat), p.Calm

/-- The errors that a search may raise. -/
def Allowed (pat : List UInt8) (e : Stop) : Prop := Raised e ∧ ¬Quiet pat

/-- An attempt finds the preferred match at its place, with the captures of that match. -/
theorem attempt_first (hlen : text.length < 2^31) (h : Wf pat (patStart pat)) (hsi : si ≤ text.length) :
    Ensures (Allowed pat) (attempt text pat si) fun r =>
      r.map (fun p => (p.1, p.2.captures)) = (matchesAt pat text si).head? := by
  have hempty : CapturesOk si MatchState.reset.captures := ⟨Nat.zero_le _, List.forall_mem_nil _⟩
  have hf := matchImpl_realizes hlen MAXCCALLS _ h (pat.length + 1) (by omega) si .reset hsi hempty
  have hquiet : Quiet pat → Calm pat MAXCCALLS (patStart pat) (pieces pat (pat.length + 1) (patStart pat)) :=
    fun hq => ⟨by have := hq.1; omega, hq.2⟩
  rw [attempt, matchesAt]
  refine (hf.weaken fun _ => False.elim).bind fun r hr => ?_
  obtain ⟨r, ms⟩ := r
  have hpos (hq : Quiet pat) : ∀ r ∈ results text (pieces pat (pat.length + 1) (patStart pat)) si [],
      ∀ cap ∈ r.2, cap.len = .position :=
    results_positions hq.2 [] (List.forall_mem_nil _)
  obtain ⟨hclean, hfirst, hcalm⟩ := hr.2
  rw [show MatchState.reset.captures = [] from rfl] at hfirst
  generalize results text (pieces pat (pat.length + 1) (patStart pat)) si [] = l at hfirst hpos
  cases r with
  | some stop =>
    obtain ⟨_, hf⟩ := hfirst (hclean (Option.some_ne_none stop))
    cases l with
    | nil => cases hf
    | cons a l =>
      obtain ⟨stop', found⟩ := a
      simp only [first, Prod.mk.injEq, Option.some.injEq] at hf
      obtain ⟨rfl, rfl⟩ := hf
      dsimp only
      rw [checkCaptures]
      split
      · next hun =>
        refine ⟨trivial, fun hq => ?_⟩
        obtain ⟨cap, hcap, hlen⟩ := List.any_eq_true.mp hun
        simp [hpos hq _ List.mem_cons_self cap hcap] at hlen
      · rfl
  | none =>
    dsimp only
    cases herr : ms.error with
    | some e => exact ⟨trivial, fun hq => absurd (herr.symm.trans (hcalm (hquiet hq) rfl)) (Option.some_ne_none e)⟩
    | none =>
      obtain ⟨_, hf⟩ := hfirst herr
      cases l with
      | nil => rfl
      | cons a l => cases hf

/-- The match that a search from `init` on reports: the preferred one at the first place where there is one. An anchored
pattern is tried at `init` only. -/
def Leftmost (text pat : List UInt8) (init : ℕ) : Option MatchInfo → Prop
  | some m => init ≤ m.start ∧ m.start ≤ text.length ∧ (anchored pat = true → m.start = init) ∧
      (∃ captures, (matchesAt pat text m.start).head? = some (m.stop, captures) ∧
        m.captures = captures.filterMap Capture.value) ∧
      ∀ i, init ≤ i → i < m.start → matchesAt pat text i = []
  | none => ∀ i, init ≤ i → i ≤ text.length → (anchored pat = true → i = init) → matchesAt pat text i = []

theorem Leftmost.later {r : Option MatchInfo} (h : Leftmost text pat (si + 1) r) (hanch : anchored pat = false)
    (hmiss : matchesAt pat text si = []) : Leftmost text pat si r := by
  have hsi {i : ℕ} (h0 : si ≤ i) (h1 : si + 1 ≤ i → matchesAt pat text i = []) : matchesAt pat text i = [] := by
    obtain rfl | hlt := h0.eq_or_lt
    · exact hmiss
    · exact h1 hlt
  cases r with
  | some m =>
    obtain ⟨h0, h1, h2, h3, h4⟩ := h
    exact ⟨by omega, h1, fun h => by simp [hanch] at h, h3, fun i hi hlt => hsi hi fun h => h4 i h hlt⟩
  | none => exact fun i hi hle _ => hsi hi fun h' => h i h' hle fun h => by simp [hanch] at h

theorem findLoop_leftmost (hlen : text.length < 2^31) (h : Wf pat (patStart pat)) (n si : ℕ) (hsi : si ≤ text.length)
    (hn : text.length < n + si) : Ensures (Allowed pat) (findLoop text pat n si) (Leftmost text pat si) := by
  induction n generalizing si with
  | zero => omega
  | succ n ih =>
    rw [findLoop]
    refine (attempt_first hlen h hsi).bind fun r hr => ?_
    cases r with
    | some p =>
      obtain ⟨stop, ms⟩ := p
      exact ⟨le_rfl, hsi, fun _ => rfl, ⟨ms.captures, hr.symm, rfl⟩, fun i hi hlt => absurd hi (Nat.not_le.mpr hlt)⟩
    | none =>
      have hmiss : matchesAt pat text si = [] := List.head?_eq_none_iff.mp hr.symm
      dsimp only
      split
      · next hstop =>
        intro i hi hle hanch
        have heq : i = si := by
          obtain ha | hend := Bool.or_eq_true_iff.mp hstop
          · exact hanch ha
          · have := of_decide_eq_true hend
            omega
        rw [heq, hmiss]
      · next hstop =>
        simp only [Bool.or_eq_true, decide_eq_true_eq, not_or] at hstop
        exact (ih (si + 1) (by omega) (by omega)).mono fun r hr => hr.later (Bool.eq_false_of_not_eq_true hstop.1) hmiss

/-- A search from `init` on reports the leftmost match, and of the matches at that place the one that backtracking
prefers, or that there is none. It may raise an error instead, if the pattern is not accepted or not quiet. A pattern
without special characters must not have a `)`. -/
theorem find_leftmost (hlen : text.length < 2^31) (hplain : isPlainPattern pat = true → ch ')' ∉ pat) (init : ℕ) :
    Ensures (fun e => Raised e ∧ (validatePattern pat = .ok () → ¬Quiet pat)) (find text pat init)
      (Leftmost text pat init) := by
  have hfind : find text pat init = findGeneral text pat init := by
    cases hp : isPlainPattern pat with
    | true => exact (find_eq_general_iff (isPlainPattern_iff.mp hp) init).mpr fun hclose => absurd hclose (hplain hp)
    | false => simp [find, findImpl, findGeneral, hp]
  rw [hfind, findGeneral]
  split
  · next hlt => exact fun i hi hle => by omega
  · next hle =>
    rw [findMatch, if_pos rfl]
    cases hv : validatePattern pat with
    | error e =>
      have hraised := validatePattern_ensures pat
      rw [hv] at hraised
      exact ⟨hraised, fun h => by cases h⟩
    | ok u =>
      have hsearch := findLoop_leftmost hlen (wf_of_validatePattern hv) _ init (Nat.not_lt.mp hle)
        (show text.length < text.length + 1 + init by omega)
      exact hsearch.weaken fun e he => ⟨he.1, fun _ => he.2⟩

theorem find_leftmost_lazy :
    find ("caabb".toList.map ch) ("a-b".toList.map ch) 0 = .ok (some ⟨1, 4, []⟩) ∧
      Ensures (fun e => Raised e ∧ (validatePattern ("a-b".toList.map ch) = .ok () → ¬Quiet ("a-b".toList.map ch)))
        (find ("caabb".toList.map ch) ("a-b".toList.map ch) 0)
        (Leftmost ("caabb".toList.map ch) ("a-b".toList.map ch) 0) :=
  ⟨by decide, find_leftmost (by decide) (by decide) 0⟩

end Searching

end LuajitRs.Pattern
