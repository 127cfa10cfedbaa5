import LuajitRs.Stdlib.Pattern.Plain
import LuajitRs.Stdlib.Pattern.Safety

/-! The operations on an accepted pattern: none faults, and every match they find lies in the text with its
captures. -/
namespace LuajitRs.Pattern

open Lib

variable {text pat repl : List UInt8} {si n : ℕ} {max : Option ℕ}

/-- A capture lies in the text. -/
def CaptureValue.Within (text : List UInt8) : CaptureValue → Prop
  | substring start stop => start ≤ stop ∧ stop ≤ text.length
  | position p => 1 ≤ p ∧ p ≤ text.length + 1

/-- A match from `init` on lies in the text with its captures. -/
structure MatchInfo.Within (text : List UInt8) (init : ℕ) (m : MatchInfo) : Prop where
  start : init ≤ m.start
  span : m.start ≤ m.stop
  stop : m.stop ≤ text.length
  captures : ∀ cap ∈ m.captures, cap.Within text

def FoundWithin (text : List UInt8) (init : ℕ) (r : Option MatchInfo) : Prop := ∀ m ∈ r, m.Within text init

theorem FoundWithin.mono {init : ℕ} {r : Option MatchInfo} (h : FoundWithin text si r) (hi : init ≤ si) :
    FoundWithin text init r :=
  fun m hm => ⟨hi.trans (h m hm).start, (h m hm).span, (h m hm).stop, (h m hm).captures⟩

theorem extractCaptures_within {stop : ℕ} {ms : MatchState} (h : CapturesOk stop ms.captures)
    (hs : stop ≤ text.length) : ∀ cap ∈ extractCaptures ms, cap.Within text := by
  intro v hv
  obtain ⟨cap, hcap, heq⟩ := List.mem_filterMap.mp hv
  have hstop := h.upto cap hcap
  obtain ⟨start, len⟩ := cap
  cases len with
  | len l =>
    cases heq
    exact ⟨Nat.le_add_right start l, hstop.trans hs⟩
  | position =>
    cases heq
    exact ⟨Nat.succ_pos start, Nat.succ_le_succ (hstop.trans hs)⟩
  | unfinished => cases heq

/-! ### Finding -/

theorem attempt_ensures (h : Wf pat (patStart pat)) (hsi : si ≤ text.length) :
    Ensures Raised (attempt text pat si) fun r =>
      ∀ p ∈ r, si ≤ p.1 ∧ p.1 ≤ text.length ∧ CapturesOk p.1 p.2.captures := by
  have hempty : CapturesOk si MatchState.reset.captures := ⟨Nat.zero_le _, fun _ h => nomatch h⟩
  rw [attempt]
  refine (Never.weaken (matchImpl_ensures MAXCCALLS _ h si .reset hsi hempty)).bind fun r hr => ?_
  obtain ⟨r, ms⟩ := r
  cases r with
  | some stop =>
    dsimp only
    rw [checkCaptures]
    split
    · trivial
    · intro p hp
      cases hp
      exact hr
  | none =>
    dsimp only
    split
    · trivial
    · intro p hp
      cases hp

theorem matchInfo_within {stop : ℕ} {ms : MatchState}
    (h : si ≤ stop ∧ stop ≤ text.length ∧ CapturesOk stop ms.captures) :
    MatchInfo.Within text si ⟨si, stop, extractCaptures ms⟩ :=
  ⟨le_rfl, h.1, h.2.1, extractCaptures_within h.2.2 h.2.1⟩

theorem findLoop_ensures (h : Wf pat (patStart pat)) (n si : ℕ) (hsi : si ≤ text.length) (hn : text.length < n + si) :
    Ensures Raised (findLoop text pat n si) (FoundWithin text si) := by
  induction n generalizing si with
  | zero => omega
  | succ n ih =>
    rw [findLoop]
    refine (attempt_ensures h hsi).bind fun r hr => ?_
    match r, hr with
    | some (stop, ms), hr =>
      intro m hm
      cases hm
      exact matchInfo_within (hr _ rfl)
    | none, _ =>
      dsimp only
      split
      · intro m hm
        cases hm
      · next hstop =>
        simp only [Bool.or_eq_true, decide_eq_true_eq, not_or] at hstop
        exact (ih (si + 1) (by omega) (by omega)).mono fun r hr => hr.mono (Nat.le_succ si)

theorem findPlain_ensures (hsi : si ≤ text.length) : Ensures Never (findPlain text pat si) (FoundWithin text si) := by
  rw [findPlain, slice_ok hsi le_rfl, ok_bind, List.take_length]
  refine (findBytesInSlice_ensures _ _).bind fun r hr => ?_
  match r, hr with
  | none, _ =>
    intro m hm
    cases hm
  | some pos, hr =>
    intro m hm
    cases hm
    have hb := hr.bound
    rw [List.length_drop] at hb
    refine ⟨Nat.le_add_right _ _, Nat.le_add_right _ _, ?_, fun cap hcap => nomatch hcap⟩
    show si + pos + pat.length ≤ text.length
    omega

theorem findMatch_ensures (hsi : si ≤ text.length) :
    Ensures Raised (findMatch text pat si true) (FoundWithin text si) := by
  rw [findMatch, if_pos rfl]
  exact (validatePattern_ensures pat).bind fun _ h => findLoop_ensures h _ si hsi (by omega)

theorem find_ensures (text pat : List UInt8) (init : ℕ) :
    Ensures Raised (find text pat init) (FoundWithin text init) := by
  rw [find, findImpl]
  split
  · intro m hm
    cases hm
  · next hinit =>
    split
    · exact Never.weaken (findPlain_ensures (Nat.not_lt.mp hinit))
    · exact findMatch_ensures (Nat.not_lt.mp hinit)

theorem findAssumeValid_ensures (h : Wf pat (patStart pat)) (init : ℕ) :
    Ensures Raised (findAssumeValid text pat init) (FoundWithin text init) := by
  rw [findAssumeValid, findImpl]
  split
  · intro m hm
    cases hm
  · next hinit =>
    split
    · exact Never.weaken (findPlain_ensures (Nat.not_lt.mp hinit))
    · exact findLoop_ensures h _ init (Nat.not_lt.mp hinit) (by omega)

/-! ### All matches -/

theorem findAllLoop_ensures (h : Wf pat (patStart pat)) {init : ℕ} (n si : ℕ) (lastNonempty : Bool)
    (found : List MatchInfo) (h0 : 0 < n) (hinit : init ≤ si)
    (hn : text.length + 2 < n + si ∨ lastNonempty = false ∧ si = text.length ∧ text.length + 1 < n + si)
    (hfound : ∀ m ∈ found, m.Within text init) :
    Ensures Raised (findAllLoop text pat max n si lastNonempty found) fun ms => ∀ m ∈ ms, m.Within text init := by
  induction n generalizing si lastNonempty found with
  | zero => cases h0
  | succ n ih =>
    rw [findAllLoop]
    split
    · exact hfound
    · next hgo =>
      have hsi : si ≤ text.length := by
        rw [not_or] at hgo
        exact Nat.not_lt.mp hgo.1
      refine (attempt_ensures h hsi).bind fun r hr => ?_
      match r, hr with
      | some (stop, ms), hr =>
        have hm := matchInfo_within (hr _ rfl)
        have hb := hr _ rfl
        dsimp only at hb hm ⊢
        have hfound' : ∀ m ∈ found ++ [⟨si, stop, extractCaptures ms⟩], m.Within text init := by
          intro m hmem
          cases List.mem_append.mp hmem with
          | inl hmem => exact hfound m hmem
          | inr hmem =>
            rw [List.mem_singleton.mp hmem]
            exact ⟨hinit.trans hm.start, hm.span, hm.stop, hm.captures⟩
        split
        · next hskip =>
          split
          · exact ih _ _ _ (by omega) (by omega) (by omega) hfound
          · refine ih _ _ _ (by omega) (by omega) (.inr ⟨rfl, by omega, ?_⟩) hfound
            cases hn with
            | inl hn => omega
            | inr hn => exact absurd (hskip.2.symm.trans hn.1) (by decide)
        · split
          · split
            · exact ih _ _ _ (by omega) (by omega) (by omega) hfound'
            · exact hfound'
          · exact ih _ _ _ (by omega) (by omega) (by omega) hfound'
      | none, _ =>
        dsimp only
        split
        · exact hfound
        · next hstop =>
          simp only [Bool.or_eq_true, decide_eq_true_eq, not_or] at hstop
          exact ih _ _ _ (by omega) (by omega) (by omega) hfound

theorem findAllPlainLoop_ensures (hpat : pat ≠ []) {init : ℕ} (n pos : ℕ) (found : List MatchInfo) (h0 : 0 < n)
    (hinit : init ≤ pos) (hn : text.length + 1 < n + pos) (hfound : ∀ m ∈ found, m.Within text init) :
    Ensures Never (findAllPlainLoop text pat max n pos found) fun ms => ∀ m ∈ ms, m.Within text init := by
  have hlen : 0 < pat.length := List.length_pos_iff.mpr hpat
  induction n generalizing pos found with
  | zero => cases h0
  | succ n ih =>
    rw [findAllPlainLoop]
    split
    · exact hfound
    · next hgo =>
      have hpos : pos ≤ text.length := by
        rw [not_or] at hgo
        exact Nat.not_lt.mp hgo.1
      rw [slice_ok hpos le_rfl, ok_bind, List.take_length]
      refine (findBytesInSlice_ensures _ _).bind fun r hr => ?_
      match r, hr with
      | none, _ => exact hfound
      | some i, hr =>
        have hb := hr.bound
        rw [List.length_drop] at hb
        refine ih _ _ (by omega) (by omega) (by omega) fun m hmem => ?_
        cases List.mem_append.mp hmem with
        | inl hmem => exact hfound m hmem
        | inr hmem =>
          rw [List.mem_singleton.mp hmem]
          have hstop : pos + i + pat.length ≤ text.length := by omega
          exact ⟨hinit.trans (Nat.le_add_right _ _), Nat.le_add_right _ _, hstop, fun cap hcap => nomatch hcap⟩

theorem findAllMatches_ensures (text pat : List UInt8) (init : ℕ) (max : Option ℕ) :
    Ensures Raised (findAllMatches text pat init max) fun ms => ∀ m ∈ ms, m.Within text init := by
  rw [findAllMatches]
  split
  · next hplain =>
    exact Never.weaken (findAllPlainLoop_ensures hplain.2 _ init [] (by omega) le_rfl (by omega) fun m h => nomatch h)
  · exact (validatePattern_ensures pat).bind fun _ h =>
      findAllLoop_ensures h _ init false [] (by omega) le_rfl (.inl (by omega)) fun m h => nomatch h

/-! ### Library functions -/

/-- A value made from a match: a part of the text, or a position in it. -/
def Arg.Within (text : List UInt8) : Arg → Prop
  | str bytes => bytes <:+: text
  | pos p => 1 ≤ p ∧ p ≤ text.length + 1

theorem slice_within {a b : ℕ} (hab : a ≤ b) (hb : b ≤ text.length) :
    Ensures Never (slice text a b) fun bytes => (Arg.str bytes).Within text := by
  rw [slice_ok hab hb]
  exact (List.drop_suffix _ _).isInfix.trans (List.take_prefix _ _).isInfix

theorem CaptureValue.arg_ensures {cap : CaptureValue} (h : cap.Within text) :
    Ensures Never (cap.arg text) (Arg.Within text) := by
  cases cap with
  | substring start stop => exact (slice_within h.1 h.2).bind fun bytes hb => hb
  | position p => exact h

theorem captureArgs_ensures {caps : List CaptureValue} (h : ∀ cap ∈ caps, cap.Within text) :
    Ensures Never (caps.mapM (CaptureValue.arg text)) fun args => ∀ a ∈ args, a.Within text :=
  Ensures.mapM fun cap hcap => CaptureValue.arg_ensures (h cap hcap)

theorem matchArgs_ensures {init : ℕ} {m : MatchInfo} (h : m.Within text init) :
    Ensures Never (matchArgs text m) fun args => ∀ a ∈ args, a.Within text := by
  rw [matchArgs]
  split
  · exact (slice_within h.span h.stop).bind fun bytes hb => List.forall_mem_singleton.mpr hb
  · exact captureArgs_ensures h.captures

theorem strFind_ensures (text pat : List UInt8) (init : ℕ) :
    Ensures Raised (strFind text pat init) fun r =>
      ∀ p ∈ r, 1 ≤ p.1 ∧ p.1 ≤ p.2.1 + 1 ∧ p.2.1 ≤ text.length ∧ ∀ a ∈ p.2.2, a.Within text := by
  rw [strFind]
  refine (find_ensures text pat _).bind fun r hr => ?_
  match r, hr with
  | none, _ =>
    intro p hp
    cases hp
  | some m, hr =>
    have hm := hr m rfl
    refine (Never.weaken (captureArgs_ensures hm.captures)).bind fun caps hcaps => ?_
    intro p hp
    cases hp
    exact ⟨Nat.succ_pos _, Nat.succ_le_succ hm.span, hm.stop, hcaps⟩

theorem strMatch_ensures (text pat : List UInt8) (init : ℕ) :
    Ensures Raised (strMatch text pat init) fun r => ∀ args ∈ r, ∀ a ∈ args, a.Within text := by
  rw [strMatch]
  refine (find_ensures text pat _).bind fun r hr => ?_
  match r, hr with
  | none, _ =>
    intro args h
    cases h
  | some m, hr =>
    refine (Never.weaken (matchArgs_ensures (hr m rfl))).bind fun args hargs => ?_
    intro args' h
    cases h
    exact hargs

/-- The iterator never fails, and where it yields a match its position grows. -/
theorem gmatchIter_ensures (text pat : List UInt8) (pos : ℕ) :
    Ensures Never (gmatchIter text pat pos) fun r =>
      ∀ args ∈ r.1, pos < r.2 ∧ r.2 ≤ text.length + 2 ∧ ∀ a ∈ args, a.Within text := by
  have hfind := find_ensures text pat (pos - 1)
  rw [gmatchIter]
  match h : find text pat (pos - 1), hfind with
  | .ok none, _ =>
    intro args h
    cases h
  | .error (.raise e), _ =>
    intro args h
    cases h
  | .error (.fault f), hf => exact hf
  | .ok (some m), hf =>
    have hm := hf m rfl
    refine (matchArgs_ensures hm).bind fun args hargs => ?_
    intro args' h
    cases h
    have h1 := hm.start
    have h2 := hm.span
    have h3 := hm.stop
    dsimp only
    split
    · exact ⟨by omega, by omega, hargs⟩
    · exact ⟨by omega, by omega, hargs⟩

/-! ### Substitution -/

/-- Replacing a match needs only that the match lies in the text. -/
theorem gsubPiece_ensures {stop : ℕ} {ms : MatchState} (hs : si ≤ stop) (hstop : stop ≤ text.length)
    (hms : CapturesOk stop ms.captures) : Ensures Raised (gsubPiece text repl si stop ms) fun _ => True := by
  rw [gsubPiece]
  split
  · rw [slice_ok hs hstop, ok_bind, substituteCapturesBytes]
    refine substitute_ensures trivial (fun d => ?_) repl
    dsimp only
    split
    · trivial
    · split
      · next hn =>
        have hlt : (d - ch '0').toNat - 1 < ms.captures.length := by omega
        have hmem := List.getElem_mem hlt
        rw [List.getElem?_eq_getElem hlt]
        generalize ms.captures[(d - ch '0').toNat - 1] = cap at hmem
        obtain ⟨start, len⟩ := cap
        cases len with
        | len l =>
          have hl : start + l ≤ stop := hms.upto _ hmem
          dsimp only
          rw [slice_ok (Nat.le_add_right _ _) (hl.trans hstop)]
          trivial
        | position => trivial
        | unfinished => trivial
      · split
        · trivial
        · trivial
  · trivial

theorem copyByte_ensures {lastByteEnd : ℕ} {r : Subst} (hl : lastByteEnd ≤ si) :
    Ensures Never (copyByte text si lastByteEnd r) fun p =>
      p.2 ≤ si + 1 ∧ (lastByteEnd ≤ text.length → p.2 ≤ text.length) := by
  rw [copyByte]
  split
  · next hsi => exact (byteAt_ensures hsi).bind fun c _ => ⟨le_rfl, fun _ => hsi⟩
  · exact ⟨by omega, id⟩

theorem gsubLoop_ensures (h : Wf pat (patStart pat)) (n si : ℕ) (lastNonempty : Bool) (lastByteEnd : ℕ) (r : Subst)
    (h0 : 0 < n) (hn : text.length + 1 < n + si) (hl : lastByteEnd ≤ si) (hle : lastByteEnd ≤ text.length) :
    Ensures Raised (gsubLoop text pat repl max n si lastNonempty lastByteEnd r) fun p => p.2 ≤ text.length := by
  induction n generalizing si lastNonempty lastByteEnd r with
  | zero => cases h0
  | succ n ih =>
    rw [gsubLoop]
    split
    · exact hle
    · next hgo =>
      have hsi : si ≤ text.length := by
        rw [not_or] at hgo
        exact Nat.not_lt.mp hgo.1
      refine (attempt_ensures h hsi).bind fun a ha => ?_
      match a, ha with
      | some (stop, ms), ha =>
        obtain ⟨hs, hstop, hms⟩ := ha _ rfl
        dsimp only at hs hstop hms ⊢
        split
        · refine (Never.weaken (copyByte_ensures hl)).bind fun p hp => ?_
          exact ih _ _ _ _ (by omega) (by omega) hp.1 (hp.2 hle)
        · rw [slice_ok hl hsi, ok_bind]
          refine (gsubPiece_ensures hs hstop hms).bind fun piece _ => ?_
          split
          · next heq =>
            refine (Never.weaken (copyByte_ensures heq.le)).bind fun p hp => ?_
            exact ih _ _ _ _ (by omega) (by omega) hp.1 (hp.2 hstop)
          · exact ih _ _ _ _ (by omega) (by omega) le_rfl hstop
      | none, _ =>
        dsimp only
        split
        · exact hle
        · next hnot =>
          simp only [Bool.or_eq_true, decide_eq_true_eq, not_or] at hnot
          exact ih _ _ _ _ (by omega) (by omega) (by omega) hle

theorem gsub_ensures (text pat repl : List UInt8) (max : Option ℕ) :
    Ensures Raised (gsub text pat repl max) fun _ => True := by
  rw [gsub]
  split
  · next hplain =>
    exact gsubPlain_ensures trivial (fun _ => trivial) hplain.2
  · rw [gsubMatch]
    refine (validatePattern_ensures pat).bind fun _ h => ?_
    exact (gsubLoop_ensures h _ 0 _ _ _ (by omega) (by omega) le_rfl (Nat.zero_le _)).bind fun p hp => copyRest_ensures hp

section Find
variable {piece : ℕ → MatchInfo → Except Stop (List UInt8)}
  (hpiece : ∀ i m, m.Within text 0 → Ensures Raised (piece i m) fun _ => True)
include hpiece

theorem gsubFindLoop_ensures (n pos : ℕ) (r : Subst) (hpos : pos ≤ text.length) (hn : text.length < n + pos) :
    Ensures Raised (gsubFindLoop text pat max piece n pos r) fun p => p.2 ≤ text.length := by
  induction n generalizing pos r with
  | zero => omega
  | succ n ih =>
    rw [gsubFindLoop]
    split
    · exact hpos
    · refine (find_ensures text pat pos).bind fun f hf => ?_
      match f, hf with
      | none, _ => exact hpos
      | some m, hf =>
        have hm := hf m rfl
        have h1 := hm.start
        have h2 := hm.span
        have h3 := hm.stop
        dsimp only
        rw [slice_ok hm.start (hm.span.trans hm.stop), ok_bind]
        refine (hpiece _ m ⟨Nat.zero_le _, hm.span, hm.stop, hm.captures⟩).bind fun bytes _ => ?_
        split
        · split
          · exact hpos
          · next hend =>
            refine (Never.weaken (byteAt_ensures (by omega))).bind fun c _ => ?_
            exact ih _ _ (by omega) (by omega)
        · exact ih _ _ (by omega) (by omega)

theorem gsubFind_ensures : Ensures Raised (gsubFind text pat max piece) fun _ => True := by
  rw [gsubFind]
  exact (gsubFindLoop_ensures hpiece _ 0 _ (Nat.zero_le _) (by omega)).bind fun p hp => copyRest_ensures hp

end Find

theorem gsubFn_ensures (text pat : List UInt8) (max : Option ℕ) {call : ℕ → List Arg → Except Stop ReplValue}
    (hcall : ∀ i args, (∀ a ∈ args, a.Within text) → Ensures Raised (call i args) fun _ => True) :
    Ensures Raised (gsubFn text pat max call) fun _ => True := by
  refine gsubFind_ensures fun i m hm => ?_
  rw [fnPiece]
  refine (Never.weaken (matchArgs_ensures hm)).bind fun args hargs => (hcall i args hargs).bind fun v _ => ?_
  cases v with
  | nil | false =>
    dsimp only
    rw [slice_ok hm.span hm.stop]
    trivial
  | str bytes => trivial
  | num g14 => trivial
  | other typeName tostring => trivial

theorem tabKey_ensures {init : ℕ} {m : MatchInfo} (h : m.Within text init) :
    Ensures Never (tabKey text m) (Arg.Within text) := by
  rw [tabKey]
  split
  · next cap caps heq => exact CaptureValue.arg_ensures (h.captures cap (by rw [heq]; exact List.mem_cons_self ..))
  · exact (slice_within h.span h.stop).bind fun bytes hb => hb

theorem gsubTab_ensures (text pat : List UInt8) (max : Option ℕ) {get : ℕ → Arg → Except Stop ReplValue}
    (hget : ∀ i key, key.Within text → Ensures Raised (get i key) fun _ => True) :
    Ensures Raised (gsubTab text pat max get) fun _ => True := by
  refine gsubFind_ensures fun i m hm => ?_
  rw [tabPiece]
  refine (Never.weaken (tabKey_ensures hm)).bind fun key hkey => (hget i key hkey).bind fun v _ => ?_
  cases v with
  | nil | false =>
    dsimp only
    rw [slice_ok hm.span hm.stop]
    trivial
  | str bytes => trivial
  | num g14 => trivial
  | other typeName tostring => trivial

/-! ### Safety -/

/-- No operation on an accepted pattern faults. The matcher returns; the operations return or raise an error, every
capture they return or hand to a replacement lies in the text, and the iterator of `gmatch` makes progress. -/
theorem operations_safe (text : List UInt8) (hpat : validatePattern pat = .ok ()) :
    (∀ n si, si ≤ text.length →
      Ensures Never (matchImpl text pat n si (patStart pat) .reset) (Outcome text si .reset)) ∧
    (∀ init, Ensures Raised (find text pat init) (FoundWithin text init)) ∧
    (∀ init, Ensures Raised (findAssumeValid text pat init) (FoundWithin text init)) ∧
    (∀ init max, Ensures Raised (findAllMatches text pat init max) fun ms => ∀ m ∈ ms, m.Within text init) ∧
    (∀ init, Ensures Raised (strFind text pat init) fun r =>
      ∀ p ∈ r, 1 ≤ p.1 ∧ p.1 ≤ p.2.1 + 1 ∧ p.2.1 ≤ text.length ∧ ∀ a ∈ p.2.2, a.Within text) ∧
    (∀ init, Ensures Raised (strMatch text pat init) fun r => ∀ args ∈ r, ∀ a ∈ args, a.Within text) ∧
    (∀ pos, Ensures Never (gmatchIter text pat pos) fun r =>
      ∀ args ∈ r.1, pos < r.2 ∧ r.2 ≤ text.length + 2 ∧ ∀ a ∈ args, a.Within text) ∧
    (∀ repl max, Ensures Raised (gsub text pat repl max) fun _ => True) ∧
    (∀ max call, (∀ i args, (∀ a ∈ args, a.Within text) → Ensures Raised (call i args) fun _ => True) →
      Ensures Raised (gsubFn text pat max call) fun _ => True) ∧
    (∀ max get, (∀ i key, key.Within text → Ensures Raised (get i key) fun _ => True) →
      Ensures Raised (gsubTab text pat max get) fun _ => True) := by
  have hw := wf_of_validatePattern hpat
  refine ⟨fun n si hsi => ?_, find_ensures text pat, findAssumeValid_ensures hw, findAllMatches_ensures text pat,
    strFind_ensures text pat, strMatch_ensures text pat, gmatchIter_ensures text pat, gsub_ensures text pat,
    fun max call hcall => gsubFn_ensures text pat max hcall, fun max get hget => gsubTab_ensures text pat max hget⟩
  exact matchImpl_ensures n _ hw si .reset hsi ⟨Nat.zero_le _, fun _ h => nomatch h⟩

/-- The pattern `%f[]b]()` on the text `ab`. -/
theorem operations_safe_frontier :
    Ensures Raised (strFind [97, 98] [37, 102, 91, 93, 98, 93, 40, 41] 1) fun r =>
      ∀ p ∈ r, 1 ≤ p.1 ∧ p.1 ≤ p.2.1 + 1 ∧ p.2.1 ≤ 2 ∧ ∀ a ∈ p.2.2, a.Within [97, 98] :=
  (operations_safe [97, 98] (show validatePattern [37, 102, 91, 93, 98, 93, 40, 41] = .ok () from rfl)).2.2.2.2.1 1

end LuajitRs.Pattern
