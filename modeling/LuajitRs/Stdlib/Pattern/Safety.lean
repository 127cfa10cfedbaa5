import LuajitRs.Stdlib.Pattern.Validate
import LuajitRs.Stdlib.Pattern.Gsub

/-! The matcher on a well-formed pattern: every index is in bounds, every loop and recursion ends, and the captures
of a match lie in the text up to its end. -/
namespace LuajitRs.Pattern

open Lib

variable {text pat : List UInt8} {c : UInt8} {si pp rp n min count : ℕ} {call : Matcher} {ms : MatchState}

/-! ### Single items -/

theorem matchsetItems_ensures (n i : ℕ) (matched : Bool) (h0 : 0 < n) (hn : pat.length < n + i) :
    Ensures Never (matchsetItems c pat n i matched) fun _ => True := by
  induction n generalizing i matched with
  | zero => cases h0
  | succ n ih =>
    rw [matchsetItems]
    by_cases hi : i < pat.length
    · rw [if_pos hi]
      refine (byteAt_ensures hi).bind fun p _ => ?_
      split
      · trivial
      · split
        · next hesc => exact (byteAt_ensures hesc.2).bind fun cl _ => ih _ _ (by omega) (by omega)
        · split
          · next hi2 =>
            refine (byteAt_ensures (by omega)).bind fun dash _ => ?_
            refine (byteAt_ensures hi2).bind fun hi _ => ?_
            split
            · exact ih _ _ (by omega) (by omega)
            · exact ih _ _ (by omega) (by omega)
          · exact ih _ _ (by omega) (by omega)
    · rw [if_neg hi]
      trivial

theorem matchset_ensures (c : UInt8) (pat : List UInt8) (pp : ℕ) :
    Ensures Never (matchset c pat pp) fun _ => True := by
  have hitems (i : ℕ) (matched negated : Bool) :
      Ensures Never (do let b ← matchsetItems c pat (pat.length + 1) i matched; pure (b != negated)) fun _ => True :=
    (matchsetItems_ensures _ _ _ (Nat.succ_pos _) (by omega)).bind fun _ _ => trivial
  simp only [matchset, hasByte_eq, ok_bind]
  split
  all_goals
    split
    · exact hitems _ _ _
    · exact hitems _ _ _

/-- A single item can be read at `pp`. -/
def Readable (pat : List UInt8) (pp : ℕ) : Prop :=
  pp < pat.length ∧ (pat[pp]? = some (ch '%') → pp + 1 < pat.length)

theorem Wf.readable (h : Wf pat pp) (hpp : pp < pat.length) : Readable pat pp := ⟨hpp, h.escape_lt⟩

theorem singlematch_ensures (h : Readable pat pp) : Ensures Never (singlematch c pat pp) fun _ => True := by
  rw [singlematch]
  refine (byteAt_ensures h.1).bind fun p hp => ?_
  split
  · trivial
  · split
    · next hesc =>
      subst hesc
      exact (byteAt_ensures (h.2 hp)).bind fun _ _ => trivial
    · split
      · exact matchset_ensures c pat pp
      · trivial

theorem matchesHere_ensures (h : Readable pat pp) :
    Ensures Never (matchesHere text pat si pp) fun b => b = true → si < text.length := by
  rw [matchesHere]
  split
  · next hsi => exact (byteAt_ensures hsi).bind fun _ _ => (singlematch_ensures h).mono fun _ _ _ => hsi
  · intro h
    cases h

theorem advanceWhile_ensures {p : UInt8 → Except Stop Bool} (hp : ∀ c, Ensures Never (p c) fun _ => True) (n i : ℕ)
    (hn : text.length < n + i) (hi : i ≤ text.length) :
    Ensures Never (advanceWhile text p n i) fun j => i ≤ j ∧ j ≤ text.length := by
  induction n generalizing i with
  | zero => omega
  | succ n ih =>
    rw [advanceWhile]
    by_cases hlt : i < text.length
    · rw [if_pos hlt]
      refine (byteAt_ensures hlt).bind fun c _ => (hp c).bind fun b _ => ?_
      split
      · exact (ih (i + 1) (by omega) hlt).mono fun j hj => ⟨by omega, hj.2⟩
      · exact ⟨le_rfl, hi⟩
    · rw [if_neg hlt]
      exact ⟨le_rfl, hi⟩

theorem countMaxRepetition_ensures (h : Readable pat pp) (hsi : si ≤ text.length) :
    Ensures Never (countMaxRepetition text pat si pp) fun count => si + count ≤ text.length := by
  have hcount {p : UInt8 → Except Stop Bool} (hp : ∀ c, Ensures Never (p c) fun _ => True) :
      Ensures Never (do let i ← advanceWhile text p (text.length + 1) si; pure (i - si))
        fun count => si + count ≤ text.length :=
    (advanceWhile_ensures hp _ _ (by omega) hsi).bind fun i hi => by
      show si + (i - si) ≤ text.length
      omega
  rw [countMaxRepetition]
  split
  · show si + 0 ≤ text.length
    omega
  · refine (byteAt_ensures h.1).bind fun p _ => ?_
    split
    · show si + (text.length - si) ≤ text.length
      omega
    · split
      · next hesc =>
        refine (byteAt_ensures hesc.2).bind fun cl _ => ?_
        split
        · exact hcount fun _ => trivial
        · exact hcount fun _ => trivial
      · split
        · exact hcount fun c => singlematch_ensures h
        · exact hcount fun _ => trivial

/-! ### Captures -/

/-- The end of the text that a capture covers so far. -/
def Capture.stop (cap : Capture) : ℕ :=
  match cap.len with
  | .len n => cap.start + n
  | _ => cap.start

theorem Capture.start_le_stop (cap : Capture) : cap.start ≤ cap.stop := by
  unfold Capture.stop
  split <;> omega

/-- At `si`, there are at most 32 captures, and none goes beyond `si`. -/
structure CapturesOk (si : ℕ) (captures : List Capture) : Prop where
  count : captures.length ≤ LUA_MAXCAPTURES
  upto : ∀ cap ∈ captures, cap.stop ≤ si

theorem CapturesOk.mono {captures : List Capture} {sj : ℕ} (h : CapturesOk si captures) (hs : si ≤ sj) :
    CapturesOk sj captures :=
  ⟨h.count, fun cap hcap => (h.upto cap hcap).trans hs⟩

theorem CapturesOk.push {captures : List Capture} {cap : Capture} (h : CapturesOk si captures)
    (hn : captures.length < LUA_MAXCAPTURES) (hcap : cap.stop ≤ si) : CapturesOk si (captures ++ [cap]) := by
  refine ⟨?_, fun d hd => ?_⟩
  · rw [List.length_append]
    exact hn
  · cases List.mem_append.mp hd with
    | inl hd => exact h.upto d hd
    | inr hd =>
      rw [List.mem_singleton.mp hd]
      exact hcap

theorem CapturesOk.set {captures : List Capture} {cap : Capture} (h : CapturesOk si captures) (i : ℕ)
    (hcap : cap.stop ≤ si) : CapturesOk si (captures.set i cap) := by
  refine ⟨?_, fun d hd => ?_⟩
  · rw [List.length_set]
    exact h.count
  · cases List.mem_or_eq_of_mem_set hd with
    | inl hd => exact h.upto d hd
    | inr hd =>
      rw [hd]
      exact hcap

/-- What a match call at `si` yields: an end behind `si` with captures up to it, or the captures it was given. -/
def Outcome (text : List UInt8) (si : ℕ) (ms : MatchState) (r : Option ℕ × MatchState) : Prop :=
  match r.1 with
  | some stop => si ≤ stop ∧ stop ≤ text.length ∧ CapturesOk stop r.2.captures
  | none => r.2.captures = ms.captures

theorem Outcome.from_later {sj : ℕ} {ms' : MatchState} {r : Option ℕ × MatchState} (h : Outcome text sj ms' r)
    (hs : si ≤ sj) (hms : ms'.captures = ms.captures) : Outcome text si ms r := by
  unfold Outcome at h ⊢
  split at h
  · exact ⟨hs.trans h.1, h.2⟩
  · exact h.trans hms

/-- A matcher keeps the invariant of the captures from `pp` on. -/
def Sound (text : List UInt8) (call : Matcher) (pp : ℕ) : Prop :=
  ∀ si ms, si ≤ text.length → CapturesOk si ms.captures →
    Ensures Never (call si pp ms) (Outcome text si ms)

/-! ### Repetitions -/

theorem greedyFrom_ensures (hcall : Sound text call rp) (count : ℕ) (ms : MatchState)
    (hsi : si + count ≤ text.length) (hms : CapturesOk si ms.captures) :
    Ensures Never (greedyFrom call si rp min count ms) (Outcome text si ms) := by
  induction count generalizing ms with
  | zero =>
    rw [greedyFrom]
    split
    · exact hcall si ms hsi hms
    · exact rfl
  | succ count ih =>
    rw [greedyFrom]
    split
    · refine (hcall _ ms hsi (hms.mono (by omega))).bind fun r hr => ?_
      obtain ⟨r, ms'⟩ := r
      cases r with
      | some stop => exact hr.from_later (by omega) rfl
      | none =>
        have heq : ms'.captures = ms.captures := hr
        exact (ih ms' (by omega) (by rw [heq]; exact hms)).mono fun _ h => h.from_later le_rfl heq
    · exact rfl

theorem matchGreedy_ensures (h : Readable pat pp) (hcall : Sound text call rp) (hsi : si ≤ text.length)
    (hms : CapturesOk si ms.captures) :
    Ensures Never (matchGreedy text pat call min si pp rp ms) (Outcome text si ms) :=
  (countMaxRepetition_ensures h hsi).bind fun _ hcount => greedyFrom_ensures hcall _ ms hcount hms

theorem lazyFrom_ensures (h : Readable pat pp) (hcall : Sound text call rp) (n i : ℕ) (ms : MatchState)
    (hn : text.length < n + i) (hi : i ≤ text.length) (hms : CapturesOk i ms.captures) :
    Ensures Never (lazyFrom text pat call pp rp n i ms) (Outcome text i ms) := by
  induction n generalizing i ms with
  | zero => omega
  | succ n ih =>
    rw [lazyFrom]
    refine (hcall i ms hi hms).bind fun r hr => ?_
    obtain ⟨r, ms'⟩ := r
    cases r with
    | some stop => exact hr
    | none =>
      have heq : ms'.captures = ms.captures := hr
      refine (matchesHere_ensures h).bind fun b hb => ?_
      split
      · next hb' =>
        have hlt := hb hb'
        exact (ih (i + 1) ms' (by omega) hlt (by rw [heq]; exact hms.mono (by omega))).mono
          fun _ h => h.from_later (by omega) heq
      · exact heq

theorem matchOptional_ensures (h : Readable pat pp) (hcall : Sound text call rp) (hsi : si ≤ text.length)
    (hms : CapturesOk si ms.captures) :
    Ensures Never (matchOptional text pat call si pp rp ms) (Outcome text si ms) := by
  rw [matchOptional]
  refine (matchesHere_ensures h).bind fun b hb => ?_
  split
  · next hb' =>
    refine (hcall _ ms (hb hb') (hms.mono (by omega))).bind fun r hr => ?_
    obtain ⟨r, ms'⟩ := r
    cases r with
    | some stop => exact hr.from_later (by omega) rfl
    | none =>
      have heq : ms'.captures = ms.captures := hr
      exact (hcall si ms' hsi (by rw [heq]; exact hms)).mono fun _ h => h.from_later le_rfl heq
  · exact hcall si ms hsi hms

/-! ### Captures, balanced text, frontiers and back references -/

theorem openCapture_ensures {len : CaptureLen} (hlen : ∀ n, len ≠ .len n) (hcall : Sound text call pp)
    (hsi : si ≤ text.length) (hms : CapturesOk si ms.captures) :
    Ensures Never (openCapture call len si pp ms) (Outcome text si ms) := by
  rw [openCapture]
  split
  · exact rfl
  · next hn =>
    have hstop : Capture.stop ⟨si, len⟩ ≤ si := by
      cases len with
      | len n => exact absurd rfl (hlen n)
      | position => exact le_rfl
      | unfinished => exact le_rfl
    refine (hcall si _ hsi (hms.push (Nat.not_le.mp hn) hstop)).bind fun r hr => ?_
    obtain ⟨r, ms'⟩ := r
    cases r with
    | some stop => exact hr
    | none =>
      have heq : ms'.captures = ms.captures ++ [⟨si, len⟩] := hr
      show ms'.captures.take ms.captures.length = ms.captures
      rw [heq, List.take_left]

theorem lastUnfinished_ensures (captures : List Capture) (n : ℕ) (hn : n ≤ captures.length) :
    Ensures Never (lastUnfinished captures n) fun r =>
      ∀ k cap, r = some (k, cap) → captures[k]? = some cap ∧ cap.len = .unfinished := by
  induction n with
  | zero =>
    rw [lastUnfinished]
    intro k cap h
    cases h
  | succ n ih =>
    rw [lastUnfinished, List.getElem?_eq_getElem hn]
    dsimp only
    split
    · next hun =>
      intro k cap h
      cases h
      exact ⟨List.getElem?_eq_getElem hn, hun⟩
    · exact ih (by omega)

theorem matchCloseCapture_ensures (hcall : Sound text call pp) (hsi : si ≤ text.length)
    (hms : CapturesOk si ms.captures) :
    Ensures Never (matchCloseCapture call si pp ms) (Outcome text si ms) := by
  rw [matchCloseCapture]
  refine (lastUnfinished_ensures ms.captures _ le_rfl).bind fun r hr => ?_
  match r, hr with
  | none, _ => exact rfl
  | some (k, cap), hr =>
    obtain ⟨hk, hun⟩ := hr k cap rfl
    have hstart : cap.start ≤ si := cap.start_le_stop.trans (hms.upto cap (List.mem_of_getElem? hk))
    dsimp only
    rw [if_neg (Nat.not_lt.mpr hstart)]
    have hclosed : Capture.stop { cap with len := .len (si - cap.start) } ≤ si := by
      show cap.start + (si - cap.start) ≤ si
      omega
    refine (hcall si _ hsi (hms.set k hclosed)).bind fun r hr => ?_
    obtain ⟨r, ms'⟩ := r
    cases r with
    | some stop => exact hr
    | none =>
      have heq : ms'.captures = ms.captures.set k { cap with len := .len (si - cap.start) } := hr
      have hundo : { cap with len := CaptureLen.unfinished } = cap := by
        rw [← hun]
      show ms'.captures.modify k (fun c => { c with len := .unfinished }) = ms.captures
      rw [heq]
      apply List.ext_getElem?
      intro i
      rw [List.getElem?_modify, List.getElem?_set]
      by_cases hki : k = i
      · subst hki
        rw [if_pos rfl, if_pos (lt_length_of_getElem? hk), hk]
        simp [hundo]
      · simp [hki]

theorem balancedFrom_ensures (opening closing : UInt8) (n i : ℕ) (depth : ℤ) (hn : text.length < n + i)
    (hi : i ≤ text.length) :
    Ensures Never (balancedFrom text opening closing n i depth) fun r => i ≤ r.1 ∧ r.1 ≤ text.length := by
  induction n generalizing i depth with
  | zero => omega
  | succ n ih =>
    rw [balancedFrom]
    split
    · next h =>
      have hnext (depth : ℤ) : Ensures Never (balancedFrom text opening closing n (i + 1) depth)
          fun r => i ≤ r.1 ∧ r.1 ≤ text.length :=
        (ih (i + 1) depth (by omega) h.1).mono fun r hr => ⟨by omega, hr.2⟩
      refine (byteAt_ensures h.1).bind fun c _ => ?_
      split
      · exact hnext _
      · split
        · exact hnext _
        · exact hnext _
    · exact ⟨le_rfl, hi⟩

theorem matchBalanced_ensures (hcall : Sound text call (pp + 4))
    (hms : CapturesOk si ms.captures) :
    Ensures Never (matchBalanced text pat call si pp ms) (Outcome text si ms) := by
  rw [matchBalanced]
  split
  · exact rfl
  · next hpp =>
    refine (byteAt_ensures (by omega)).bind fun opening _ => ?_
    refine (byteAt_ensures (by omega)).bind fun closing _ => ?_
    split
    · next hlt =>
      refine (byteAt_ensures hlt).bind fun c _ => ?_
      split
      · refine (balancedFrom_ensures opening closing _ _ 1 (by omega) hlt).bind fun r hr => ?_
        obtain ⟨i, depth⟩ := r
        dsimp only at hr ⊢
        split
        · exact (hcall i ms hr.2 (hms.mono (by omega))).mono fun _ h => h.from_later (by omega) rfl
        · exact rfl
      · exact rfl
    · exact rfl

theorem prevChar_ensures (hsi : si ≤ text.length) : Ensures Never (prevChar text si) fun _ => True := by
  rw [prevChar]
  split
  · exact (byteAt_ensures (by omega)).mono fun _ _ => trivial
  · trivial

theorem currChar_ensures : Ensures Never (currChar text si) fun _ => True := by
  rw [currChar]
  split
  · next h => exact (byteAt_ensures h).mono fun _ _ => trivial
  · trivial

theorem matchFrontier_ensures {e : ℕ} (hend : elementEnd pat (pp + 2) = .ok e) (hread : Readable pat (pp + 2))
    (hcall : Sound text call e) (hsi : si ≤ text.length) (hms : CapturesOk si ms.captures) :
    Ensures Never (matchFrontier text pat call si pp ms) (Outcome text si ms) := by
  rw [matchFrontier, hasByte_eq, ok_bind, hend, ok_bind]
  split
  · refine (prevChar_ensures hsi).bind fun prev _ => currChar_ensures.bind fun curr _ => ?_
    refine (singlematch_ensures hread).bind fun prevMatches _ => ?_
    refine (singlematch_ensures hread).bind fun currMatches _ => ?_
    split
    · exact hcall si ms hsi hms
    · exact rfl
  · exact rfl

theorem sameBytes_ensures (n i j : ℕ) (hi : i + n ≤ text.length) (hj : j + n ≤ text.length) :
    Ensures Never (sameBytes text i j n) fun _ => True := by
  induction n generalizing i j with
  | zero => trivial
  | succ n ih =>
    rw [sameBytes]
    refine (byteAt_ensures (by omega)).bind fun a _ => (byteAt_ensures (by omega)).bind fun b _ => ?_
    split
    · exact ih _ _ (by omega) (by omega)
    · trivial

theorem matchBackref_ensures (hpp : pp + 1 < pat.length) (hcall : Sound text call (pp + 2))
    (hms : CapturesOk si ms.captures) :
    Ensures Never (matchBackref text pat call si pp ms) (Outcome text si ms) := by
  rw [matchBackref]
  refine (byteAt_ensures hpp).bind fun d _ => ?_
  dsimp only
  split
  · exact rfl
  · next hn =>
    have hlt : (d - ch '0').toNat - 1 < ms.captures.length := by omega
    have hmem := List.getElem_mem hlt
    rw [List.getElem?_eq_getElem hlt]
    generalize ms.captures[(d - ch '0').toNat - 1] = cap at hmem
    obtain ⟨start, len⟩ := cap
    cases len with
    | len l =>
      have hstop : start + l ≤ si := hms.upto _ hmem
      dsimp only
      split
      · exact rfl
      · next hfit =>
        refine (sameBytes_ensures l si start (by omega) (by omega)).bind fun b _ => ?_
        split
        · exact (hcall _ ms (by omega) (hms.mono (by omega))).mono fun _ h => h.from_later (by omega) rfl
        · exact rfl
    | position => exact rfl
    | unfinished => exact rfl

/-! ### The recursion -/

theorem suffixAt_ensures {e : ℕ} :
    Ensures Never (suffixAt pat e) fun suffix => ∀ c, suffix = some c → pat[e]? = some c := by
  rw [suffixAt]
  split
  · next he =>
    refine Ensures.map_iff.mpr ((byteAt_ensures he).mono fun c hc d hd => ?_)
    cases hd
    exact hc
  · intro c hc
    cases hc

theorem matchItem_ensures {next : Matcher} (h : Wf pat pp) (hpp : pp < pat.length)
    (hbf : pat[pp]? = some (ch '%') → pat[pp + 1]? ≠ some (ch 'b') ∧ pat[pp + 1]? ≠ some (ch 'f'))
    (hcall : ∀ e, Wf pat e → Sound text call e) (hnext : ∀ e, pp < e → Wf pat e → Sound text next e)
    (hsi : si ≤ text.length) (hms : CapturesOk si ms.captures) :
    Ensures Never (matchItem text pat call next si pp ms) (Outcome text si ms) := by
  obtain ⟨e, hend, hlt, hle, hw⟩ := h.elementEnd_ok hpp hbf
  have hread := h.readable hpp
  rw [matchItem, hend, ok_bind]
  refine suffixAt_ensures.bind fun suffix hs => ?_
  have hrest {c : UInt8} (hc : suffix = some c) (hrep : isRepetition c = true) : Sound text call (e + 1) :=
    hcall _ (hw.repetition (hs c hc) hrep)
  split
  · next hc => exact matchGreedy_ensures hread (hrest hc rfl) hsi hms
  · split
    · next hc => exact matchGreedy_ensures hread (hrest hc rfl) hsi hms
    · split
      · next hc => exact lazyFrom_ensures hread (hrest hc rfl) _ _ ms (by omega) hsi hms
      · split
        · next hc => exact matchOptional_ensures hread (hrest hc rfl) hsi hms
        · refine (matchesHere_ensures hread).bind fun b hb => ?_
          split
          · next hb' =>
            exact (hnext e hlt hw _ ms (hb hb') (hms.mono (by omega))).mono fun _ h => h.from_later (by omega) rfl
          · exact rfl

theorem matchInner_ensures (hcall : ∀ e, Wf pat e → Sound text call e) (n pp : ℕ) (h0 : 0 < n)
    (hn : pat.length < n + pp) (h : Wf pat pp) : Sound text (matchInner text pat call n) pp := by
  induction n generalizing pp with
  | zero => cases h0
  | succ n ih =>
    intro si ms hsi hms
    rw [matchInner]
    by_cases hpp : pat.length ≤ pp
    · rw [if_pos hpp]
      exact ⟨le_rfl, hsi, hms⟩
    · have hlt : pp < pat.length := Nat.not_le.mp hpp
      rw [if_neg hpp]
      have hnext (e : ℕ) (he : pp < e) (hw : Wf pat e) : Sound text (matchInner text pat call n) e :=
        ih e (by omega) (by omega) hw
      refine (byteAt_ensures hlt).bind fun p hp => ?_
      split
      · next hopen =>
        subst hopen
        have hw := h.byte hp (by decide) (by decide)
        rw [hasByte_eq, ok_bind]
        split
        · next hclose =>
          have hw2 := hw.byte (of_decide_eq_true hclose) (by decide) (by decide)
          exact openCapture_ensures (fun n h => nomatch h) (hcall _ hw2) hsi hms
        · exact openCapture_ensures (fun n h => nomatch h) (hcall _ hw) hsi hms
      · split
        · next hclose =>
          subst hclose
          exact matchCloseCapture_ensures (hcall _ (h.byte hp (by decide) (by decide))) hsi hms
        · split
          · split
            · exact ⟨le_rfl, hsi, hms⟩
            · exact rfl
          · split
            · next hesc =>
              obtain ⟨rfl, hl⟩ := hesc
              refine (byteAt_ensures hl).bind fun cl hcl => ?_
              split
              · next hb =>
                subst hb
                exact matchBalanced_ensures (hcall _ (h.balanced hp hcl).2) hms
              · next hb =>
                split
                · next hf =>
                  subst hf
                  obtain ⟨hs, e, he, hw⟩ := h.frontier hp hcl
                  have hread : Readable pat (pp + 2) := by
                    refine ⟨lt_length_of_getElem? hs, fun hesc => ?_⟩
                    rw [hs] at hesc
                    cases hesc
                  exact matchFrontier_ensures (elementEnd_set hs he) hread (hcall _ hw) hsi hms
                · next hf =>
                  have hw := h.escape hp hcl hb hf
                  split
                  · exact matchBackref_ensures hl (hcall _ hw) hms
                  · refine matchItem_ensures h hlt (fun _ => ?_) hcall hnext hsi hms
                    rw [hcl]
                    exact ⟨fun h => hb (Option.some.inj h), fun h => hf (Option.some.inj h)⟩
            · next hesc =>
              refine matchItem_ensures h hlt (fun hp' => ?_) hcall hnext hsi hms
              have hp' : p = ch '%' := Option.some.inj (hp.symm.trans hp')
              exact absurd ⟨hp', h.escape_lt (by rw [hp, hp'])⟩ hesc

/-- The matcher on a well-formed pattern. -/
theorem matchImpl_ensures (n pp : ℕ) (h : Wf pat pp) : Sound text (matchImpl text pat n) pp := by
  induction n generalizing pp with
  | zero =>
    intro si ms _ _
    rw [matchImpl]
    show (if ms.error.isSome then ms else ms.fail "pattern too complex").captures = ms.captures
    split <;> rfl
  | succ n ih =>
    intro si ms hsi hms
    rw [matchImpl]
    split
    · exact rfl
    · exact matchInner_ensures ih _ pp (Nat.succ_pos _) (by omega) h si ms hsi hms

end LuajitRs.Pattern
