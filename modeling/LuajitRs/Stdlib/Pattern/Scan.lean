import LuajitRs.Stdlib.Pattern.Operations
import LuajitRs.Stdlib.Pattern.FastPath

/-! The left-to-right scan of Lua 5.1 that a substitution follows: at every position where it stands the match there
is taken, an empty one too, and an anchored pattern is tried once. -/
namespace LuajitRs.Pattern

open Lib

variable {text pat repl : List UInt8} {max : Option ℕ} {n si count : ℕ} {spans : List (ℕ × ℕ)} {r : Subst}

/-- Where the scan stands after a match: behind it, and one byte further if it is empty. -/
def afterMatch (start stop : ℕ) : ℕ := if stop = start then start + 1 else stop

section Scan
variable (text pat : List UInt8) (max : Option ℕ)

/-- The spans visited from `si` on, after `count` of them. -/
def scanFrom : ℕ → ℕ → ℕ → Except Stop (List (ℕ × ℕ))
  | 0, _, _ => .error (.fault .diverge)
  | fuel+1, si, count => do
    if limitReached max count then pure []
    else
      match ← attempt text pat si with
      | some (stop, _) =>
        if anchored pat ∨ text.length < afterMatch si stop then pure [(si, stop)]
        else
          let spans ← scanFrom fuel (afterMatch si stop) (count + 1)
          pure ((si, stop) :: spans)
      | none => if anchored pat ∨ text.length < si + 1 then pure [] else scanFrom fuel (si + 1) count

/-- The text from `pos` on with `repl` in place of the spans. -/
def render (repl : List UInt8) : ℕ → List (ℕ × ℕ) → List UInt8
  | pos, [] => text.drop pos
  | pos, (start, stop) :: spans => (text.take start).drop pos ++ repl ++ render repl stop spans

/-- Replace the spans in the text from `pos` on. -/
def Subst.fill (repl : List UInt8) (pos : ℕ) (r : Subst) (spans : List (ℕ × ℕ)) : Subst :=
  ⟨r.out ++ render text repl pos spans, r.count + spans.length, r.visits ++ spans⟩

/-- `str_gsub` with a replacement that is used as it is. A pattern that is tried is an accepted one. -/
def strGsub (repl : List UInt8) : Except Stop Subst := do
  if limitReached max 0 then pure (Subst.start.fill text repl 0 [])
  else
    validatePattern pat
    let spans ← scanFrom text pat max (text.length + 1) 0 0
    pure (Subst.start.fill text repl 0 spans)

end Scan

/-! ### Rendering -/

theorem render_succ {pos : ℕ} {c : UInt8} (hc : text[pos]? = some c) (hspans : ∀ v ∈ spans, pos + 1 ≤ v.1) :
    render text repl pos spans = c :: render text repl (pos + 1) spans := by
  obtain ⟨hpos, rfl⟩ := List.getElem?_eq_some_iff.mp hc
  cases spans with
  | nil => exact List.drop_eq_getElem_cons hpos
  | cons v spans =>
    obtain ⟨start, stop⟩ := v
    have hlt : pos < start := hspans _ (List.mem_cons_self ..)
    have htake : pos < (text.take start).length := by
      rw [List.length_take]
      omega
    rw [render, render, List.drop_eq_getElem_cons htake, List.getElem_take]
    rfl

theorem fill_cons (pos start stop : ℕ) (r : Subst) (spans : List (ℕ × ℕ)) :
    r.fill text repl pos ((start, stop) :: spans) =
      ((r.push ((text.take start).drop pos)).replace (start, stop) repl).fill text repl stop spans := by
  simp only [Subst.fill, Subst.push, Subst.replace, render, List.length_cons, List.append_assoc, List.cons_append,
    List.nil_append, Nat.add_assoc, Nat.add_comm 1]

theorem fill_push {pos : ℕ} {c : UInt8} (hc : text[pos]? = some c) (hspans : ∀ v ∈ spans, pos + 1 ≤ v.1) :
    (r.push [c]).fill text repl (pos + 1) spans = r.fill text repl pos spans := by
  simp only [Subst.fill, Subst.push, render_succ hc hspans, List.append_assoc, List.cons_append, List.nil_append]

theorem copyRest_eq_fill {pos : ℕ} (hpos : pos ≤ text.length) (repl : List UInt8) :
    copyRest text (r, pos) = .ok (r.fill text repl pos []) := by
  rw [copyRest, slice_ok hpos le_rfl, ok_bind, List.take_length]
  simp [Subst.fill, Subst.push, render]

/-! ### What the scan visits -/

theorem scanFrom_bounds (h : Wf pat (patStart pat)) (n si count : ℕ) (hsi : si ≤ text.length) :
    Ensures (fun _ => True) (scanFrom text pat max n si count) fun spans =>
      ∀ v ∈ spans, si ≤ v.1 ∧ v.1 ≤ v.2 ∧ v.2 ≤ text.length := by
  induction n generalizing si count with
  | zero => trivial
  | succ n ih =>
    rw [scanFrom]
    split
    · exact fun v hv => nomatch hv
    · refine ((attempt_ensures h hsi).weaken fun _ _ => trivial).bind fun a ha => ?_
      match a, ha with
      | none, _ =>
        dsimp only
        split
        · exact fun v hv => nomatch hv
        · refine (ih (si + 1) count (by omega)).mono fun spans hspans v hv => ?_
          have := hspans v hv
          exact ⟨by omega, this.2⟩
      | some (stop, ms), ha =>
        have hm := ha _ rfl
        dsimp only at hm ⊢
        have hhead : si ≤ si ∧ si ≤ stop ∧ stop ≤ text.length := ⟨le_rfl, hm.1, hm.2.1⟩
        have hnext : si ≤ afterMatch si stop := by
          unfold afterMatch
          split <;> omega
        split
        · exact List.forall_mem_singleton.mpr hhead
        · refine (ih _ _ (by omega)).bind fun spans hspans => ?_
          refine List.forall_mem_cons.mpr ⟨hhead, fun v hv => ?_⟩
          have := hspans v hv
          exact ⟨hnext.trans this.1, this.2⟩

theorem le_of_mem_scanFrom (h : Wf pat (patStart pat)) (hsi : si ≤ text.length)
    (hs : scanFrom text pat max n si count = .ok spans) : ∀ v ∈ spans, si ≤ v.1 :=
  fun v hv => ((scanFrom_bounds h n si count hsi).of_ok hs v hv).1

/-! ### Steps of the scan -/

/-- What the matcher may report at `si`: an error, no match, an empty match, or a longer one. -/
theorem attempt_cases (h : Wf pat (patStart pat)) (hsi : si ≤ text.length) :
    (∃ e, attempt text pat si = .error e) ∨ attempt text pat si = .ok none ∨
      (∃ ms, attempt text pat si = .ok (some (si, ms))) ∨
      ∃ stop ms, si < stop ∧ stop ≤ text.length ∧ attempt text pat si = .ok (some (stop, ms)) := by
  have hatt := attempt_ensures h hsi
  cases ha : attempt text pat si with
  | error e => exact .inl ⟨e, rfl⟩
  | ok a =>
    rw [ha] at hatt
    match a, hatt with
    | none, _ => exact .inr (.inl rfl)
    | some (stop, ms), hatt =>
      obtain ⟨hs, hstop, -⟩ := hatt _ rfl
      by_cases heq : stop = si
      · subst heq
        exact .inr (.inr (.inl ⟨ms, rfl⟩))
      · exact .inr (.inr (.inr ⟨stop, ms, lt_of_le_of_ne hs (Ne.symm heq), hstop, rfl⟩))

@[simp] theorem afterMatch_self (si : ℕ) : afterMatch si si = si + 1 := if_pos rfl

theorem afterMatch_of_ne {stop : ℕ} (h : stop ≠ si) : afterMatch si stop = stop := if_neg h

section Steps
variable {stop : ℕ} {ms : MatchState}

theorem scanFrom_limit (h0 : 0 < n) (h : limitReached max count = true) : scanFrom text pat max n si count = .ok [] := by
  obtain ⟨n, rfl⟩ : ∃ k, n = k + 1 := ⟨n - 1, by omega⟩
  rw [scanFrom, if_pos h]
  rfl

variable (hlim : limitReached max count = false)
include hlim

theorem scanFrom_fails {e : Stop} (ha : attempt text pat si = .error e) :
    scanFrom text pat max (n + 1) si count = .error e := by
  rw [scanFrom, if_neg (by simp [hlim]), ha]
  rfl

theorem scanFrom_miss (hanch : anchored pat = false) (hsi : si < text.length) (ha : attempt text pat si = .ok none) :
    scanFrom text pat max (n + 1) si count = scanFrom text pat max n (si + 1) count := by
  rw [scanFrom, if_neg (by simp [hlim]), ha, ok_bind]
  dsimp only
  rw [if_neg]
  rw [hanch, not_or]
  exact ⟨Bool.false_ne_true, by omega⟩

theorem scanFrom_miss_end (hend : anchored pat = true ∨ text.length < si + 1) (ha : attempt text pat si = .ok none) :
    scanFrom text pat max (n + 1) si count = .ok [] := by
  rw [scanFrom, if_neg (by simp [hlim]), ha, ok_bind]
  dsimp only
  rw [if_pos hend]
  rfl

theorem scanFrom_skip (hanch : anchored pat = false) (si i : ℕ) (hi : si + i ≤ text.length)
    (hnone : ∀ j, si ≤ j → j < si + i → attempt text pat j = .ok none) :
    scanFrom text pat max (n + i) si count = scanFrom text pat max n (si + i) count := by
  induction i generalizing si with
  | zero => rfl
  | succ i ih =>
    rw [← Nat.add_assoc, scanFrom_miss hlim hanch (by omega) (hnone si le_rfl (by omega)),
      ih (si + 1) (by omega) fun j h1 h2 => hnone j (by omega) (by omega), Nat.add_assoc si, Nat.add_comm 1]

theorem scanFrom_hit (hanch : anchored pat = false) (hnext : afterMatch si stop ≤ text.length)
    (ha : attempt text pat si = .ok (some (stop, ms))) :
    scanFrom text pat max (n + 1) si count =
      scanFrom text pat max n (afterMatch si stop) (count + 1) >>= fun spans => pure ((si, stop) :: spans) := by
  rw [scanFrom, if_neg (by simp [hlim]), ha, ok_bind]
  dsimp only
  rw [if_neg]
  rw [hanch, not_or]
  exact ⟨Bool.false_ne_true, by omega⟩

theorem scanFrom_hit_end (hend : anchored pat = true ∨ text.length < afterMatch si stop)
    (ha : attempt text pat si = .ok (some (stop, ms))) :
    scanFrom text pat max (n + 1) si count = .ok [(si, stop)] := by
  rw [scanFrom, if_neg (by simp [hlim]), ha, ok_bind]
  dsimp only
  rw [if_pos hend]
  rfl

end Steps

end LuajitRs.Pattern
