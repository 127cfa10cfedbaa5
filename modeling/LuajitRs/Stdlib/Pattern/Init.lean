import LuajitRs.Stdlib.Pattern.FastPath
import LuajitRs.Stdlib.Pattern.Operations
import LuajitRs.Util.F64.Exact

/-! The start of a search: `string.find` counts a negative position from the end of the subject, also for its
plain search, and `string.match` does not. The plain search slices the subject without a check. -/
namespace LuajitRs

/-- `f64::max`. -/
def F64.fmax (x y : F64) : F64 := if x.isNaN then y else if y.isNaN then x else if x.lt y then y else x

namespace Pattern
open Lib

/-- The 1-based start that `string.find` takes from its argument. -/
def findInit (len : ℕ) (v : Option F64) : ℕ :=
  let n := v.getD (.ofInt 1)
  if n.lt (.ofInt 0) then ((((F64.ofInt len).add n).add (.ofInt 1)).fmax (.ofInt 1)).asU64.toNat
  else (n.fmax (.ofInt 1)).asU64.toNat

/-- The 1-based start that `string.match` takes. -/
def matchInit (v : Option F64) : ℕ :=
  match v with
  | some n => (n.fmax (.ofInt 1)).asU64.toNat
  | none => 1

section
variable (text pat : List UInt8)

/-- The search of `string.find` for the bytes themselves. Windows of no bytes are a panic. -/
def plainFind (init : ℕ) : Except Stop (Option (ℕ × ℕ × List Arg)) := do
  let rest ← slice text (init - 1) text.length
  if pat.length = 0 then .error (.fault .outOfBounds)
  else
    match (List.range (rest.length + 1 - pat.length)).find? fun i => (rest.drop i).take pat.length = pat with
    | some pos => pure (some (init + pos, init + pos + pat.length - 1, []))
    | none => pure none

def strFindAt (init : Option F64) (plain : Bool) : Except Stop (Option (ℕ × ℕ × List Arg)) :=
  if plain then plainFind text pat (findInit text.length init)
  else strFind text pat (findInit text.length init)

def strMatchAt (init : Option F64) : Except Stop (Option (List Arg)) := strMatch text pat (matchInit init)

/-! ### What is asked of them -/

/-- The 1-based start that an integer stands for; a negative one counts from the end. -/
def normInit (len : ℕ) (i : ℤ) : ℕ := (max 1 (if i < 0 then len + i + 1 else i)).toNat

/-- The leftmost occurrence from `q` on; from beyond the end nothing, or the empty pattern at the end. -/
def PlainLaw (q : ℕ) (r : Except Stop (Option (ℕ × ℕ × List Arg))) : Prop :=
  if q ≤ text.length + 1 then
    ∃ o, FirstOcc (text.drop (q - 1)) pat o ∧ r = .ok (o.map fun k => (q + k, q + k + pat.length - 1, []))
  else r = .ok none ∨ (pat = [] ∧ r = .ok (some (text.length + 1, text.length, [])))

/-- What `string.find` returns of a search. -/
def report (r : Except Stop (Option MatchInfo)) : Except Stop (Option (ℕ × ℕ × List Arg)) := do
  match ← r with
  | some m =>
    let caps ← m.captures.mapM (CaptureValue.arg text)
    pure (some (m.start + 1, m.stop, caps))
  | none => pure none

/-- What `string.match` returns of a search: the captures, or the whole match. -/
def returned (r : Except Stop (Option MatchInfo)) : Except Stop (Option (List Arg)) := do
  match ← r with
  | some m =>
    let args ← matchArgs text m
    pure (some args)
  | none => pure none

/-- `string.find` and `string.match` are about the same match. -/
def MatchLaw (init : Option F64) : Prop :=
  ∃ r, find text pat (findInit text.length init - 1) = r ∧ find text pat (matchInit init - 1) = r ∧
    strFindAt text pat init false = report text r ∧ strMatchAt text pat init = returned text r

/-- The first attempt from `i` on that does not just fail raises `e`. -/
def StopsWith (i : ℕ) (e : Stop) : Prop :=
  ∃ j, i ≤ j ∧ j ≤ text.length ∧ (∀ k, i ≤ k → k < j → attempt text pat k = .ok none) ∧
    attempt text pat j = .error e

/-- A search from the beginning comes to the same as one from `q`: nothing matches before, or both stop with the
same error. An anchored pattern is tried only where the search starts. -/
def SameFrom (q : ℕ) : Prop :=
  if isPlainPattern pat then ∀ j < q, ¬ pat <+: text.drop j
  else (∃ e, validatePattern pat = .error e) ∨
    if anchored pat then (attempt text pat 0 = .ok none ∧ attempt text pat q = .ok none) ∨
      ∃ e, attempt text pat 0 = .error e ∧ attempt text pat q = .error e
    else (∀ j < q, attempt text pat j = .ok none) ∨ ∃ e, StopsWith text pat 0 e ∧ StopsWith text pat q e

end

/-! ### The start -/

section Start
variable {len : ℕ} {i : ℤ}

theorem fmax_ofInt {a b : ℤ} (ha : a.natAbs < 2^53) (hb : b.natAbs < 2^53) :
    (F64.ofInt a).fmax (.ofInt b) = .ofInt (max a b) := by
  rw [F64.fmax, F64.isNaN_ofInt ha, F64.isNaN_ofInt hb, F64.lt_ofInt ha hb]
  by_cases hab : a < b
  · simp [hab, max_eq_right hab.le]
  · simp [hab, max_eq_left (not_lt.mp hab)]

theorem findInit_eq (hlen : len < 2^52) (hi : i.natAbs < 2^53) : findInit len (some (.ofInt i)) = normInit len i := by
  unfold findInit normInit
  dsimp only [Option.getD_some]
  rw [F64.lt_ofInt hi (by decide)]
  by_cases hneg : i < 0
  · rw [if_pos (by simpa using hneg), F64.add_ofInt_of_fits (by omega) hi (by omega),
      F64.add_ofInt_of_fits (by omega) (by decide) (by omega), fmax_ofInt (by omega) (by omega), F64.asU64_ofInt (by omega), if_pos hneg, max_comm]
  · rw [if_neg (by simpa using hneg), fmax_ofInt hi (by decide), F64.asU64_ofInt (by omega), if_neg hneg, max_comm]

theorem matchInit_eq (hi : i.natAbs < 2^53) : matchInit (some (.ofInt i)) = (max 1 i).toNat := by
  rw [matchInit, fmax_ofInt hi (by decide), F64.asU64_ofInt (by omega), max_comm]

end Start

/-! ### The plain search -/

section PlainSearch
variable {text pat : List UInt8} {q : ℕ}

/-- The first window that is the pattern. -/
theorem find_window (rest pat : List UInt8) : FirstOcc rest pat
    ((List.range (rest.length + 1 - pat.length)).find? fun i => (rest.drop i).take pat.length = pat) := by
  have hwindow : ∀ i, (rest.drop i).take pat.length = pat ↔ pat <+: rest.drop i := fun i => by
    rw [List.prefix_iff_eq_take, eq_comm]
  generalize hr : (List.range (rest.length + 1 - pat.length)).find?
    (fun i => decide ((rest.drop i).take pat.length = pat)) = r
  cases r with
  | none =>
    rw [List.find?_range_eq_none] at hr
    intro j hp
    have hlen := hp.length_le
    rw [List.length_drop] at hlen
    by_cases hj : j < rest.length + 1 - pat.length
    · have := hr j hj
      simp [(hwindow j).mpr hp] at this
    · have hnil : pat = [] := List.eq_nil_of_length_eq_zero (by omega)
      subst hnil
      have := hr 0 (by simp)
      simp at this
  | some i =>
    rw [List.find?_range_eq_some] at hr
    obtain ⟨hi, -, hbefore⟩ := hr
    refine ⟨(hwindow i).mp (by simpa using hi), fun j hj hp => ?_⟩
    have := hbefore j hj
    simp [(hwindow j).mpr hp] at this

theorem plainLaw_iff (hq : 1 ≤ q) : PlainLaw text pat q (plainFind text pat q) ↔ pat ≠ [] ∧ q ≤ text.length + 1 := by
  unfold PlainLaw
  by_cases hle : q ≤ text.length + 1
  · rw [if_pos hle, plainFind, slice_ok (by omega) le_rfl, ok_bind, List.take_length]
    by_cases hpat : pat = []
    · subst hpat
      exact ⟨fun ⟨_, _, he⟩ => by simp at he, fun hc => absurd rfl hc.1⟩
    · rw [if_neg (by simpa using hpat)]
      refine ⟨fun _ => ⟨hpat, hle⟩, fun _ => ⟨_, find_window (text.drop (q - 1)) pat, ?_⟩⟩
      cases (List.range ((text.drop (q - 1)).length + 1 - pat.length)).find?
        fun i => ((text.drop (q - 1)).drop i).take pat.length = pat <;> rfl
  · have hslice : slice text (q - 1) text.length = .error (.fault .outOfBounds) := if_neg (by omega)
    rw [if_neg hle, plainFind, hslice, error_bind]
    exact ⟨by simp, fun hc => absurd hc.2 hle⟩

end PlainSearch

/-! ### The search for a pattern -/

section Search
variable {text pat : List UInt8} {i n m : ℕ} {e : Stop}

theorem findLoop_fuel (hn : text.length < n + i) (hm : text.length < m + i) (hn0 : 0 < n) (hm0 : 0 < m) :
    findLoop text pat n i = findLoop text pat m i := by
  induction n generalizing m i with
  | zero => cases hn0
  | succ n ih =>
    obtain ⟨m, rfl⟩ := Nat.exists_eq_add_one.mpr hm0
    rw [findLoop, findLoop]
    congr 1
    funext r
    rcases r with _ | ⟨stop, ms⟩
    swap
    · rfl
    · dsimp only
      split
      · rfl
      · next hgo =>
        simp only [Bool.or_eq_true, decide_eq_true_eq, not_or] at hgo
        exact ih (by omega) (by omega) (by omega) (by omega)

/-- The loop raises what the first attempt raises that does not just fail. -/
theorem findLoop_error (hanch : anchored pat = false) (hi : i ≤ text.length) (hn : text.length < n + i) :
    findLoop text pat n i = .error e ↔ StopsWith text pat i e := by
  induction n generalizing i with
  | zero => omega
  | succ n ih =>
    rw [findLoop]
    cases ha : attempt text pat i with
    | error e' =>
      rw [error_bind]
      constructor
      · intro he
        cases he
        exact ⟨i, le_rfl, hi, fun k h1 h2 => by omega, ha⟩
      · rintro ⟨j, hij, -, hnone, hj⟩
        have hji : ¬ i < j := fun hlt => by
          have := hnone i le_rfl hlt
          rw [ha] at this
          cases this
        rw [show j = i by omega, ha] at hj
        exact congrArg Except.error (Except.error.inj hj)
    | ok r =>
      rw [ok_bind]
      rcases r with _ | ⟨stop, ms⟩
      swap
      · refine ⟨by rintro ⟨⟩, ?_⟩
        rintro ⟨j, hij, -, hnone, hj⟩
        by_cases hlt : i < j
        · have := hnone i le_rfl hlt
          rw [ha] at this
          cases this
        · rw [show j = i by omega, ha] at hj
          cases hj
      · dsimp only
        rw [hanch, Bool.false_or]
        split
        · next hend =>
          refine ⟨by rintro ⟨⟩, ?_⟩
          rintro ⟨j, hij, hj, -, hje⟩
          rw [decide_eq_true_eq] at hend
          rw [show j = i by omega, ha] at hje
          cases hje
        · next hgo =>
          rw [decide_eq_true_eq] at hgo
          rw [ih (by omega) (by omega)]
          constructor
          · rintro ⟨j, hij, hj, hnone, hje⟩
            refine ⟨j, by omega, hj, fun k h1 h2 => ?_, hje⟩
            by_cases hk : k = i
            · rw [hk]
              exact ha
            · exact hnone k (by omega) h2
          · rintro ⟨j, hij, hj, hnone, hje⟩
            have hne : j ≠ i := fun he => by
              rw [he, ha] at hje
              cases hje
            exact ⟨j, by omega, hj, fun k h1 h2 => hnone k (by omega) h2, hje⟩

/-- Nothing matches before `q`, or the loop from the beginning ends before it. -/
theorem findLoop_before (hanch : anchored pat = false) {q : ℕ} (hq : q ≤ text.length)
    (hsome : ¬ ∀ j < q, attempt text pat j = .ok none) :
    (∃ e, findLoop text pat (text.length + 1) 0 = .error e) ∨
      ∃ f, findLoop text pat (text.length + 1) 0 = .ok (some f) ∧ f.start < q := by
  push Not at hsome
  have hfind := Nat.find_spec hsome
  have hmin : ∀ j, j < Nat.find hsome → attempt text pat j = .ok none := fun j hj => by
    by_contra hne
    exact Nat.find_min hsome hj ⟨hj.trans hfind.1, hne⟩
  generalize Nat.find hsome = j at hfind hmin
  obtain ⟨k, hk⟩ : ∃ k, text.length + 1 = k + 1 + j := ⟨text.length - j, by omega⟩
  rw [hk, findLoop_skip hanch 0 j (by omega) fun x _ hx => hmin x (by omega), Nat.zero_add, findLoop]
  cases ha : attempt text pat j with
  | error e => exact .inl ⟨e, rfl⟩
  | ok r =>
    rcases r with _ | ⟨stop, ms⟩
    · exact absurd ha hfind.2
    · exact .inr ⟨_, rfl, hfind.1⟩

/-- The searches for a pattern from the beginning and from `q`. -/
theorem findMatch_same_iff {q : ℕ} (hq0 : 0 < q) (hq : q ≤ text.length) (hplain : isPlainPattern pat = false) :
    findMatch text pat 0 true = findMatch text pat q true ↔ SameFrom text pat q := by
  have hif : ¬ isPlainPattern pat = true := by simp [hplain]
  have hbool : anchored pat = true ∨ anchored pat = false := by cases anchored pat <;> simp
  have hrun : ∀ si, findMatch text pat si true = (do
      validatePattern pat
      findLoop text pat (text.length + 1) si) := fun si => by rw [findMatch, if_pos rfl]
  rw [SameFrom, if_neg hif, hrun, hrun]
  cases hv : validatePattern pat with
  | error e =>
    rw [error_bind, error_bind]
    exact ⟨fun _ => .inl ⟨e, rfl⟩, fun _ => rfl⟩
  | ok u =>
    have hw := wf_of_validatePattern hv
    have hloop : ∀ si, (Except.ok u >>= fun _ => findLoop text pat (text.length + 1) si) =
        findLoop text pat (text.length + 1) si := fun _ => rfl
    have hno : ¬ ∃ e, (Except.ok u : Except Stop Unit) = .error e := by rintro ⟨e, ⟨⟩⟩
    rw [hloop, hloop, or_iff_right hno]
    rcases hbool with hanch | hanch
    · rw [if_pos hanch, findLoop_anchored hanch, findLoop_anchored hanch]
      cases h0 : attempt text pat 0 with
      | error e₀ =>
        cases hq' : attempt text pat q with
        | error e => simp [Except.map, eq_comm]
        | ok r => rcases r with _ | ⟨stop, ms⟩ <;> simp [Except.map]
      | ok r₀ =>
        rcases r₀ with _ | ⟨stop₀, ms₀⟩
        · cases hq' : attempt text pat q with
          | error e => simp [Except.map]
          | ok r => rcases r with _ | ⟨stop, ms⟩ <;> simp [Except.map]
        · cases hq' : attempt text pat q with
          | error e => simp [Except.map]
          | ok r =>
            rcases r with _ | ⟨stop, ms⟩
            · simp [Except.map]
            · simp [Except.map]
              omega
    · rw [if_neg (show ¬ anchored pat = true by simp [hanch])]
      constructor
      · intro he
        by_cases hsome : ∀ j < q, attempt text pat j = .ok none
        · exact .inl hsome
        · rcases findLoop_before hanch hq hsome with ⟨e, herr⟩ | ⟨f, hf, hstart⟩
          · refine .inr ⟨e, (findLoop_error hanch (Nat.zero_le _) (by omega)).mp herr, ?_⟩
            exact (findLoop_error hanch hq (by omega)).mp (he ▸ herr)
          · have hin := findLoop_ensures hw (text.length + 1) q hq (by omega)
            rw [← he, hf] at hin
            exact absurd (hin f rfl).start (Nat.not_le.mpr hstart)
      · rintro (hnone | ⟨e, h0, he⟩)
        · obtain ⟨k, hk⟩ : ∃ k, text.length + 1 = k + 1 + q := ⟨text.length - q, by omega⟩
          have hskip := findLoop_skip (n := k + 1) hanch 0 q (by omega) fun j _ hj => hnone j (by omega)
          rw [← hk, Nat.zero_add] at hskip
          rw [hskip]
          exact findLoop_fuel (by omega) (by omega) (by omega) (by omega)
        · rw [(findLoop_error hanch (Nat.zero_le _) (by omega)).mpr h0,
            (findLoop_error hanch hq (by omega)).mpr he]

/-- The byte search from a position. -/
theorem find_plain_eq (hplain : isPlainPattern pat = true) (hi : i ≤ text.length) {o : Option ℕ}
    (ho : FirstOcc (text.drop i) pat o) :
    find text pat i = .ok (o.map fun k => ⟨i + k, i + k + pat.length, []⟩) := by
  rw [find, findImpl, if_neg (by omega), if_pos hplain, findPlain, slice_ok hi le_rfl, ok_bind, List.take_length]
  have hfound := findBytesInSlice_ensures (text.drop i) pat
  cases hb : findBytesInSlice (text.drop i) pat with
  | error e =>
    rw [hb] at hfound
    exact hfound.elim
  | ok r =>
    rw [hb] at hfound
    rw [FirstOcc.unique ho hfound, ok_bind]
    cases r <;> rfl

theorem exists_firstOcc (h needle : List UInt8) : ∃ o, FirstOcc h needle o := ⟨_, find_window h needle⟩

/-- When the search from the beginning comes to the same as the search from `q`. -/
theorem find_same_iff {q : ℕ} (hq0 : 0 < q) (hq : q ≤ text.length) :
    find text pat 0 = find text pat q ↔ SameFrom text pat q := by
  cases hplain : isPlainPattern pat with
  | false =>
    rw [← findMatch_same_iff hq0 hq hplain, find, findImpl, if_neg (by omega), if_neg (by simp [hplain]), find, findImpl,
      if_neg (by omega), if_neg (by simp [hplain])]
  | true =>
    obtain ⟨o, ho⟩ := exists_firstOcc text pat
    obtain ⟨o', ho'⟩ := exists_firstOcc (text.drop q) pat
    rw [SameFrom, if_pos hplain, find_plain_eq hplain (Nat.zero_le _) ho, find_plain_eq hplain hq ho']
    constructor
    · intro he j hj hp
      cases o with
      | none => exact ho j hp
      | some k =>
        have hkj : k ≤ j := by
          by_contra hlt
          exact ho.2 j (by omega) hp
        cases o' with
        | none => simp at he
        | some k' =>
          simp at he
          omega
    · intro hnone
      have hshift : FirstOcc text pat (o'.map (q + ·)) := by
        cases o' with
        | none =>
          intro j hp
          by_cases hj : j < q
          · exact hnone j hj hp
          · refine ho' (j - q) ?_
            rwa [List.drop_drop, Nat.add_sub_cancel' (Nat.not_lt.mp hj)]
        | some k =>
          refine ⟨?_, fun j hj hp => ?_⟩
          · have := ho'.1
            rwa [List.drop_drop] at this
          · by_cases hjq : j < q
            · exact hnone j hjq hp
            · have hlt : j < q + k := hj
              refine ho'.2 (j - q) (by omega) ?_
              rwa [List.drop_drop, Nat.add_sub_cancel' (Nat.not_lt.mp hjq)]
      rw [FirstOcc.unique ho hshift]
      cases o' with
      | none => rfl
      | some k => simp

end Search

/-! ### The law -/

section
variable {text pat : List UInt8} {i : ℤ}

/-- `string.match` starts where `string.find` does, or comes to the same from the beginning. -/
theorem matchLaw_iff (hlen : text.length < 2^52) (hi : i.natAbs < 2^53) :
    MatchLaw text pat (some (.ofInt i)) ↔ 0 ≤ i ∨ text.length + i ≤ 0 ∨ SameFrom text pat (text.length + i).toNat := by
  have hlaw : MatchLaw text pat (some (.ofInt i)) ↔
      find text pat (matchInit (some (.ofInt i)) - 1) = find text pat (findInit text.length (some (.ofInt i)) - 1) :=
    ⟨fun ⟨r, hf, hm, _⟩ => hm.trans hf.symm, fun he => ⟨_, rfl, he, rfl, by rw [← he]; rfl⟩⟩
  rw [hlaw, findInit_eq hlen hi, matchInit_eq hi, normInit]
  by_cases h0 : 0 ≤ i
  · rw [if_neg (by omega)]
    exact ⟨fun _ => .inl h0, fun _ => rfl⟩
  · rw [if_pos (by omega)]
    by_cases hend : text.length + i ≤ 0
    · rw [show (max 1 i).toNat = 1 by omega, show (max 1 (text.length + i + 1)).toNat = 1 by omega]
      exact ⟨fun _ => .inr (.inl hend), fun _ => rfl⟩
    · rw [show (max 1 i).toNat - 1 = 0 by omega,
        show (max 1 (text.length + i + 1)).toNat - 1 = (text.length + i).toNat by omega,
        find_same_iff (by omega) (by omega)]
      exact ⟨fun hs => .inr (.inr hs), fun hs => (hs.resolve_left h0).resolve_left hend⟩

/-- A plain search finds the leftmost occurrence exactly for a pattern with bytes and a start up to one past the end.
`string.match` is about the match of `string.find` exactly when the start is not counted from the end, lies before
the beginning, or nothing matches before it. -/
theorem init_law (hlen : text.length < 2^52) (hi : i.natAbs < 2^53) :
    (PlainLaw text pat (normInit text.length i) (strFindAt text pat (some (.ofInt i)) true) ↔
        pat ≠ [] ∧ normInit text.length i ≤ text.length + 1) ∧
      (MatchLaw text pat (some (.ofInt i)) ↔
        0 ≤ i ∨ text.length + i ≤ 0 ∨ SameFrom text pat (text.length + i).toNat) := by
  refine ⟨?_, matchLaw_iff hlen hi⟩
  rw [strFindAt, if_pos rfl, findInit_eq hlen hi]
  exact plainLaw_iff (by unfold normInit; omega)

theorem init_law_word :
    (PlainLaw [97, 98] [98] (normInit 2 (-1)) (strFindAt [97, 98] [98] (some (.ofInt (-1))) true) ↔
        ([98] : List UInt8) ≠ [] ∧ normInit 2 (-1) ≤ 2 + 1) ∧
      (MatchLaw [97, 98] [98] (some (.ofInt (-1))) ↔
        0 ≤ (-1 : ℤ) ∨ ((2 : ℕ) : ℤ) + -1 ≤ 0 ∨ SameFrom [97, 98] [98] (((2 : ℕ) : ℤ) + -1).toNat) :=
  init_law (by decide) (by decide)

/-- `string.find("a", "b", 3, true)` and `string.find("a", "", 1, true)` panic, and in `"aab"` a search for `a*b`
from `-1` reports `b` while `string.match` returns `aab`. -/
theorem init_panics :
    strFindAt [97] [98] (some (.ofInt 3)) true = .error (.fault .outOfBounds) ∧
    strFindAt [97] [] (some (.ofInt 1)) true = .error (.fault .outOfBounds) ∧
    strFindAt [97, 97, 98] [97, 42, 98] (some (.ofInt (-1))) false = .ok (some (3, 3, [])) ∧
    strMatchAt [97, 97, 98] [97, 42, 98] (some (.ofInt (-1))) = .ok (some [.str [97, 97, 98]]) := by
  refine ⟨?_, ?_, ?_, ?_⟩
  · rfl
  · rfl
  · rfl
  · rfl

end
end Pattern
end LuajitRs
