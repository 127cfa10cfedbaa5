import LuajitRs.Stdlib.Pattern.Validate

/-! Bracket sets: how `matchset` reads one beside `element_end` and the validator, and what it contains by the rules
of Lua 5.1. A range may end in a `%` that escapes the next byte for the two others. -/
namespace LuajitRs.Pattern

open Lib

variable {pat : List UInt8} {c : UInt8} {i j e n first close : ℕ} {m : Bool}

/-! ### Items -/

inductive SetItem
  | byte (b : UInt8)
  | escape (cl : UInt8)
  | range (lo hi : UInt8)
  deriving DecidableEq, Repr

/-- Whether an item contains a byte; `f` says which bytes an escape contains. -/
def SetItem.contains (f : UInt8 → UInt8 → Bool) (c : UInt8) : SetItem → Bool
  | byte b => c = b
  | escape cl => f c cl
  | range lo hi => lo ≤ c && c ≤ hi

/-- The item at `j`; `isRange` says whether it is a range. -/
def readItem (pat : List UInt8) (isRange : Bool) (j : ℕ) : SetItem :=
  if pat[j]? = some (ch '%') then .escape (pat.getD (j + 1) 0)
  else if isRange then .range (pat.getD j 0) (pat.getD (j + 2) 0)
  else .byte (pat.getD j 0)

/-- The index behind the item at `j`. -/
def readEnd (pat : List UInt8) (isRange : Bool) (j : ℕ) : ℕ :=
  if pat[j]? = some (ch '%') then j + 2 else if isRange then j + 3 else j + 1

/-! ### The sets of Lua 5.1 -/

/-- `isspace` in the C locale: unlike the class of the standard library, it contains the vertical tab. -/
def isSpace (c : UInt8) : Bool := c = 32 || (9 ≤ c && c ≤ 13)

/-- The bytes of `%cl`. -/
def classContains (c cl : UInt8) : Bool :=
  if cl = ch 's' then isSpace c else if cl = ch 'S' then !isSpace c else matchEscape c cl

/-- A `-` between two bytes before the closing bracket makes a range. -/
def luaRange (pat : List UInt8) (close j : ℕ) : Bool := pat[j + 1]? = some (ch '-') && j + 2 < close

/-- The items from `j` to the closing bracket, read from left to right. -/
def readItems (pat : List UInt8) (close : ℕ) : ℕ → ℕ → List SetItem
  | 0, _ => []
  | fuel+1, j =>
    if j < close then
      readItem pat (luaRange pat close j) j :: readItems pat close fuel (readEnd pat (luaRange pat close j) j)
    else []

def isNegated (pat : List UInt8) (pp : ℕ) : Bool := pat[pp + 1]? = some (ch '^')

/-- A `]` that comes first is a member. -/
def hasLeading (pat : List UInt8) (pp : ℕ) : Bool :=
  pat[if isNegated pat pp then pp + 2 else pp + 1]? = some (ch ']')

/-- The items of the set at `pp` whose closing bracket is at `close`. -/
def itemsOf (pat : List UInt8) (pp close : ℕ) : List SetItem := readItems pat close pat.length (setItems pat pp)

/-- Whether the set at `pp` contains `c`. -/
def luaSet (c : UInt8) (pat : List UInt8) (pp close : ℕ) : Bool :=
  (hasLeading pat pp && c = ch ']' || (itemsOf pat pp close).any (·.contains classContains c)) != isNegated pat pp

/-! ### The loop of `matchset` -/

/-- `matchsetItems` with the index where it stops. -/
def matchsetScan (c : UInt8) (pat : List UInt8) : ℕ → ℕ → Bool → Except Stop (Bool × ℕ)
  | 0, _, _ => .error (.fault .diverge)
  | fuel+1, i, matched => do
    if i < pat.length then
      let p ← byteAt pat i
      if p = ch ']' then pure (matched, i)
      else if p = ch '%' ∧ i + 1 < pat.length then
        let cl ← byteAt pat (i + 1)
        matchsetScan c pat fuel (i + 2) (matched || matchEscape c cl)
      else if i + 2 < pat.length then
        let dash ← byteAt pat (i + 1)
        let hi ← byteAt pat (i + 2)
        if dash = ch '-' ∧ hi ≠ ch ']' then matchsetScan c pat fuel (i + 3) (matched || (p ≤ c && c ≤ hi))
        else matchsetScan c pat fuel (i + 1) (matched || c = p)
      else matchsetScan c pat fuel (i + 1) (matched || c = p)
    else pure (matched, i)

/-- The scan of the set at `pp`. -/
def scanSet (c : UInt8) (pat : List UInt8) (pp : ℕ) : Except Stop (Bool × ℕ) :=
  matchsetScan c pat (pat.length + 1) (setItems pat pp) (hasLeading pat pp && c = ch ']')

/-- The index past the byte where `matchset` stops. -/
def matchsetEnd (c : UInt8) (pat : List UInt8) (pp : ℕ) : Except Stop ℕ := (scanSet c pat pp).map (·.2 + 1)

theorem matchsetItems_eq (c : UInt8) (pat : List UInt8) (n i : ℕ) (m : Bool) :
    matchsetItems c pat n i m = (matchsetScan c pat n i m).map Prod.fst := by
  induction n generalizing i m with
  | zero => rfl
  | succ n ih =>
    rw [matchsetItems, matchsetScan]
    split
    · cases byteAt pat i with
      | error e => rfl
      | ok p =>
        rw [ok_bind, ok_bind]
        split
        · rfl
        · split
          · cases byteAt pat (i + 1) with
            | error e => rfl
            | ok cl => exact ih _ _
          · split
            · cases byteAt pat (i + 1) with
              | error e => rfl
              | ok dash =>
                cases byteAt pat (i + 2) with
                | error e => rfl
                | ok hi =>
                  rw [ok_bind, ok_bind, ok_bind, ok_bind]
                  split
                  · exact ih _ _
                  · exact ih _ _
            · exact ih _ _
    · rfl

theorem matchset_eq (c : UInt8) (pat : List UInt8) (pp : ℕ) :
    matchset c pat pp = (scanSet c pat pp).map fun r => r.1 != isNegated pat pp := by
  have hmap (i : ℕ) (m : Bool) : (do
      let matched ← matchsetItems c pat (pat.length + 1) i m
      pure (matched != isNegated pat pp)) =
        (matchsetScan c pat (pat.length + 1) i m).map fun r => r.1 != isNegated pat pp := by
    rw [matchsetItems_eq]
    cases matchsetScan c pat (pat.length + 1) i m with
    | error e => rfl
    | ok r => rfl
  rw [scanSet, ← hmap]
  simp only [matchset, hasByte_eq, ok_bind, setItems, hasLeading, isNegated, decide_eq_true_eq]
  generalize (if pat[pp + 1]? = some (ch '^') then pp + 2 else pp + 1) = i
  by_cases hlead : pat[i]? = some (ch ']')
  · simp only [hlead, if_true, decide_true, Bool.true_and]
  · simp only [hlead, if_false, decide_false, Bool.false_and]

/-- The range of `matchset`: its end is not a `]`. -/
def codeRange (pat : List UInt8) (j : ℕ) : Bool :=
  pat[j + 1]? = some (ch '-') && j + 2 < pat.length && pat[j + 2]? ≠ some (ch ']')

theorem matchsetScan_close (hn : pat.length < n + j) (h : pat[j]? = some (ch ']')) :
    matchsetScan c pat n j m = .ok (m, j) := by
  have hj := lt_length_of_getElem? h
  obtain ⟨n, rfl⟩ : ∃ k, n = k + 1 := ⟨n - 1, by omega⟩
  rw [matchsetScan, if_pos hj, byteAt_ok h, ok_bind, if_pos rfl]
  rfl

theorem matchsetScan_step (hj : j + 1 < pat.length) (h : pat[j]? ≠ some (ch ']')) :
    matchsetScan c pat (n + 1) j m =
      matchsetScan c pat n (readEnd pat (codeRange pat j) j)
        (m || (readItem pat (codeRange pat j) j).contains matchEscape c) := by
  have hget {k : ℕ} (hk : k < pat.length) : byteAt pat k = .ok (pat.getD k 0) ∧ pat[k]? = some (pat.getD k 0) := by
    rw [byteAt_ok (List.getElem?_eq_getElem hk), List.getElem?_eq_getElem hk]
    simp [hk]
  obtain ⟨hp, hp'⟩ := hget (k := j) (by omega)
  obtain ⟨hq, hq'⟩ := hget hj
  rw [matchsetScan, if_pos (by omega), hp, ok_bind, readEnd, readItem, hp', codeRange, hq']
  rw [hp'] at h
  rw [if_neg fun heq => h (congrArg some heq)]
  by_cases hesc : pat.getD j 0 = ch '%'
  · rw [if_pos ⟨hesc, hj⟩, hq, ok_bind, if_pos (congrArg some hesc), if_pos (congrArg some hesc)]
    rfl
  · rw [if_neg fun h => hesc h.1, if_neg fun heq => hesc (Option.some.inj heq),
      if_neg fun heq => hesc (Option.some.inj heq)]
    by_cases h2 : j + 2 < pat.length
    · obtain ⟨hr, hr'⟩ := hget h2
      rw [if_pos h2, hq, ok_bind, hr, ok_bind, hr']
      by_cases hrange : pat.getD (j + 1) 0 = ch '-' ∧ pat.getD (j + 2) 0 ≠ ch ']'
      · rw [if_pos hrange]
        simp only [hrange.1, hrange.2, h2, Option.some.injEq, decide_true, Bool.and_true, ne_eq, not_false_eq_true,
          if_true, SetItem.contains]
      · rw [if_neg hrange]
        have hno : (decide (some (pat.getD (j + 1) 0) = some (ch '-')) && decide (j + 2 < pat.length) &&
            decide (some (pat.getD (j + 2) 0) ≠ some (ch ']'))) = false := by
          simp only [Option.some.injEq, h2, decide_true, Bool.and_true, ← Bool.decide_and, decide_eq_false_iff_not,
            ne_eq]
          exact hrange
        rw [hno]
        rfl
    · rw [if_neg h2]
      simp [h2, SetItem.contains]

theorem matchsetScan_le (c : UInt8) (pat : List UInt8) (n j : ℕ) (m : Bool) :
    Ensures (fun _ => True) (matchsetScan c pat n j m) fun r => j ≤ r.2 := by
  induction n generalizing j m with
  | zero => trivial
  | succ n ih =>
    have hlater {k : ℕ} (b : Bool) (hk : j ≤ k) :
        Ensures (fun _ => True) (matchsetScan c pat n k b) fun r => j ≤ r.2 := (ih k b).mono fun r hr => hk.trans hr
    rw [matchsetScan]
    split
    · cases byteAt pat j with
      | error e => trivial
      | ok p =>
        rw [ok_bind]
        split
        · exact le_rfl
        · split
          · cases byteAt pat (j + 1) with
            | error e => trivial
            | ok cl => exact hlater _ (by omega)
          · split
            · cases byteAt pat (j + 1) with
              | error e => trivial
              | ok dash =>
                cases byteAt pat (j + 2) with
                | error e => trivial
                | ok hi =>
                  rw [ok_bind, ok_bind]
                  split
                  · exact hlater _ (by omega)
                  · exact hlater _ (by omega)
            · exact hlater _ (by omega)
    · exact le_rfl

/-! ### Two readings -/

/-- The reading of items from `first` gets to this index. -/
inductive ReadsTo (pat : List UInt8) (close first : ℕ) : ℕ → Prop
  | first : ReadsTo pat close first first
  | next {j : ℕ} (h : ReadsTo pat close first j) (hj : j < close) :
      ReadsTo pat close first (readEnd pat (luaRange pat close j) j)

/-- `element_end` gets to this index: it looks for escapes only. -/
inductive Boundary (pat : List UInt8) (first : ℕ) : ℕ → Prop
  | first : Boundary pat first first
  | escape {j : ℕ} (h : Boundary pat first j) (hesc : pat[j]? = some (ch '%')) : Boundary pat first (j + 2)
  | byte {j : ℕ} {c : UInt8} (h : Boundary pat first j) (hc : pat[j]? = some c) (hesc : c ≠ ch '%')
      (hclose : c ≠ ch ']') : Boundary pat first (j + 1)

/-- `element_end` passes over this byte behind a `%`. -/
def Escaped (pat : List UInt8) (first j : ℕ) : Prop :=
  ∃ q, j = q + 1 ∧ Boundary pat first q ∧ pat[q]? = some (ch '%')

/-- No item begins at an escaped `]`, or at an escaped `%` before the closing bracket. -/
def InStep (pat : List UInt8) (first close : ℕ) : Prop :=
  ∀ j < close, ReadsTo pat close first j → Escaped pat first j →
    pat[j]? ≠ some (ch ']') ∧ ¬ (pat[j]? = some (ch '%') ∧ pat[j + 1]? = some (ch ']'))

namespace SetEnd

theorem of_close (h : SetEnd pat j e) (hc : pat[j]? = some (ch ']')) : e = j + 1 := by
  cases h with
  | close _ => rfl
  | escape hesc _ _ =>
    rw [hc] at hesc
    exact absurd hesc (by decide)
  | byte hb hclose _ _ =>
    rw [hc] at hb
    exact absurd (Option.some.inj hb).symm hclose

theorem of_escape (h : SetEnd pat j e) (hc : pat[j]? = some (ch '%')) : SetEnd pat (j + 2) e := by
  cases h with
  | close hclose =>
    rw [hc] at hclose
    exact absurd hclose (by decide)
  | escape _ _ rest => exact rest
  | byte hb _ hesc _ =>
    rw [hc] at hb
    exact absurd (Option.some.inj hb).symm hesc

theorem of_byte (h : SetEnd pat j e) (hclose : pat[j]? ≠ some (ch ']')) (hesc : pat[j]? ≠ some (ch '%')) :
    SetEnd pat (j + 1) e := by
  cases h with
  | close hc => exact absurd hc hclose
  | escape hc _ _ => exact absurd hc hesc
  | byte _ _ _ rest => exact rest

theorem getElem?_close (h : SetEnd pat j e) : pat[e - 1]? = some (ch ']') := by
  induction h with
  | close h => exact h
  | escape _ _ _ ih => exact ih
  | byte _ _ _ _ ih => exact ih

/-- A `]` before the closing one is escaped. -/
theorem bracket (h : SetEnd pat j e) (hji : j ≤ i) (hie : i + 1 < e) (hi : pat[i]? = some (ch ']')) :
    j < i ∧ pat[i - 1]? = some (ch '%') := by
  induction h with
  | close _ => omega
  | @escape j e hesc _ _ ih =>
    obtain rfl | rfl | hlt : i = j ∨ i = j + 1 ∨ j + 2 ≤ i := by omega
    · rw [hi] at hesc
      exact absurd hesc (by decide)
    · exact ⟨Nat.lt_succ_self j, hesc⟩
    · exact ⟨by omega, (ih hlt hie).2⟩
  | @byte j e c hc hclose _ _ ih =>
    obtain rfl | hlt : i = j ∨ j + 1 ≤ i := by omega
    · rw [hi] at hc
      exact absurd (Option.some.inj hc).symm hclose
    · exact ⟨hlt, (ih hlt hie).2⟩

end SetEnd

theorem ReadsTo.le (h : ReadsTo pat close first j) : first ≤ j := by
  induction h with
  | first => exact le_rfl
  | next _ _ ih =>
    unfold readEnd
    split
    · omega
    · split <;> omega

section Readings
variable (h : SetEnd pat first e)
include h

theorem Boundary.setEnd (hb : Boundary pat first j) : SetEnd pat j e := by
  induction hb with
  | first => exact h
  | escape _ hesc ih => exact ih.of_escape hesc
  | byte _ hc hesc hclose ih =>
    refine ih.of_byte ?_ ?_
    · rw [hc]
      exact fun heq => hclose (Option.some.inj heq)
    · rw [hc]
      exact fun heq => hesc (Option.some.inj heq)

/-- One byte further, `element_end` stands at a boundary or behind a `%`. -/
theorem Boundary.succ (hb : Boundary pat first j) (hj : j < e - 1) :
    Boundary pat first (j + 1) ∨ Escaped pat first (j + 1) ∧ j + 1 < e - 1 := by
  have hend := hb.setEnd h
  have hlen := hend.bounds
  by_cases hesc : pat[j]? = some (ch '%')
  · have := (hend.of_escape hesc).bounds
    exact .inr ⟨⟨j, rfl, hb, hesc⟩, by omega⟩
  · have hc : pat[j]? = some pat[j] := List.getElem?_eq_getElem (by omega)
    refine .inl (hb.byte hc (fun heq => hesc (heq ▸ hc)) fun heq => ?_)
    have := hend.of_close (heq ▸ hc)
    omega

/-- Before the closing bracket, the two tests for a range agree. -/
theorem codeRange_eq (hj : first ≤ j) (hlt : j < e - 1) : codeRange pat j = luaRange pat (e - 1) j := by
  have hclose := h.getElem?_close
  have hlen := h.bounds
  rw [codeRange, luaRange]
  by_cases hdash : pat[j + 1]? = some (ch '-')
  · have hne : j + 1 ≠ e - 1 := by
      intro heq
      rw [heq, hclose] at hdash
      exact absurd hdash (by decide)
    have h2 : j + 2 < pat.length := by omega
    simp only [hdash, h2, decide_true, Bool.true_and, decide_eq_decide]
    constructor
    · intro hhi
      have hne2 : j + 2 ≠ e - 1 := fun heq => hhi (heq ▸ hclose)
      omega
    · intro hbefore hhi
      have hesc := (h.bracket (by omega) (show j + 2 + 1 < e by omega) hhi).2
      rw [show j + 2 - 1 = j + 1 from rfl, hdash] at hesc
      exact absurd hesc (by decide)
  · simp only [hdash, decide_false, Bool.false_and]

/-- Behind an item that begins in step, the reading is in step again or behind a `%`. -/
theorem pos_next (hpos : Boundary pat first j ∨ Escaped pat first j) (hj : j < e - 1)
    (hesc : Escaped pat first j → ¬ (pat[j]? = some (ch '%') ∧ pat[j + 1]? = some (ch ']'))) :
    Boundary pat first (readEnd pat (luaRange pat (e - 1) j) j) ∨
      Escaped pat first (readEnd pat (luaRange pat (e - 1) j) j) ∧
        readEnd pat (luaRange pat (e - 1) j) j < e - 1 := by
  have hclose := h.getElem?_close
  rw [readEnd]
  by_cases hp : pat[j]? = some (ch '%')
  · rw [if_pos hp]
    cases hpos with
    | inl hb => exact .inl (hb.escape hp)
    | inr he =>
      obtain ⟨q, rfl, hq, hqesc⟩ := he
      have hb := hq.escape hqesc
      have hne : q + 2 ≠ e - 1 := fun heq => hesc ⟨q, rfl, hq, hqesc⟩ ⟨hp, heq ▸ hclose⟩
      exact hb.succ h (by omega)
  · rw [if_neg hp]
    have hnext : Boundary pat first (j + 1) := by
      cases hpos with
      | inl hb =>
        refine (hb.succ h hj).resolve_right fun he => ?_
        obtain ⟨⟨q, hq, -, hqesc⟩, -⟩ := he
        rw [← Nat.succ.inj hq] at hqesc
        exact hp hqesc
      | inr he =>
        obtain ⟨q, rfl, hq, hqesc⟩ := he
        exact hq.escape hqesc
    cases hrange : luaRange pat (e - 1) j with
    | false => exact .inl hnext
    | true =>
      rw [luaRange, Bool.and_eq_true, decide_eq_true_eq, decide_eq_true_eq] at hrange
      rw [if_pos rfl]
      exact (hnext.byte hrange.1 (by decide) (by decide)).succ h hrange.2

/-- In step, the loop reads the items up to the closing bracket. -/
theorem scan_inStep (hstep : InStep pat first (e - 1)) (k n j : ℕ) (m : Bool) (hreads : ReadsTo pat (e - 1) first j)
    (hpos : Boundary pat first j ∨ Escaped pat first j ∧ j < e - 1) (hk : e - 1 ≤ k + j) (hn : pat.length < n + j) :
    matchsetScan c pat n j m =
      .ok (m || (readItems pat (e - 1) k j).any (·.contains matchEscape c), e - 1) := by
  have hlen := h.bounds
  induction k generalizing n j m with
  | zero =>
    have hb : Boundary pat first j := hpos.resolve_right fun he => by omega
    have hj : j = e - 1 := by
      have := (hb.setEnd h).bounds
      omega
    rw [matchsetScan_close hn (hj ▸ h.getElem?_close), hj]
    simp [readItems]
  | succ k ih =>
    by_cases hj : j < e - 1
    · have hnot : pat[j]? ≠ some (ch ']') := by
        intro hc
        cases hpos with
        | inl hb =>
          have := (hb.setEnd h).of_close hc
          omega
        | inr he => exact (hstep j hj hreads he.1).1 hc
      obtain ⟨n, rfl⟩ : ∃ l, n = l + 1 := ⟨n - 1, by omega⟩
      have hnext := pos_next h (hpos.imp_right And.left) hj fun he => (hstep j hj hreads he).2
      have hlt : j < readEnd pat (luaRange pat (e - 1) j) j := by
        unfold readEnd
        split
        · omega
        · split <;> omega
      rw [matchsetScan_step (by omega) hnot, codeRange_eq h hreads.le hj,
        ih n _ _ (hreads.next hj) hnext (by omega) (by omega), readItems, if_pos hj, List.any_cons, Bool.or_assoc]
    · have hb : Boundary pat first j := hpos.resolve_right fun he => hj he.2
      have heq : j = e - 1 := by
        have := (hb.setEnd h).bounds
        omega
      rw [matchsetScan_close hn (heq ▸ h.getElem?_close), readItems, if_neg hj, heq]
      simp

/-- Where the loop stops at the closing bracket, it has gone through the reading. -/
theorem scan_reads {m r : Bool} (hscan : matchsetScan c pat n first m = .ok (r, e - 1)) (hn : pat.length < n + first)
    (hreads : ReadsTo pat (e - 1) first j) (hj : j < e - 1) :
    ∃ k b, pat.length < k + j ∧ matchsetScan c pat k j b = .ok (r, e - 1) := by
  have hlen := h.bounds
  induction hreads with
  | first => exact ⟨n, m, hn, hscan⟩
  | @next j hreads hlt ih =>
    obtain ⟨k, b, hk, hrun⟩ := ih hlt
    have hnot : pat[j]? ≠ some (ch ']') := by
      intro hc
      rw [matchsetScan_close hk hc, Except.ok.injEq, Prod.mk.injEq] at hrun
      omega
    obtain ⟨k, rfl⟩ : ∃ l, k = l + 1 := ⟨k - 1, by omega⟩
    rw [matchsetScan_step (by omega) hnot, codeRange_eq h hreads.le hlt] at hrun
    refine ⟨k, _, ?_, hrun⟩
    unfold readEnd
    split
    · omega
    · split <;> omega

/-- The loop stops at the closing bracket exactly where its reading is in step. -/
theorem scan_close_iff (c : UInt8) (m : Bool) :
    (matchsetScan c pat (pat.length + 1) first m).map Prod.snd = .ok (e - 1) ↔ InStep pat first (e - 1) := by
  have hlen := h.bounds
  refine ⟨fun heq => ?_, fun hstep => ?_⟩
  · obtain ⟨r, hr⟩ : ∃ r, matchsetScan c pat (pat.length + 1) first m = .ok (r, e - 1) := by
      cases hscan : matchsetScan c pat (pat.length + 1) first m with
      | error err =>
        rw [hscan] at heq
        cases heq
      | ok p =>
        rw [hscan] at heq
        exact ⟨p.1, by rw [← Except.ok.inj heq]⟩
    intro j hj hreads he
    obtain ⟨k, b, hk, hrun⟩ := scan_reads h hr (by omega) hreads hj
    have hnot : pat[j]? ≠ some (ch ']') := by
      intro hc
      rw [matchsetScan_close hk hc, Except.ok.injEq, Prod.mk.injEq] at hrun
      omega
    refine ⟨hnot, fun ⟨hp, hc⟩ => ?_⟩
    obtain ⟨q, rfl, hq, hqesc⟩ := he
    have hclose := ((hq.escape hqesc).setEnd h).of_close hc
    -- The escape takes the closing bracket with it.
    obtain ⟨k, rfl⟩ : ∃ l, k = l + 1 := ⟨k - 1, by omega⟩
    rw [matchsetScan_step (by omega) hnot, readEnd, if_pos hp] at hrun
    have hbehind := matchsetScan_le c pat k (q + 1 + 2) (b ||
      (readItem pat (codeRange pat (q + 1)) (q + 1)).contains matchEscape c)
    rw [hrun] at hbehind
    have hle : q + 1 + 2 ≤ e - 1 := hbehind
    omega
  · rw [scan_inStep h hstep pat.length _ first m .first (.inl .first) (by omega) (by omega)]
    rfl

end Readings

/-! ### The law -/

/-- The vertical tab is in an item other than `%s` and `%S`, or these two do not decide. -/
def SpaceAlike (c : UInt8) (items : List SetItem) : Prop :=
  c = 11 → (∃ it ∈ items, it ≠ .escape (ch 's') ∧ it ≠ .escape (ch 'S') ∧ it.contains classContains c = true) ∨
    (.escape (ch 's') ∈ items ↔ .escape (ch 'S') ∈ items)

theorem matchEscape_eq (cl : UInt8) (hc : c ≠ 11) : matchEscape c cl = classContains c cl := by
  have hspace : ∀ c : UInt8, c ≠ 11 → isSpace c = Ascii.isWhitespace c := by decide +kernel
  rw [classContains]
  split
  · next h =>
    rw [h, hspace c hc]
    rfl
  · split
    · next h =>
      rw [h, hspace c hc]
      rfl
    · rfl

theorem contains_congr (it : SetItem) (h : c ≠ 11 ∨ it ≠ .escape (ch 's') ∧ it ≠ .escape (ch 'S')) :
    it.contains matchEscape c = it.contains classContains c := by
  cases it with
  | byte b => rfl
  | range lo hi => rfl
  | escape cl =>
    cases h with
    | inl hc => exact matchEscape_eq cl hc
    | inr h =>
      rw [SetItem.contains, SetItem.contains, classContains, if_neg fun heq => h.1 (congrArg _ heq),
        if_neg fun heq => h.2 (congrArg _ heq)]

/-- The two classes of spaces decide the vertical tab only. -/
theorem any_contains_iff (items : List SetItem) :
    items.any (·.contains matchEscape c) = items.any (·.contains classContains c) ↔ SpaceAlike c items := by
  by_cases hc : c = 11
  · subst hc
    rw [SpaceAlike, imp_iff_right rfl, Bool.eq_iff_iff, List.any_eq_true, List.any_eq_true]
    have hcode : (∃ it ∈ items, it.contains matchEscape 11 = true) ↔
        (∃ it ∈ items, it ≠ .escape (ch 's') ∧ it ≠ .escape (ch 'S') ∧ it.contains classContains 11 = true) ∨
          .escape (ch 'S') ∈ items := by
      constructor
      · rintro ⟨it, hit, hcont⟩
        by_cases hs : it = .escape (ch 's')
        · subst hs
          exact absurd hcont (by decide)
        · by_cases hS : it = .escape (ch 'S')
          · exact .inr (hS ▸ hit)
          · exact .inl ⟨it, hit, hs, hS, (contains_congr it (.inr ⟨hs, hS⟩)) ▸ hcont⟩
      · rintro (⟨it, hit, hs, hS, hcont⟩ | hS)
        · exact ⟨it, hit, (contains_congr it (.inr ⟨hs, hS⟩)).trans hcont⟩
        · exact ⟨_, hS, by decide⟩
    have href : (∃ it ∈ items, it.contains classContains 11 = true) ↔
        (∃ it ∈ items, it ≠ .escape (ch 's') ∧ it ≠ .escape (ch 'S') ∧ it.contains classContains 11 = true) ∨
          .escape (ch 's') ∈ items := by
      constructor
      · rintro ⟨it, hit, hcont⟩
        by_cases hS : it = .escape (ch 'S')
        · subst hS
          exact absurd hcont (by decide)
        · by_cases hs : it = .escape (ch 's')
          · exact .inr (hs ▸ hit)
          · exact .inl ⟨it, hit, hs, hS, hcont⟩
      · rintro (⟨it, hit, -, -, hcont⟩ | hs)
        · exact ⟨it, hit, hcont⟩
        · exact ⟨_, hs, by decide⟩
    rw [hcode, href]
    grind
  · have heq : items.any (·.contains matchEscape c) = items.any (·.contains classContains c) :=
      congrArg items.any (funext fun it => contains_congr it (.inl hc))
    exact iff_of_true heq fun h => absurd h hc

/-- `matchset` does what Lua 5.1 does and stops where `element_end` does. -/
def SetLaw (c : UInt8) (pat : List UInt8) (pp close : ℕ) : Prop :=
  matchset c pat pp = .ok (luaSet c pat pp close) ∧ matchsetEnd c pat pp = elementEnd pat pp

/-- For every set that the validator accepts, the law holds exactly where the reading is in step with `element_end`
and the vertical tab does not depend on the class of spaces. -/
theorem set_law (c : UInt8) (pat : List UInt8) (pp e : ℕ) (hopen : pat[pp]? = some (ch '['))
    (hacc : validateSet pat pp = .ok e) :
    SetLaw c pat pp (e - 1) ↔
      InStep pat (setItems pat pp) (e - 1) ∧ SpaceAlike c (itemsOf pat pp (e - 1)) := by
  have h : SetEnd pat (setItems pat pp) e := (validateSet_ensures pp).of_ok hacc
  have hlen := h.bounds
  have hclose := scan_close_iff h c (hasLeading pat pp && c = ch ']')
  have hend : matchsetEnd c pat pp = elementEnd pat pp ↔ InStep pat (setItems pat pp) (e - 1) := by
    rw [← hclose, elementEnd_set hopen h, matchsetEnd, scanSet]
    cases matchsetScan c pat (pat.length + 1) (setItems pat pp) (hasLeading pat pp && c = ch ']') with
    | error err => exact iff_of_false nofun nofun
    | ok r =>
      simp only [Except.map, Except.ok.injEq]
      omega
  rw [SetLaw, hend, and_comm]
  refine and_congr_right fun hstep => ?_
  rw [matchset_eq, scanSet, scan_inStep h hstep pat.length _ _ _ .first (.inl .first) (by omega) (by omega), luaSet,
    ← any_contains_iff, itemsOf]
  simp only [Except.map, Except.ok.injEq]
  cases hlead : hasLeading pat pp && decide (c = ch ']') with
  | false => simp
  | true =>
    have hc : c ≠ 11 := by
      rw [Bool.and_eq_true, decide_eq_true_eq] at hlead
      rw [hlead.2]
      decide
    exact iff_of_true rfl ((any_contains_iff _).mpr fun heq => absurd heq hc)

theorem set_law_word :
    SetLaw 97 [ch '[', 97, ch ']'] 0 2 ↔
      InStep [ch '[', 97, ch ']'] 1 2 ∧ SpaceAlike 97 (itemsOf [ch '[', 97, ch ']'] 0 2) :=
  set_law 97 [ch '[', 97, ch ']'] 0 3 (by decide) (by decide)

/-- `[a-%]]` ends at its last byte and contains `]`; `matchset` stops at the escaped bracket. -/
theorem set_out_of_step :
    ¬ ∀ (c : UInt8) (pat : List UInt8) (pp e : ℕ), pat[pp]? = some (ch '[') → validateSet pat pp = .ok e →
      SetLaw c pat pp (e - 1) := by
  intro h
  have hlaw := h (ch ']') [ch '[', 97, ch '-', ch '%', ch ']', ch ']'] 0 6 (by decide) (by decide)
  exact absurd hlaw.1 (by decide)

end LuajitRs.Pattern
