import LuajitRs.Ffi.Parser
import Mathlib.Algebra.BigOperators.Group.List.Basic
import Mathlib.Algebra.Order.Ring.Int

/-! The loop over declaration specifiers on a sequence of type keywords, qualifiers and attributes. On attributes
without parentheses in their arguments it goes over the sequence keyword by keyword; after any other attribute it
stops before the end of the sequence. -/
namespace LuajitRs.Ffi
open CTInfo

/-- Keywords for arithmetic types. -/
inductive TypeKw
  | void | char | short | int | long | signed | unsigned | bool | float | double | complex
  deriving DecidableEq, Repr

/-- Qualifiers, calling conventions and the like. -/
inductive Qualifier
  | const | volatile | cdecl | stdcall | fastcall | restrict | inline | extension
  deriving DecidableEq, Repr

/-- A specifier; an attribute comes with its arguments between the double parentheses. -/
inductive Specifier
  | type (k : TypeKw)
  | qual (q : Qualifier)
  | attr (args : List Token)
  deriving DecidableEq, Repr

def TypeKw.token : TypeKw → Token
  | void => .kwVoid | char => .kwChar | short => .kwShort | int => .kwInt | long => .kwLong | signed => .kwSigned
  | unsigned => .kwUnsigned | bool => .kwBool | float => .kwFloat | double => .kwDouble | complex => .kwComplex

def Qualifier.token : Qualifier → Token
  | const => .kwConst | volatile => .kwVolatile | cdecl => .kwCdecl | stdcall => .kwStdcall | fastcall => .kwFastcall
  | restrict => .kwRestrict | inline => .kwInline | extension => .kwExtension

def Specifier.tokens : Specifier → List Token
  | type k => [k.token]
  | qual q => [q.token]
  | attr args => .kwAttribute :: .lParen :: .lParen :: (args ++ [.rParen, .rParen])

def tokensOf (specs : List Specifier) : List Token := specs.flatMap Specifier.tokens

/-- The type keywords of a sequence. -/
def keywords (specs : List Specifier) : List TypeKw :=
  specs.filterMap fun
    | .type k => some k
    | _ => none

/-- No parentheses between the double ones. -/
def Specifier.Plain : Specifier → Prop
  | attr args => Token.lParen ∉ args ∧ Token.rParen ∉ args
  | _ => True

/-- What a keyword does to the type id and to the mark of a seen type; nothing when it ends the loop. -/
def TypeKw.effect (id : ℕ) (seen : Bool) : TypeKw → Option (ℕ × Bool)
  | signed | unsigned | long => some (id, seen)
  | short => none
  | bool => some (CTypeID.int8, true)
  | void => if seen then none else some (CTypeID.void, true)
  | char => if seen then none else some (CTypeID.cchar, true)
  | int => if seen then none else some (CTypeID.int32, true)
  | float => if seen then none else some (CTypeID.float, true)
  | double => if seen then none else some (CTypeID.double, true)
  | complex => if seen then none else some (CTypeID.complexDouble, true)

/-- The type id and the mark behind a sequence that the loop takes as a whole. -/
def scan : List Specifier → ℕ → Bool → Option (ℕ × Bool)
  | [], id, seen => some (id, seen)
  | .qual _ :: specs, id, seen => scan specs id seen
  | .attr _ :: specs, id, seen => scan specs id seen
  | .type .long :: .type .long :: specs, id, seen => scan specs id seen
  | .type .complex :: .type .float :: specs, _, false => scan specs CTypeID.complexFloat true
  | .type k :: specs, id, seen =>
    match k.effect id seen with
    | some (id, seen) => scan specs id seen
    | none => none

section Loop
variable (structOrUnion enum : ParserState → Except String (ℕ × ParserState)) (cts : CTState)

/-- The first token does not belong to a pair of keywords. -/
def Apart (ts : List Token) : Prop := ts.head? ≠ some .kwLong ∧ ts.head? ≠ some .kwFloat

theorem takeToken_of_ne {tok : Token} {ts : List Token} (h : ts.head? ≠ some tok) : takeToken tok ts = ts := by
  cases ts with
  | nil => rfl
  | cons t ts => rw [takeToken, if_neg fun ht => h (congrArg some ht)]

/-- The arguments of an attribute end at the first closing parenthesis. -/
theorem skipAttribute_args {args : List Token} (h : Token.rParen ∉ args) (ts : List Token) :
    skipAttribute (.lParen :: .lParen :: (args ++ .rParen :: ts)) = takeToken .rParen ts := by
  have hdrop : (args ++ .rParen :: ts).dropWhile (· ≠ .rParen) = .rParen :: ts := by
    rw [List.dropWhile_append_of_pos]
    · rfl
    · intro t ht
      exact decide_eq_true fun he : t = .rParen => h (he ▸ ht)
  rw [skipAttribute, hdrop]
  rfl

theorem declSpecLoop_qual (q : Qualifier) (fuel : ℕ) (flags : CTInfo) (id : ℕ) (seen : Bool) (ts : List Token) :
    ∃ flags', declSpecLoop structOrUnion enum (fuel + 1) ⟨flags, id⟩ seen ⟨q.token :: ts, cts⟩ =
      declSpecLoop structOrUnion enum fuel ⟨flags', id⟩ seen ⟨ts, cts⟩ := by
  cases q <;> exact ⟨_, rfl⟩

theorem declSpecLoop_attr (args : List Token) (h : Token.rParen ∉ args) (fuel : ℕ) (decl : DeclSpec) (seen : Bool)
    (ts : List Token) : declSpecLoop structOrUnion enum (fuel + 1) decl seen ⟨(Specifier.attr args).tokens ++ ts, cts⟩ =
      declSpecLoop structOrUnion enum fuel decl seen ⟨ts, cts⟩ := by
  have hstep : declSpecLoop structOrUnion enum (fuel + 1) decl seen ⟨(Specifier.attr args).tokens ++ ts, cts⟩ =
      declSpecLoop structOrUnion enum fuel decl seen
        ⟨skipAttribute (.lParen :: .lParen :: (args ++ [.rParen, .rParen]) ++ ts), cts⟩ := rfl
  have hskip := skipAttribute_args h (.rParen :: ts)
  rw [hstep, List.cons_append, List.cons_append, List.append_assoc]
  exact congrArg (fun ts => declSpecLoop structOrUnion enum fuel decl seen ⟨ts, cts⟩) hskip

/-- A keyword without the second one of a pair behind it. -/
theorem declSpecLoop_type (k : TypeKw) (fuel : ℕ) (flags : CTInfo) (id : ℕ) (seen : Bool) (ts : List Token)
    (hlong : k = .long → ts.head? ≠ some .kwLong) (hfloat : seen = false → k = .complex → ts.head? ≠ some .kwFloat) :
    match k.effect id seen with
    | some (id', seen') => ∃ flags',
        declSpecLoop structOrUnion enum (fuel + 1) ⟨flags, id⟩ seen ⟨k.token :: ts, cts⟩ =
          declSpecLoop structOrUnion enum fuel ⟨flags', id'⟩ seen' ⟨ts, cts⟩
    | none => declSpecLoop structOrUnion enum (fuel + 1) ⟨flags, id⟩ seen ⟨k.token :: ts, cts⟩ =
        .ok (⟨flags, id⟩, ⟨k.token :: ts, cts⟩) := by
  cases k with
  | long =>
    refine ⟨flags ||| LONG, ?_⟩
    have hstep : declSpecLoop structOrUnion enum (fuel + 1) ⟨flags, id⟩ seen ⟨.kwLong :: ts, cts⟩ =
        declSpecLoop structOrUnion enum fuel ⟨flags ||| LONG, id⟩ seen ⟨takeToken .kwLong ts, cts⟩ := rfl
    rw [TypeKw.token, hstep, takeToken_of_ne (hlong rfl)]
  | complex =>
    cases seen with
    | true => rfl
    | false =>
      cases ts with
      | nil => exact ⟨_, rfl⟩
      | cons t ts => cases t <;> first | exact ⟨_, rfl⟩ | exact absurd rfl (hfloat rfl rfl)
  | signed => exact ⟨_, rfl⟩
  | unsigned => exact ⟨_, rfl⟩
  | bool => exact ⟨_, rfl⟩
  | short => rfl
  | _ =>
    cases seen with
    | true => rfl
    | false => exact ⟨_, rfl⟩

/-- A run that comes to the tokens behind a sequence, or that stops before them. -/
def Covers (ts : List Token) (run : Except String (DeclSpec × ParserState)) : Option (ℕ × Bool) → Prop
  | some (id, seen) => ∃ flags fuel, ts.length < fuel ∧
      run = declSpecLoop structOrUnion enum fuel ⟨flags, id⟩ seen ⟨ts, cts⟩
  | none => ∃ decl rest, rest ≠ [] ∧ run = .ok (decl, ⟨rest ++ ts, cts⟩)

theorem tokensOf_cons (spec : Specifier) (specs : List Specifier) (ts : List Token) :
    tokensOf (spec :: specs) ++ ts = spec.tokens ++ (tokensOf specs ++ ts) := by
  rw [tokensOf, List.flatMap_cons, List.append_assoc]
  rfl

/-- The first token behind a keyword is the keyword of the next specifier. -/
theorem head_tokensOf {specs : List Specifier} {ts : List Token} {k : TypeKw} (hts : ts.head? ≠ some k.token)
    (hne : ∀ specs', specs ≠ .type k :: specs') : (tokensOf specs ++ ts).head? ≠ some k.token := by
  cases specs with
  | nil => exact hts
  | cons spec specs =>
    rw [tokensOf_cons]
    cases spec with
    | type k' =>
      intro h
      have hk : k'.token = k.token := Option.some.inj h
      refine hne specs ?_
      cases k <;> cases k' <;> first | rfl | cases hk
    | qual q =>
      intro h
      have hk : q.token = k.token := Option.some.inj h
      cases k <;> cases q <;> cases hk
    | attr args =>
      intro h
      have hk : Token.kwAttribute = k.token := Option.some.inj h
      cases k <;> cases hk

/-- The fuel behind a specifier. -/
theorem fuel_succ {spec : Specifier} {specs : List Specifier} {ts : List Token} {fuel : ℕ}
    (h : (tokensOf (spec :: specs) ++ ts).length < fuel) :
    ∃ n, fuel = n + 1 ∧ (tokensOf specs ++ ts).length < n := by
  have hpos : 0 < spec.tokens.length := by cases spec <;> exact Nat.succ_pos _
  rw [tokensOf_cons, List.length_append] at h
  exact ⟨fuel - 1, by omega, by omega⟩

/-- The loop on a sequence with plain attributes. -/
theorem declSpecLoop_scan (specs : List Specifier) (hplain : ∀ spec ∈ specs, spec.Plain) {ts : List Token}
    (hts : Apart ts) (fuel : ℕ) (flags : CTInfo) (id : ℕ) (seen : Bool) (hfuel : (tokensOf specs ++ ts).length < fuel) :
    Covers structOrUnion enum cts ts
      (declSpecLoop structOrUnion enum fuel ⟨flags, id⟩ seen ⟨tokensOf specs ++ ts, cts⟩) (scan specs id seen) := by
  fun_induction scan specs id seen generalizing fuel flags with
  | case1 id seen => exact ⟨flags, fuel, hfuel, rfl⟩
  | case2 q specs id seen ih =>
    obtain ⟨n, rfl, hn⟩ := fuel_succ hfuel
    obtain ⟨flags', hstep⟩ := declSpecLoop_qual structOrUnion enum cts q n flags id seen (tokensOf specs ++ ts)
    have hrun := ih (fun spec h => hplain spec (List.mem_cons_of_mem _ h)) n flags' hn
    rw [← hstep] at hrun
    exact hrun
  | case3 args specs id seen ih =>
    obtain ⟨n, rfl, hn⟩ := fuel_succ hfuel
    have hargs := hplain _ List.mem_cons_self
    have hrun := ih (fun spec h => hplain spec (List.mem_cons_of_mem _ h)) n flags hn
    rw [tokensOf_cons, declSpecLoop_attr structOrUnion enum cts args hargs.2]
    exact hrun
  | case4 specs id seen ih =>
    obtain ⟨n, rfl, hn⟩ := fuel_succ hfuel
    obtain ⟨m, hm, hm'⟩ := fuel_succ hn
    exact ih (fun spec h => hplain spec (List.mem_cons_of_mem _ (List.mem_cons_of_mem _ h))) n (flags ||| LONG)
      (by omega)
  | case5 specs id ih =>
    obtain ⟨n, rfl, hn⟩ := fuel_succ hfuel
    obtain ⟨m, hm, hm'⟩ := fuel_succ hn
    exact ih (fun spec h => hplain spec (List.mem_cons_of_mem _ (List.mem_cons_of_mem _ h))) n flags (by omega)
  | case6 k specs id seen hlong hfloat id' seen' heffect ih =>
    obtain ⟨n, rfl, hn⟩ := fuel_succ hfuel
    have hstep := declSpecLoop_type structOrUnion enum cts k n flags id seen (tokensOf specs ++ ts)
      (fun hk => head_tokensOf hts.1 fun specs' hs => hlong specs' hs hk)
      (fun hseen hk => head_tokensOf hts.2 fun specs' hs => hfloat specs' hseen hs hk)
    rw [heffect] at hstep
    obtain ⟨flags', hstep⟩ := hstep
    have hrun := ih (fun spec h => hplain spec (List.mem_cons_of_mem _ h)) n flags' hn
    rw [← hstep] at hrun
    exact hrun
  | case7 k specs id seen hlong hfloat heffect =>
    obtain ⟨n, rfl, hn⟩ := fuel_succ hfuel
    have hstep := declSpecLoop_type structOrUnion enum cts k n flags id seen (tokensOf specs ++ ts)
      (fun hk => head_tokensOf hts.1 fun specs' hs => hlong specs' hs hk)
      (fun hseen hk => head_tokensOf hts.2 fun specs' hs => hfloat specs' hseen hs hk)
    rw [heffect] at hstep
    exact ⟨_, k.token :: tokensOf specs, List.cons_ne_nil _ _, hstep⟩

/-! ### Attributes with parentheses -/

/-- How many more parentheses open than close. -/
def opened (ts : List Token) : ℤ := (ts.map fun t => if t = .lParen then 1 else if t = .rParen then -1 else 0).sum

theorem opened_cons (t : Token) (ts : List Token) :
    opened (t :: ts) = (if t = .lParen then 1 else if t = .rParen then -1 else 0) + opened ts := by
  rw [opened, opened, List.map_cons, List.sum_cons]

theorem opened_append (ts ts' : List Token) : opened (ts ++ ts') = opened ts + opened ts' := by
  rw [opened, opened, opened, List.map_append, List.sum_append]

theorem opened_nonneg {ts : List Token} (h : Token.rParen ∉ ts) : 0 ≤ opened ts := by
  induction ts with
  | nil => exact le_rfl
  | cons t ts ih =>
    have hle := ih fun ht => h (List.mem_cons_of_mem _ ht)
    have hne : t ≠ .rParen := fun ht => h (ht ▸ List.mem_cons_self)
    rw [opened_cons, if_neg hne]
    split_ifs <;> omega

/-- The first closing parenthesis. -/
theorem split_of_opened_neg {ts : List Token} (h : opened ts < 0) :
    ∃ as bs, ts = as ++ .rParen :: bs ∧ Token.rParen ∉ as := by
  refine List.eq_append_cons_of_mem (by_contra fun hn => ?_)
  exact absurd (opened_nonneg hn) (Int.not_le.mpr h)

theorem takeToken_rParen {ts : List Token} (h : opened ts < -1) (rest : List Token) :
    ∃ ts', takeToken .rParen (ts ++ rest) = ts' ++ rest ∧ ts' <:+ ts ∧ opened ts' < 0 := by
  cases ts with
  | nil => cases h
  | cons t ts =>
    rw [opened_cons] at h
    by_cases ht : t = .rParen
    · subst ht
      exact ⟨ts, rfl, List.suffix_cons .., by simp at h; omega⟩
    · refine ⟨t :: ts, takeToken_of_ne fun he => ht (Option.some.inj he), List.suffix_rfl, ?_⟩
      rw [opened_cons]
      omega

theorem skipAttribute_of_ne {ts : List Token} (h : ts.head? ≠ some .lParen) : skipAttribute ts = ts := by
  cases ts with
  | nil => rfl
  | cons t ts => cases t <;> first | rfl | exact absurd rfl h

theorem skipAttribute_single {ts : List Token} (h : ts.head? ≠ some .lParen) :
    skipAttribute (.lParen :: ts) = takeToken .rParen ts := by
  cases ts with
  | nil => rfl
  | cons t ts => cases t <;> first | rfl | exact absurd rfl h

/-- An attribute in text with an unmatched closing parenthesis ends in this text, before such a parenthesis. -/
theorem skipAttribute_unclosed {ts : List Token} (h : opened ts < 0) (rest : List Token) :
    ∃ ts', skipAttribute (ts ++ rest) = ts' ++ rest ∧ ts' <:+ ts ∧ opened ts' < 0 := by
  cases ts with
  | nil => cases h
  | cons t ts =>
    by_cases ht : t = .lParen
    · subst ht
      rw [opened_cons, if_pos rfl] at h
      cases ts with
      | nil => cases h
      | cons t ts =>
        by_cases ht : t = .lParen
        · subst ht
          rw [opened_cons, if_pos rfl] at h
          obtain ⟨as, bs, rfl, has⟩ := split_of_opened_neg (show opened ts < 0 by omega)
          have hle := opened_nonneg has
          rw [opened_append, opened_cons, if_neg (by decide), if_pos rfl] at h
          obtain ⟨ts', htake, hsuffix, hneg⟩ := takeToken_rParen (show opened bs < -1 by omega) rest
          refine ⟨ts', ?_, ?_, hneg⟩
          · rw [← htake, ← skipAttribute_args has]
            simp
          · refine hsuffix.trans ((List.suffix_cons .rParen bs).trans ((List.suffix_append as _).trans ?_))
            exact (List.suffix_cons ..).trans (List.suffix_cons ..)
        · obtain ⟨ts', htake, hsuffix, hneg⟩ := takeToken_rParen (show opened (t :: ts) < -1 by omega) rest
          refine ⟨ts', ?_, hsuffix.trans (List.suffix_cons ..), hneg⟩
          rw [← htake]
          exact skipAttribute_single fun he => ht (Option.some.inj he)
    · exact ⟨t :: ts, skipAttribute_of_ne fun he => ht (Option.some.inj he), List.suffix_rfl, h⟩

/-- The loop stops before an unmatched closing parenthesis. -/
theorem declSpecLoop_unclosed (fuel : ℕ) (decl : DeclSpec) (seen : Bool) {ts : List Token} (rest : List Token)
    (hneg : opened ts < 0) (hno : .kwStruct ∉ ts ∧ .kwUnion ∉ ts ∧ .kwEnum ∉ ts) (hfuel : ts.length < fuel) :
    ∃ decl' ts', ts' ≠ [] ∧
      declSpecLoop structOrUnion enum fuel decl seen ⟨ts ++ rest, cts⟩ = .ok (decl', ⟨ts' ++ rest, cts⟩) := by
  induction fuel generalizing decl seen ts with
  | zero => exact absurd hfuel (Nat.not_lt_zero _)
  | succ fuel ih =>
    have hsub : ∀ (decl : DeclSpec) (seen : Bool) (ts' : List Token), ts' <:+ ts → ts'.length < ts.length → opened ts' < 0 →
        ∃ decl' ts'', ts'' ≠ [] ∧
          declSpecLoop structOrUnion enum fuel decl seen ⟨ts' ++ rest, cts⟩ = .ok (decl', ⟨ts'' ++ rest, cts⟩) := by
      intro decl seen ts' hs hlt hneg'
      exact ih decl seen hneg' ⟨fun h => hno.1 (hs.subset h), fun h => hno.2.1 (hs.subset h), fun h => hno.2.2 (hs.subset h)⟩
        (by omega)
    cases ts with
    | nil => cases hneg
    | cons t ts =>
      have hstop : ∃ decl' ts', ts' ≠ [] ∧ (Except.ok (decl, ⟨t :: ts ++ rest, cts⟩) : Except String (DeclSpec × ParserState)) =
          .ok (decl', ⟨ts' ++ rest, cts⟩) := ⟨decl, t :: ts, List.cons_ne_nil _ _, rfl⟩
      have hnext : t ≠ .lParen → t ≠ .rParen → ∀ decl seen, ∃ decl' ts', ts' ≠ [] ∧
          declSpecLoop structOrUnion enum fuel decl seen ⟨ts ++ rest, cts⟩ = .ok (decl', ⟨ts' ++ rest, cts⟩) := by
        intro hl hr decl seen
        rw [opened_cons, if_neg hl, if_neg hr, Int.zero_add] at hneg
        exact hsub decl seen ts (List.suffix_cons ..) (Nat.lt_succ_self _) hneg
      have htwo : ∀ {t' : Token} {ts' : List Token}, ts = t' :: ts' → t ≠ .lParen → t ≠ .rParen → t' ≠ .lParen →
          t' ≠ .rParen → ∀ decl seen, ∃ decl' ts'', ts'' ≠ [] ∧
            declSpecLoop structOrUnion enum fuel decl seen ⟨ts' ++ rest, cts⟩ = .ok (decl', ⟨ts'' ++ rest, cts⟩) := by
        intro t' ts' hts hl hr hl' hr' decl seen
        subst hts
        rw [opened_cons, if_neg hl, if_neg hr, opened_cons, if_neg hl', if_neg hr', Int.zero_add, Int.zero_add] at hneg
        exact hsub decl seen ts' ((List.suffix_cons ..).trans (List.suffix_cons ..))
          (by simp only [List.length_cons]; omega) hneg
      cases t with
      | kwConst => exact hnext (by simp) (by simp) _ _
      | kwVolatile => exact hnext (by simp) (by simp) _ _
      | kwCdecl => exact hnext (by simp) (by simp) _ _
      | kwStdcall => exact hnext (by simp) (by simp) _ _
      | kwFastcall => exact hnext (by simp) (by simp) _ _
      | kwRestrict => exact hnext (by simp) (by simp) _ _
      | kwInline => exact hnext (by simp) (by simp) _ _
      | kwExtension => exact hnext (by simp) (by simp) _ _
      | kwUnsigned => exact hnext (by simp) (by simp) _ _
      | kwSigned => exact hnext (by simp) (by simp) _ _
      | kwBool => exact hnext (by simp) (by simp) _ _
      | kwAttribute =>
        rw [opened_cons, if_neg (by simp), if_neg (by simp), Int.zero_add] at hneg
        obtain ⟨ts', hskip, hsuffix, hneg'⟩ := skipAttribute_unclosed hneg rest
        have hstep : declSpecLoop structOrUnion enum (fuel + 1) decl seen ⟨.kwAttribute :: ts ++ rest, cts⟩ =
            declSpecLoop structOrUnion enum fuel decl seen ⟨skipAttribute (ts ++ rest), cts⟩ := rfl
        rw [hstep, hskip]
        exact hsub decl seen ts' (hsuffix.trans (List.suffix_cons ..)) (Nat.lt_succ_of_le hsuffix.length_le) hneg'
      | kwLong =>
        have hstep : declSpecLoop structOrUnion enum (fuel + 1) decl seen ⟨.kwLong :: ts ++ rest, cts⟩ =
            declSpecLoop structOrUnion enum fuel { decl with flags := decl.flags ||| LONG } seen
              ⟨takeToken .kwLong (ts ++ rest), cts⟩ := rfl
        cases ts with
        | nil => cases hneg
        | cons t ts =>
          by_cases ht : t = .kwLong
          · subst ht
            exact htwo rfl (by simp) (by simp) (by simp) (by simp) _ _
          · have hne : (t :: ts ++ rest).head? ≠ some .kwLong := fun he => ht (Option.some.inj he)
            rw [hstep, takeToken_of_ne hne]
            exact hnext (by simp) (by simp) _ _
      | kwComplex =>
        cases seen with
        | true => exact hstop
        | false =>
          cases ts with
          | nil => cases hneg
          | cons t ts =>
            cases t with
            | kwFloat => exact htwo rfl (by simp) (by simp) (by simp) (by simp) _ _
            | _ => exact hnext (by simp) (by simp) _ _
      | kwStruct => exact absurd List.mem_cons_self hno.1
      | kwUnion => exact absurd List.mem_cons_self hno.2.1
      | kwEnum => exact absurd List.mem_cons_self hno.2.2
      | ident name =>
        cases seen with
        | true => exact hstop
        | false =>
          rw [List.cons_append, declSpecLoop_ident]
          cases typeName cts name with
          | none => exact hstop
          | some id => exact hnext (by simp) (by simp) _ _
      | kwVoid | kwChar | kwInt | kwFloat | kwDouble =>
        cases seen with
        | true => exact hstop
        | false => exact hnext (by simp) (by simp) _ _
      | _ => exact hstop

end Loop
end LuajitRs.Ffi
