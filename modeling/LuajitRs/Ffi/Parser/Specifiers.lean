import LuajitRs.Ffi.Parser.Scan
import Mathlib.Data.List.Permutation

/-! The types that C gives to its keyword combinations, against the ones that `parse_decl_spec` leaves. The parser
collects `unsigned`, `long` and `bool` in flags that no later step reads, it does not know `short`, and it knows a
complex type by `complex float` only; `quick_type_id` has the right type for the same names. -/
namespace LuajitRs.Ffi
open CTInfo

/-! ### The types of C -/

/-- The types that C names by keywords. -/
inductive Basic
  | void | char | schar | uchar | short | ushort | int | uint | long | ulong | llong | ullong
  | float | double | ldouble | bool | cfloat | cdouble | cldouble
  deriving DecidableEq, Repr

/-- The combinations that name a type, in any order. -/
def Basic.names : Basic → List (List TypeKw)
  | void => [[.void]]
  | char => [[.char]]
  | schar => [[.signed, .char]]
  | uchar => [[.unsigned, .char]]
  | short => [[.short], [.signed, .short], [.short, .int], [.signed, .short, .int]]
  | ushort => [[.unsigned, .short], [.unsigned, .short, .int]]
  | int => [[.int], [.signed], [.signed, .int]]
  | uint => [[.unsigned], [.unsigned, .int]]
  | long => [[.long], [.signed, .long], [.long, .int], [.signed, .long, .int]]
  | ulong => [[.unsigned, .long], [.unsigned, .long, .int]]
  | llong => [[.long, .long], [.signed, .long, .long], [.long, .long, .int], [.signed, .long, .long, .int]]
  | ullong => [[.unsigned, .long, .long], [.unsigned, .long, .long, .int]]
  | float => [[.float]]
  | double => [[.double]]
  | ldouble => [[.long, .double]]
  | bool => [[.bool]]
  | cfloat => [[.complex, .float]]
  | cdouble => [[.complex, .double]]
  | cldouble => [[.complex, .long, .double]]

/-- The sizes on x86-64. -/
def Basic.size : Basic → ℕ
  | void => unknownSize
  | char | schar | uchar | bool => 1
  | short | ushort => 2
  | int | uint | float => 4
  | long | ulong | llong | ullong | double | cfloat => 8
  | ldouble | cdouble => 16
  | cldouble => 32

def Basic.unsigned : Basic → Bool
  | uchar | ushort | uint | ulong | ullong | bool => true
  | _ => false

def TypeKw.text : TypeKw → String
  | void => "void" | char => "char" | short => "short" | int => "int" | long => "long" | signed => "signed"
  | unsigned => "unsigned" | bool => "bool" | float => "float" | double => "double" | complex => "complex"

/-- A combination written as one name. -/
def oneName (kws : List TypeKw) : String := String.intercalate " " (kws.map TypeKw.text)

/-- Parentheses close in order, and there is no struct, union or enum in between. -/
structure Arguments (args : List Token) : Prop where
  closed : opened args = 0
  inOrder : ∀ p, p <+: args → 0 ≤ opened p
  noTag : Token.kwStruct ∉ args ∧ Token.kwUnion ∉ args ∧ Token.kwEnum ∉ args

/-- The specifiers of a type: its keywords in any order, between qualifiers and attributes. -/
structure Specifies (b : Basic) (specs : List Specifier) : Prop where
  keywords : ∃ kws ∈ b.names, (keywords specs).Perm kws
  attributes : ∀ args, .attr args ∈ specs → Arguments args

/-- The tokens that belong to declaration specifiers, names aside. -/
def SPECIFIERS : List Token :=
  [.kwVoid, .kwChar, .kwShort, .kwInt, .kwLong, .kwFloat, .kwDouble, .kwSigned, .kwUnsigned, .kwBool, .kwComplex,
    .kwStruct, .kwUnion, .kwEnum, .kwConst, .kwVolatile, .kwCdecl, .kwStdcall, .kwFastcall, .kwRestrict, .kwInline,
    .kwAttribute, .kwExtension]

/-- What comes behind the specifiers. -/
def Behind (ts : List Token) : Prop := ∀ t ∈ ts.head?, t ∉ SPECIFIERS

section
variable (structOrUnion enum : ParserState → Except String (ℕ × ParserState)) (cts : CTState)

/-- The parser takes all specifiers, and the type has the size and the sign of the C type and is the one of its
names. -/
def ReadsAs (b : Basic) (specs : List Specifier) (ts : List Token) : Prop :=
  ∃ decl, parseDeclSpec structOrUnion enum ⟨tokensOf specs ++ ts, cts⟩ = .ok (decl, ⟨ts, cts⟩) ∧
    (cts.get decl.typeId).size = b.size ∧
    ((cts.get decl.typeId).info &&& UNSIGNED ≠ 0 ↔ b.unsigned = true) ∧
    ∀ kws ∈ b.names, ∀ id, quickTypeId (oneName kws) = some id → decl.typeId = id

/-- The specifiers that the parser reads as C does. -/
def Readable (b : Basic) (specs : List Specifier) (ts : List Token) : Prop :=
  (∀ spec ∈ specs, spec.Plain) ∧
    (b = .void ∨ b = .char ∨ b = .float ∨ b = .double ∨
      (b = .int ∧ (.int ∈ keywords specs ∨ ∀ name ts', ts = .ident name :: ts' → typeName cts name = none)) ∨
      (b = .cfloat ∧ [.type .complex, .type .float] <:+: specs))

end

/-! ### Keywords without complex types -/

theorem keywords_cons_type (k : TypeKw) (specs : List Specifier) :
    keywords (.type k :: specs) = k :: keywords specs := rfl

theorem keywords_append (specs specs' : List Specifier) : keywords (specs ++ specs') = keywords specs ++ keywords specs' :=
  List.filterMap_append ..

/-- The effects of keywords one after the other. -/
def effects (kws : List TypeKw) (id : ℕ) (seen : Bool) : Option (ℕ × Bool) :=
  kws.foldlM (fun p k => k.effect p.1 p.2) (id, seen)

/-- Without complex types the sequence has the effects of its keywords. -/
theorem scan_eq_effects (specs : List Specifier) (id : ℕ) (seen : Bool) (h : .complex ∉ keywords specs) :
    scan specs id seen = effects (keywords specs) id seen := by
  fun_induction scan specs id seen with
  | case1 id seen => rfl
  | case2 q specs id seen ih => exact ih h
  | case3 args specs id seen ih => exact ih h
  | case4 specs id seen ih => exact ih fun hc => h (List.mem_cons_of_mem _ (List.mem_cons_of_mem _ hc))
  | case5 specs id ih => exact absurd List.mem_cons_self h
  | case6 k specs id seen hlong hfloat id' seen' heffect ih =>
    rw [keywords_cons_type, effects, List.foldlM_cons, heffect]
    exact ih fun hc => h (List.mem_cons_of_mem _ hc)
  | case7 k specs id seen hlong hfloat heffect =>
    rw [keywords_cons_type, effects, List.foldlM_cons, heffect]
    rfl

/-- The type ids that the loop leaves. -/
def LOOP_IDS : List ℕ :=
  [CTypeID.int32, CTypeID.int8, CTypeID.void, CTypeID.cchar, CTypeID.float, CTypeID.double, CTypeID.complexDouble,
    CTypeID.complexFloat]

theorem effect_mem {k : TypeKw} {id id' : ℕ} {seen seen' : Bool} (hid : id ∈ LOOP_IDS)
    (h : k.effect id seen = some (id', seen')) : id' ∈ LOOP_IDS := by
  cases k <;> cases seen <;> cases h <;> first | exact hid | decide

theorem scan_mem {specs : List Specifier} {id id' : ℕ} {seen seen' : Bool} (hid : id ∈ LOOP_IDS)
    (h : scan specs id seen = some (id', seen')) : id' ∈ LOOP_IDS := by
  fun_induction scan specs id seen with
  | case1 id seen =>
    cases h
    exact hid
  | case2 q specs id seen ih => exact ih hid h
  | case3 args specs id seen ih => exact ih hid h
  | case4 specs id seen ih => exact ih hid h
  | case5 specs id ih => exact ih (by decide) h
  | case6 k specs id seen hlong hfloat id' seen' heffect ih => exact ih (effect_mem hid heffect) h
  | case7 k specs id seen hlong hfloat heffect => cases h

/-! ### Keywords with complex types -/

theorem effect_seen {k : TypeKw} {id id' : ℕ} {seen' : Bool} (h : k.effect id true = some (id', seen')) :
    seen' = true := by
  cases k <;> cases h <;> rfl

/-- Behind a type there is no second one. -/
theorem scan_seen {specs : List Specifier} {id : ℕ} {r : ℕ × Bool} (h : scan specs id true = some r) :
    ∀ k ∈ keywords specs, k.effect 0 true ≠ none := by
  generalize hseen : true = seen at h
  fun_induction scan specs id seen with
  | case1 id seen =>
    intro k hk
    cases hk
  | case2 q specs id seen ih => exact ih hseen h
  | case3 args specs id seen ih => exact ih hseen h
  | case4 specs id seen ih =>
    intro k hk
    obtain rfl | hk := List.mem_cons.mp hk
    · exact Option.some_ne_none _
    obtain rfl | hk := List.mem_cons.mp hk
    · exact Option.some_ne_none _
    exact ih hseen h k hk
  | case5 specs id ih => cases hseen
  | case6 k specs id seen hlong hfloat id' seen' heffect ih =>
    subst hseen
    intro k' hk
    obtain rfl | hk := List.mem_cons.mp hk
    · cases k' <;> cases heffect <;> exact Option.some_ne_none _
    · obtain rfl := effect_seen heffect
      exact ih rfl h k' hk
  | case7 k specs id seen hlong hfloat heffect => cases h

/-- A complex type is `complex float` in one, and never with `double`. -/
theorem scan_complex {specs : List Specifier} {id : ℕ} {r : ℕ × Bool} (h : scan specs id false = some r)
    (hc : .complex ∈ keywords specs) :
    .double ∉ keywords specs ∧ (.float ∈ keywords specs → [.type .complex, .type .float] <:+: specs) := by
  generalize hseen : false = seen at h
  fun_induction scan specs id seen with
  | case1 id seen => cases hc
  | case2 q specs id seen ih =>
    obtain ⟨hd, hf⟩ := ih hc hseen h
    exact ⟨hd, fun hk => (hf hk).trans (List.suffix_cons ..).isInfix⟩
  | case3 args specs id seen ih =>
    obtain ⟨hd, hf⟩ := ih hc hseen h
    exact ⟨hd, fun hk => (hf hk).trans (List.suffix_cons ..).isInfix⟩
  | case4 specs id seen ih =>
    rw [keywords_cons_type, keywords_cons_type] at hc ⊢
    obtain ⟨hd, hf⟩ := ih (by simpa using hc) hseen h
    refine ⟨by simpa using hd, fun hk => ?_⟩
    exact (hf (by simpa using hk)).trans ((List.suffix_cons ..).trans (List.suffix_cons ..)).isInfix
  | case5 specs id ih =>
    have hrest := scan_seen h
    refine ⟨?_, fun _ => ⟨[], specs, rfl⟩⟩
    intro hd
    rw [keywords_cons_type, keywords_cons_type] at hd
    exact hrest .double (by simpa using hd) rfl
  | case6 k specs id seen hlong hfloat id' seen' heffect ih =>
    subst hseen
    cases seen' with
    | true =>
      have hrest := scan_seen h
      rw [keywords_cons_type] at hc ⊢
      have hk : k = .complex := by
        obtain hk | hk := List.mem_cons.mp hc
        · exact hk.symm
        · exact absurd rfl (hrest .complex hk)
      subst hk
      refine ⟨fun hd => ?_, fun hf => ?_⟩
      · exact hrest .double (by simpa using hd) rfl
      · exact absurd rfl (hrest .float (by simpa using hf))
    | false =>
      have hk : k = .signed ∨ k = .unsigned ∨ k = .long := by
        cases k <;> first | exact .inl rfl | exact .inr (.inl rfl) | exact .inr (.inr rfl) | cases heffect
      obtain ⟨hd, hf⟩ := ih (by rcases hk with rfl | rfl | rfl <;> simpa [keywords_cons_type] using hc) rfl h
      refine ⟨by rcases hk with rfl | rfl | rfl <;> simpa [keywords_cons_type] using hd, fun hfl => ?_⟩
      refine (hf ?_).trans (List.suffix_cons ..).isInfix
      rcases hk with rfl | rfl | rfl <;> simpa [keywords_cons_type] using hfl
  | case7 k specs id seen hlong hfloat heffect => cases h

theorem scan_append {pre : List Specifier} (h : keywords pre = []) (specs : List Specifier) (id : ℕ) (seen : Bool) :
    scan (pre ++ specs) id seen = scan specs id seen := by
  induction pre with
  | nil => rfl
  | cons spec pre ih =>
    cases spec with
    | type k => cases h
    | qual q => exact ih h
    | attr args => exact ih h

/-- `complex float` with qualifiers and attributes around it. -/
theorem scan_complexFloat {specs : List Specifier} (hk : (keywords specs).Perm [.complex, .float])
    (hi : [.type .complex, .type .float] <:+: specs) :
    scan specs CTypeID.int32 false = some (CTypeID.complexFloat, true) := by
  obtain ⟨pre, post, rfl⟩ := hi
  have hlen := hk.length_eq
  have hmid : (keywords [.type .complex, .type .float]).length = 2 := rfl
  rw [keywords_append, keywords_append, List.length_append, List.length_append, hmid, List.length_cons,
    List.length_singleton] at hlen
  have hpre : keywords pre = [] := List.eq_nil_of_length_eq_zero (by omega)
  have hpost : keywords post = [] := List.eq_nil_of_length_eq_zero (by omega)
  have hscan := scan_append hpost [] CTypeID.complexFloat true
  rw [List.append_nil] at hscan
  rw [List.append_assoc, scan_append hpre]
  exact hscan

/-! ### Behind the specifiers -/

section
variable (structOrUnion enum : ParserState → Except String (ℕ × ParserState)) (cts : CTState)

theorem Behind.apart {ts : List Token} (h : Behind ts) : Apart ts := by
  constructor
  · intro ht
    exact h _ ht (by decide)
  · intro ht
    exact h _ ht (by decide)

/-- The loop ends behind the specifiers, unless it takes the declared name for a type. -/
theorem declSpecLoop_behind {ts : List Token} (h : Behind ts) (fuel : ℕ) (decl : DeclSpec) (seen : Bool)
    (hname : seen = true ∨ ∀ name ts', ts = .ident name :: ts' → typeName cts name = none) :
    declSpecLoop structOrUnion enum (fuel + 1) decl seen ⟨ts, cts⟩ = .ok (decl, ⟨ts, cts⟩) := by
  cases ts with
  | nil => rfl
  | cons t ts =>
    have hout := h t rfl
    cases t with
    | ident name =>
      cases seen with
      | true => rfl
      | false =>
        obtain hname | hname := hname
        · cases hname
        · rw [declSpecLoop_ident, hname name ts rfl]
    | _ => first | rfl | exact absurd (by decide) hout

theorem length_takeToken (tok : Token) (ts : List Token) : (takeToken tok ts).length ≤ ts.length := by
  cases ts with
  | nil => exact le_rfl
  | cons t ts =>
    rw [takeToken]
    split_ifs
    · exact Nat.le_succ _
    · exact le_rfl

theorem length_skipAttribute (ts : List Token) : (skipAttribute ts).length ≤ ts.length := by
  rw [skipAttribute.eq_def]
  split
  · next ts =>
    have hdrop := (List.dropWhile_suffix (l := ts) (· ≠ .rParen)).length_le
    have htake := length_takeToken .rParen (ts.dropWhile (· ≠ .rParen))
    have htake' := length_takeToken .rParen (takeToken .rParen (ts.dropWhile (· ≠ .rParen)))
    simp only [List.length_cons]
    omega
  · next ts _ =>
    have htake := length_takeToken .rParen ts
    rw [List.length_cons]
    omega
  · exact le_rfl

/-- Behind a type the loop never goes back in the text. -/
theorem length_declSpecLoop (fuel : ℕ) (decl decl' : DeclSpec) (s s' : ParserState)
    (h : declSpecLoop structOrUnion enum fuel decl true s = .ok (decl', s')) : s'.tokens.length ≤ s.tokens.length := by
  induction fuel generalizing decl s with
  | zero => cases h
  | succ fuel ih =>
    obtain ⟨ts, cts⟩ := s
    cases ts with
    | nil =>
      cases h
      exact le_rfl
    | cons t ts =>
      cases t with
      | kwAttribute => exact (ih _ _ h).trans ((length_skipAttribute ts).trans (Nat.le_succ _))
      | kwLong => exact (ih _ _ h).trans ((length_takeToken .kwLong ts).trans (Nat.le_succ _))
      | _ =>
        first
          | exact (ih _ _ h).trans (Nat.le_succ _)
          | (cases h; exact le_rfl)

/-- A declared name that is a known type belongs to the specifiers for the parser. -/
theorem declSpecLoop_name {name : String} {ts : List Token} {id : ℕ} (h : typeName cts name = some id) (fuel : ℕ)
    (decl decl' : DeclSpec) :
    declSpecLoop structOrUnion enum (fuel + 1) decl false ⟨.ident name :: ts, cts⟩ ≠
      .ok (decl', ⟨.ident name :: ts, cts⟩) := by
  rw [declSpecLoop_ident, h]
  intro hrun
  have hlen := length_declSpecLoop structOrUnion enum _ _ _ _ _ hrun
  exact absurd hlen (Nat.not_le_of_lt (Nat.lt_succ_self _))

/-! ### Attributes with parentheses in their arguments -/

theorem opened_tokensOf {specs : List Specifier} (h : ∀ args, .attr args ∈ specs → Arguments args) :
    opened (tokensOf specs) = 0 := by
  induction specs with
  | nil => rfl
  | cons spec specs ih =>
    have hspec : opened spec.tokens = 0 := by
      cases spec with
      | type k => cases k <;> rfl
      | qual q => cases q <;> rfl
      | attr args =>
        have hargs := (h args List.mem_cons_self).closed
        simp [Specifier.tokens, opened_cons, opened_append, hargs]
        rfl
    rw [tokensOf, List.flatMap_cons, opened_append, hspec, Int.zero_add]
    exact ih fun args ha => h args (List.mem_cons_of_mem _ ha)

theorem noTag_tokensOf {specs : List Specifier} (h : ∀ args, .attr args ∈ specs → Arguments args) :
    .kwStruct ∉ tokensOf specs ∧ .kwUnion ∉ tokensOf specs ∧ .kwEnum ∉ tokensOf specs := by
  have hspec : ∀ spec ∈ specs, .kwStruct ∉ spec.tokens ∧ .kwUnion ∉ spec.tokens ∧ .kwEnum ∉ spec.tokens := by
    intro spec hs
    cases spec with
    | type k => cases k <;> decide
    | qual q => cases q <;> decide
    | attr args =>
      have hargs := (h args hs).noTag
      simpa [Specifier.tokens] using hargs
  refine ⟨fun ht => ?_, fun ht => ?_, fun ht => ?_⟩ <;> obtain ⟨spec, hs, ht⟩ := List.mem_flatMap.mp ht
  · exact (hspec spec hs).1 ht
  · exact (hspec spec hs).2.1 ht
  · exact (hspec spec hs).2.2 ht

/-- The first attribute with parentheses in its arguments. -/
theorem exists_first_attr {specs : List Specifier} (h : ¬ ∀ spec ∈ specs, spec.Plain) :
    ∃ pre args post, specs = pre ++ .attr args :: post ∧ (∀ spec ∈ pre, spec.Plain) ∧ ¬ (Specifier.attr args).Plain := by
  induction specs with
  | nil => exact absurd (fun _ hs => nomatch hs) h
  | cons spec specs ih =>
    by_cases hspec : spec.Plain
    · obtain ⟨pre, args, post, rfl, hpre, hargs⟩ := ih fun hall => h fun s hs => by
        obtain rfl | hs := List.mem_cons.mp hs
        · exact hspec
        · exact hall s hs
      refine ⟨spec :: pre, args, post, rfl, fun s hs => ?_, hargs⟩
      obtain rfl | hs := List.mem_cons.mp hs
      · exact hspec
      · exact hpre s hs
    · cases spec with
      | attr args => exact ⟨[], args, specs, rfl, nofun, hspec⟩
      | type k => exact absurd trivial hspec
      | qual q => exact absurd trivial hspec

/-- The arguments of the attribute end too early, at the first closing parenthesis. -/
theorem skipAttribute_nested {args : List Token} (ha : Arguments args) (hn : ¬ (Specifier.attr args).Plain)
    (post : List Token) (hpost : opened post = 0) (ts : List Token) :
    ∃ ts', skipAttribute (.lParen :: .lParen :: (args ++ [.rParen, .rParen]) ++ (post ++ ts)) = ts' ++ ts ∧
      ts' <:+ args ++ [.rParen, .rParen] ++ post ∧ opened ts' < 0 := by
  have hmem : Token.rParen ∈ args := by
    by_contra hr
    refine hn ⟨fun hl => ?_, hr⟩
    obtain ⟨as, bs, rfl⟩ := List.append_of_mem hl
    have hbs : 0 ≤ opened bs := opened_nonneg fun hb => hr (by simp [hb])
    have has : 0 ≤ opened as := opened_nonneg fun hb => hr (by simp [hb])
    have hclosed := ha.closed
    rw [opened_append, opened_cons, if_pos rfl] at hclosed
    omega
  obtain ⟨as, bs, rfl, has⟩ := List.eq_append_cons_of_mem hmem
  have hprefix := ha.inOrder (as ++ [.rParen]) ⟨bs, by simp⟩
  have hclosed := ha.closed
  have hr : opened [Token.rParen] = -1 := rfl
  have hrr : opened [Token.rParen, .rParen] = -2 := rfl
  rw [opened_append, hr] at hprefix
  rw [List.append_cons, opened_append, opened_append, hr] at hclosed
  obtain ⟨ts', htake, hsuffix, hneg⟩ := takeToken_rParen
    (show opened (bs ++ [.rParen, .rParen] ++ post) < -1 by rw [opened_append, opened_append, hrr, hpost]; omega) ts
  refine ⟨ts', ?_, hsuffix.trans ⟨as ++ [.rParen], by simp⟩, hneg⟩
  rw [← htake, ← skipAttribute_args has]
  simp

theorem not_readsAs_of_nested {b : Basic} {specs : List Specifier} (hs : Specifies b specs)
    (hn : ¬ ∀ spec ∈ specs, spec.Plain) (ts : List Token) : ¬ ReadsAs structOrUnion enum cts b specs ts := by
  rintro ⟨decl, hrun, -⟩
  obtain ⟨pre, args, post, rfl, hpre, hargs⟩ := exists_first_attr hn
  have hattrs : ∀ args', .attr args' ∈ post → Arguments args' := fun args' ha =>
    hs.attributes args' (List.mem_append_right _ (List.mem_cons_of_mem _ ha))
  have ha : Arguments args := hs.attributes args (List.mem_append_right _ List.mem_cons_self)
  have htokens : tokensOf (pre ++ .attr args :: post) ++ ts =
      tokensOf pre ++ ((Specifier.attr args).tokens ++ (tokensOf post ++ ts)) := by
    rw [tokensOf, List.flatMap_append, List.append_assoc]
    exact congrArg (tokensOf pre ++ ·) (tokensOf_cons _ _ _)
  rw [parseDeclSpec, htokens] at hrun
  have hapart : Apart ((Specifier.attr args).tokens ++ (tokensOf post ++ ts)) := by
    constructor <;> rintro ⟨⟩
  have hcovers := declSpecLoop_scan structOrUnion enum cts pre hpre hapart _ 0 CTypeID.int32 false (Nat.lt_succ_self _)
  rw [DeclSpec.new] at hrun
  rw [hrun] at hcovers
  cases hscan : scan pre CTypeID.int32 false with
  | none =>
    rw [hscan] at hcovers
    obtain ⟨decl', rest, -, heq⟩ := hcovers
    have htail : ts = rest ++ ((Specifier.attr args).tokens ++ (tokensOf post ++ ts)) := by
      injection heq with heq
      injection heq with _ heq
      injection heq
    have hlen := congrArg List.length htail
    simp only [List.length_append, Specifier.tokens, List.length_cons] at hlen
    omega
  | some p =>
    obtain ⟨id, seen⟩ := p
    rw [hscan] at hcovers
    obtain ⟨flags, fuel, hfuel, heq⟩ := hcovers
    obtain ⟨fuel, rfl⟩ : ∃ n, fuel = n + 1 := ⟨fuel - 1, by omega⟩
    have hstep : declSpecLoop structOrUnion enum (fuel + 1) ⟨flags, id⟩ seen
        ⟨(Specifier.attr args).tokens ++ (tokensOf post ++ ts), cts⟩ =
        declSpecLoop structOrUnion enum fuel ⟨flags, id⟩ seen
          ⟨skipAttribute (.lParen :: .lParen :: (args ++ [.rParen, .rParen]) ++ (tokensOf post ++ ts)), cts⟩ := rfl
    obtain ⟨ts', hskip, hsuffix, hneg⟩ := skipAttribute_nested ha hargs (tokensOf post) (opened_tokensOf hattrs) ts
    have hnoTag : .kwStruct ∉ ts' ∧ .kwUnion ∉ ts' ∧ .kwEnum ∉ ts' := by
      have hpost := noTag_tokensOf hattrs
      have hargs := ha.noTag
      refine ⟨fun h => ?_, fun h => ?_, fun h => ?_⟩ <;> have h := hsuffix.subset h <;>
        simp only [List.mem_append, List.mem_cons, List.not_mem_nil, or_false] at h <;> tauto
    have hlen := hsuffix.length_le
    simp only [Specifier.tokens, List.length_append, List.length_cons] at hfuel hlen
    obtain ⟨decl', ts'', hne, hend⟩ := declSpecLoop_unclosed structOrUnion enum cts fuel ⟨flags, id⟩ seen ts hneg hnoTag
      (by omega)
    rw [hstep, hskip, hend] at heq
    have htail : ts = ts'' ++ ts := by
      injection heq with heq
      injection heq with _ heq
      injection heq
    exact hne (List.self_eq_append_left.mp htail)

/-! ### The types that the parser leaves -/

/-- The declared name is no known type. -/
def FreshName (ts : List Token) : Prop := ∀ name ts', ts = .ident name :: ts' → typeName cts name = none

/-- The type id has the size and the sign of the C type and is the one of its names. -/
def IsType (b : Basic) (id : ℕ) : Prop :=
  (cts.get id).size = b.size ∧ ((cts.get id).info &&& UNSIGNED ≠ 0 ↔ b.unsigned = true) ∧
    ∀ kws ∈ b.names, ∀ id', quickTypeId (oneName kws) = some id' → id = id'

theorem readsAs_iff_scan (b : Basic) {specs : List Specifier} (hplain : ∀ spec ∈ specs, spec.Plain) {ts : List Token}
    (hb : Behind ts) : ReadsAs structOrUnion enum cts b specs ts ↔ ∃ id seen,
      scan specs CTypeID.int32 false = some (id, seen) ∧ (seen = true ∨ FreshName cts ts) ∧ IsType cts b id := by
  have hcovers := declSpecLoop_scan structOrUnion enum cts specs hplain hb.apart _ 0 CTypeID.int32 false
    (Nat.lt_succ_self _)
  have hparse : parseDeclSpec structOrUnion enum ⟨tokensOf specs ++ ts, cts⟩ =
      declSpecLoop structOrUnion enum ((tokensOf specs ++ ts).length + 1) ⟨0, CTypeID.int32⟩ false
        ⟨tokensOf specs ++ ts, cts⟩ := rfl
  rw [ReadsAs, hparse]
  cases hscan : scan specs CTypeID.int32 false with
  | none =>
    rw [hscan] at hcovers
    obtain ⟨decl, rest, hrest, hrun⟩ := hcovers
    constructor
    · rintro ⟨decl', hrun', -⟩
      rw [hrun] at hrun'
      injection hrun' with heq
      injection heq with _ heq
      injection heq with heq
      exact absurd (List.append_left_eq_self.mp heq) hrest
    · rintro ⟨_, _, h, -⟩
      cases h
  | some p =>
    obtain ⟨id, seen⟩ := p
    rw [hscan] at hcovers
    obtain ⟨flags, fuel, hfuel, hrun⟩ := hcovers
    obtain ⟨fuel, rfl⟩ : ∃ n, fuel = n + 1 := ⟨fuel - 1, by omega⟩
    rw [hrun]
    by_cases hname : seen = true ∨ FreshName cts ts
    · rw [declSpecLoop_behind structOrUnion enum cts hb fuel ⟨flags, id⟩ seen hname]
      constructor
      · rintro ⟨decl, heq, htype⟩
        cases heq
        exact ⟨id, seen, rfl, hname, htype⟩
      · rintro ⟨id', seen', heq, -, htype⟩
        cases heq
        exact ⟨_, rfl, htype⟩
    · constructor
      · rintro ⟨decl, heq, -⟩
        obtain ⟨hseen, hfresh⟩ := not_or.mp hname
        obtain rfl : seen = false := Bool.not_eq_true _ ▸ hseen
        simp only [FreshName, not_forall] at hfresh
        obtain ⟨name, ts', rfl, hknown⟩ := hfresh
        obtain ⟨id', hid'⟩ := Option.ne_none_iff_exists'.mp hknown
        exact absurd heq (declSpecLoop_name structOrUnion enum cts hid' fuel _ _)
      · rintro ⟨id', seen', heq, hname', -⟩
        cases heq
        exact absurd hname' hname

end

section
variable {cts : CTState}

theorem get_predefined (hcts : predefined.take 19 <+: cts.tab) {id : ℕ} (h : id < 19) :
    cts.get id = CTState.new.get id := by
  obtain ⟨tab, htab⟩ := hcts
  have hlen : (predefined.take 19).length = 19 := rfl
  rw [CTState.get, CTState.get, ← htab, List.getD_eq_getElem?_getD, List.getD_eq_getElem?_getD,
    List.getElem?_append_left (by omega), List.getElem?_take_of_lt h]
  rfl

/-- Whether every name of the C type that `quick_type_id` knows has the type id. -/
def agrees (b : Basic) (id : ℕ) : Bool := b.names.all fun kws => (quickTypeId (oneName kws)).all (· = id)

theorem isType_of_agrees (hcts : predefined.take 19 <+: cts.tab) {b : Basic} {id : ℕ} (hid : id < 19)
    (h : (CTState.new.get id).size = b.size ∧
      ((CTState.new.get id).info &&& UNSIGNED ≠ 0 ↔ b.unsigned = true) ∧ agrees b id = true) : IsType cts b id := by
  rw [IsType, get_predefined hcts hid]
  refine ⟨h.1, h.2.1, fun kws hk id' hq => ?_⟩
  have hall := List.all_eq_true.mp h.2.2 kws hk
  rw [hq] at hall
  exact (of_decide_eq_true hall).symm

/-- A name of the C type whose type the loop never leaves. -/
theorem not_isType {b : Basic} {kws : List TypeKw} {q id : ℕ} (hk : kws ∈ b.names)
    (hq : quickTypeId (oneName kws) = some q) (hout : q ∉ LOOP_IDS) (hid : id ∈ LOOP_IDS) : ¬ IsType cts b id := by
  intro h
  have heq := h.2.2 kws hk q hq
  exact hout (heq ▸ hid)

theorem perm_pair {l : List TypeKw} {a b : TypeKw} (h : l.Perm [a, b]) : l = [a, b] ∨ l = [b, a] := by
  obtain ⟨x, y, rfl⟩ := List.length_eq_two.mp h.length_eq
  have hx : x ∈ [a, b] := h.subset List.mem_cons_self
  obtain rfl | hx := List.mem_cons.mp hx
  · left
    rw [List.singleton_perm_singleton.mp ((List.perm_cons x).mp h)]
  · right
    obtain rfl := List.mem_singleton.mp hx
    rw [List.singleton_perm_singleton.mp ((List.perm_cons x).mp (h.trans (.swap ..)))]

end

section
variable {cts : CTState} {specs : List Specifier} {ts : List Token} {b : Basic} {id : ℕ} {seen : Bool}

/-- Keywords without complex types leave what their effects leave. -/
theorem scan_of_keywords {kws : List TypeKw} {r : ℕ × Bool} (hk : keywords specs = kws) (hc : .complex ∉ kws)
    (hr : effects kws CTypeID.int32 false = some r) : scan specs CTypeID.int32 false = some r := by
  rw [scan_eq_effects specs _ _ (hk ▸ hc), hk, hr]

theorem readable_of_isType (hcts : predefined.take 19 <+: cts.tab) (hs : ∃ kws ∈ b.names, (keywords specs).Perm kws)
    (hscan : scan specs CTypeID.int32 false = some (id, seen)) (hname : seen = true ∨ FreshName cts ts)
    (htype : IsType cts b id) : b = .void ∨ b = .char ∨ b = .float ∨ b = .double ∨
      (b = .int ∧ (.int ∈ keywords specs ∨ FreshName cts ts)) ∨
      (b = .cfloat ∧ [.type .complex, .type .float] <:+: specs) := by
  have hid : id ∈ LOOP_IDS := scan_mem (by decide) hscan
  have hout : ∀ kws q, kws ∈ b.names → quickTypeId (oneName kws) = some q → q ∉ LOOP_IDS → False :=
    fun kws q hk hq hn => not_isType hk hq hn hid htype
  obtain ⟨kws, hrow, hperm⟩ := hs
  cases b with
  | void => exact .inl rfl
  | char => exact .inr (.inl rfl)
  | float => exact .inr (.inr (.inl rfl))
  | double => exact .inr (.inr (.inr (.inl rfl)))
  | uchar => exact (hout [.unsigned, .char] _ (by decide) rfl (by decide)).elim
  | short => exact (hout [.short] _ (by decide) rfl (by decide)).elim
  | ushort => exact (hout [.unsigned, .short] _ (by decide) rfl (by decide)).elim
  | uint => exact (hout [.unsigned] _ (by decide) rfl (by decide)).elim
  | long => exact (hout [.long] _ (by decide) rfl (by decide)).elim
  | ulong => exact (hout [.unsigned, .long] _ (by decide) rfl (by decide)).elim
  | llong => exact (hout [.long, .long] _ (by decide) rfl (by decide)).elim
  | ullong => exact (hout [.unsigned, .long, .long] _ (by decide) rfl (by decide)).elim
  | bool => exact (hout [.bool] _ (by decide) rfl (by decide)).elim
  | schar =>
    obtain rfl := List.mem_singleton.mp hrow
    have hcchar : scan specs CTypeID.int32 false = some (CTypeID.cchar, true) := by
      obtain hk | hk := perm_pair hperm <;> exact scan_of_keywords hk (by decide) rfl
    rw [hcchar] at hscan
    cases hscan
    cases htype.2.2 _ List.mem_cons_self CTypeID.int8 rfl
  | ldouble =>
    obtain rfl := List.mem_singleton.mp hrow
    have hdouble : scan specs CTypeID.int32 false = some (CTypeID.double, true) := by
      obtain hk | hk := perm_pair hperm <;> exact scan_of_keywords hk (by decide) rfl
    rw [hdouble] at hscan
    cases hscan
    have hsize := htype.1
    rw [get_predefined hcts (by decide)] at hsize
    exact absurd hsize (by decide)
  | int =>
    refine .inr (.inr (.inr (.inr (.inl ⟨rfl, ?_⟩))))
    simp only [Basic.names, List.mem_cons, List.not_mem_nil, or_false] at hrow
    obtain rfl | rfl | rfl := hrow
    · exact .inl (hperm.symm.subset (by decide))
    · have hk := scan_of_keywords (List.perm_singleton.mp hperm) (by decide) rfl
      rw [hk] at hscan
      cases hscan
      exact .inr (hname.resolve_left nofun)
    · exact .inl (hperm.symm.subset (by decide))
  | cfloat =>
    obtain rfl := List.mem_singleton.mp hrow
    refine .inr (.inr (.inr (.inr (.inr ⟨rfl, ?_⟩))))
    exact (scan_complex hscan (hperm.symm.subset (by decide))).2 (hperm.symm.subset (by decide))
  | cdouble =>
    obtain rfl := List.mem_singleton.mp hrow
    exact absurd (hperm.symm.subset (by decide)) (scan_complex hscan (hperm.symm.subset (by decide))).1
  | cldouble =>
    obtain rfl := List.mem_singleton.mp hrow
    exact absurd (hperm.symm.subset (by decide)) (scan_complex hscan (hperm.symm.subset (by decide))).1

theorem isType_of_readable (hcts : predefined.take 19 <+: cts.tab) (hs : ∃ kws ∈ b.names, (keywords specs).Perm kws)
    (h : b = .void ∨ b = .char ∨ b = .float ∨ b = .double ∨
      (b = .int ∧ (.int ∈ keywords specs ∨ FreshName cts ts)) ∨
      (b = .cfloat ∧ [.type .complex, .type .float] <:+: specs)) :
    ∃ id seen, scan specs CTypeID.int32 false = some (id, seen) ∧ (seen = true ∨ FreshName cts ts) ∧ IsType cts b id := by
  obtain ⟨kws, hrow, hperm⟩ := hs
  have hscan : ∀ {kws id}, keywords specs = kws → .complex ∉ kws → effects kws CTypeID.int32 false = some (id, true) →
      IsType cts b id → ∃ id seen, scan specs CTypeID.int32 false = some (id, seen) ∧ (seen = true ∨ FreshName cts ts) ∧
        IsType cts b id :=
    fun hk hc hr htype => ⟨_, true, scan_of_keywords hk hc hr, .inl rfl, htype⟩
  obtain rfl | rfl | rfl | rfl | ⟨rfl, hint⟩ | ⟨rfl, hi⟩ := h
  · obtain rfl := List.mem_singleton.mp hrow
    exact hscan (List.perm_singleton.mp hperm) (by decide) rfl (isType_of_agrees hcts (by decide) (by decide))
  · obtain rfl := List.mem_singleton.mp hrow
    exact hscan (List.perm_singleton.mp hperm) (by decide) rfl (isType_of_agrees hcts (by decide) (by decide))
  · obtain rfl := List.mem_singleton.mp hrow
    exact hscan (List.perm_singleton.mp hperm) (by decide) rfl (isType_of_agrees hcts (by decide) (by decide))
  · obtain rfl := List.mem_singleton.mp hrow
    exact hscan (List.perm_singleton.mp hperm) (by decide) rfl (isType_of_agrees hcts (by decide) (by decide))
  · have htype : IsType cts .int CTypeID.int32 := isType_of_agrees hcts (by decide) (by decide)
    simp only [Basic.names, List.mem_cons, List.not_mem_nil, or_false] at hrow
    obtain rfl | rfl | rfl := hrow
    · exact hscan (List.perm_singleton.mp hperm) (by decide) rfl htype
    · have hk := List.perm_singleton.mp hperm
      have hfresh : FreshName cts ts := hint.resolve_left (by rw [hk]; decide)
      exact ⟨_, _, scan_of_keywords hk (by decide) rfl, .inr hfresh, htype⟩
    · obtain hk | hk := perm_pair hperm <;> exact hscan hk (by decide) rfl htype
  · obtain rfl := List.mem_singleton.mp hrow
    exact ⟨_, true, scan_complexFloat hperm hi, .inl rfl, isType_of_agrees hcts (by decide) (by decide)⟩

end

section
variable (structOrUnion enum : ParserState → Except String (ℕ × ParserState)) (cts : CTState)

/-- The parser reads the specifiers of a C type as that type exactly when they are readable: no attribute has
parentheses in its arguments, and the type is `void`, `char`, `int`, `float` or `double`, or a complex type written
`complex float` in one. A bare `signed` must not stand before a name that is a known type. -/
theorem parseDeclSpec_readable (hcts : predefined.take 19 <+: cts.tab) {b : Basic} {specs : List Specifier}
    (hs : Specifies b specs) {ts : List Token} (hb : Behind ts) :
    ReadsAs structOrUnion enum cts b specs ts ↔ Readable cts b specs ts := by
  by_cases hplain : ∀ spec ∈ specs, spec.Plain
  · rw [readsAs_iff_scan structOrUnion enum cts b hplain hb, Readable, and_iff_right hplain]
    constructor
    · rintro ⟨id, seen, hscan, hname, htype⟩
      exact readable_of_isType hcts hs.keywords hscan hname htype
    · exact isType_of_readable hcts hs.keywords
  · exact iff_of_false (not_readsAs_of_nested structOrUnion enum cts hs hplain ts) fun h => hplain h.1

end

/-- `const __attribute__((packed)) char c`. -/
theorem parseDeclSpec_readable_char : ReadsAs (fun _ => .error "") (fun _ => .error "") .new .char
    [.qual .const, .attr [.ident "packed"], .type .char] [.ident "c"] := by
  refine (parseDeclSpec_readable _ _ .new ⟨_, rfl⟩ ⟨⟨[.char], List.mem_cons_self, .refl _⟩, ?_⟩ ?_).mpr ?_
  · intro args ha
    obtain rfl : args = [.ident "packed"] := by simpa using ha
    refine ⟨rfl, fun p hp => ?_, by decide⟩
    exact opened_nonneg fun hr => absurd (hp.subset hr) (by decide)
  · intro t ht
    cases ht
    decide
  · refine ⟨fun spec hs => ?_, .inr (.inl rfl)⟩
    simp only [List.mem_cons, List.not_mem_nil, or_false] at hs
    obtain rfl | rfl | rfl := hs
    · exact trivial
    · exact ⟨by decide, by decide⟩
    · exact trivial

/-- `unsigned int x` is read as a signed type. -/
theorem unsigned_int_misread : Specifies .uint [.type .unsigned, .type .int] ∧ Behind [.ident "x", .semicolon] ∧
    ¬ ReadsAs (fun _ => .error "") (fun _ => .error "") .new .uint [.type .unsigned, .type .int]
      [.ident "x", .semicolon] := by
  refine ⟨⟨⟨[.unsigned, .int], by decide, .refl _⟩, fun args ha => by simp at ha⟩, ?_, ?_⟩
  · intro t ht
    cases ht
    decide
  · rintro ⟨decl, hrun, -, hsign, -⟩
    have hdecl : decl = ⟨UNSIGNED, CTypeID.int32⟩ := by
      have hok : parseDeclSpec (fun _ => .error "") (fun _ => .error "")
          ⟨tokensOf [.type .unsigned, .type .int] ++ [.ident "x", .semicolon], .new⟩ =
          .ok (⟨UNSIGNED, CTypeID.int32⟩, ⟨[.ident "x", .semicolon], .new⟩) := rfl
      rw [hok] at hrun
      injection hrun with heq
      injection heq with heq
      exact heq.symm
    subst hdecl
    exact absurd (hsign.mpr rfl) (by decide)

end LuajitRs.Ffi
