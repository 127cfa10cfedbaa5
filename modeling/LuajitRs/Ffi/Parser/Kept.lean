import LuajitRs.Ffi.Parser
import LuajitRs.Lib.Ensures
import Mathlib.Data.List.GetD

/-! What a struct or union declaration keeps of the type table: it only adds entries, except that it may fill in the
entry of a tag. -/
namespace LuajitRs.Ffi
open CTInfo Lib Lib.Layout

namespace CTState

def tagIds (cts : CTState) : List ℕ := cts.tags.map Prod.snd

/-- Every tag has an entry. -/
def TagsBelow (cts : CTState) : Prop := ∀ id ∈ cts.tagIds, id < cts.tab.length

theorem tagsBelow_new : TagsBelow .new := by simp [TagsBelow, tagIds, new]

/-- Entries without a tag stay, and so do the tags; a new tag has a new entry. -/
structure Kept (cts cts' : CTState) : Prop where
  length : cts.tab.length ≤ cts'.tab.length
  get : ∀ id < cts.tab.length, id ∉ cts.tagIds → cts'.get id = cts.get id
  tags : ∀ id ∈ cts'.tagIds, id ∈ cts.tagIds ∨ cts.tab.length ≤ id
  below : cts'.TagsBelow

namespace Kept
variable {cts cts' cts'' : CTState}

theorem refl (h : cts.TagsBelow) : Kept cts cts := ⟨le_rfl, fun _ _ _ => rfl, fun _ h => .inl h, h⟩

theorem trans (h : Kept cts cts') (h' : Kept cts' cts'') : Kept cts cts'' where
  length := h.length.trans h'.length
  get id hlt hid := by
    have hid' : id ∉ cts'.tagIds := by
      intro hmem
      rcases h.tags id hmem with hold | hnew
      · exact hid hold
      · omega
    rw [h'.get id (hlt.trans_le h.length) hid', h.get id hlt hid]
  tags id hmem := by
    rcases h'.tags id hmem with hold | hnew
    · exact h.tags id hold
    · exact .inr (h.length.trans hnew)
  below := h'.below

/-- The table before the last entries. -/
theorem of_append {tab : List CType} (h : cts.TagsBelow) (htab : cts'.tab = cts.tab ++ tab)
    (htags : cts'.tags = cts.tags) : Kept cts cts' where
  length := by simp [htab]
  get id hlt _ := by rw [CTState.get, htab, List.getD_append _ _ _ _ hlt, CTState.get]
  tags id hmem := .inl (by rwa [tagIds, htags] at hmem)
  below id hmem := by
    have hlt := h id (by rwa [tagIds, htags] at hmem)
    simp only [htab, List.length_append]
    omega

end Kept

/-! ### New entries -/

section New
variable {cts : CTState} (h : cts.TagsBelow)
include h

theorem Kept.push (ct : CType) : Kept cts (cts.push ct).2 := by
  have htab : (cts.push ct).2.tab = cts.tab ++ [ct] := rfl
  exact .of_append h htab rfl

theorem Kept.makePtrType (id : ℕ) : Kept cts (cts.makePtrType id).2 := by
  simp only [CTState.makePtrType]
  split
  · exact .refl h
  · exact .push h _

theorem Kept.arrayType (elem size : ℕ) : Kept cts (cts.arrayType elem size).2 := by
  simp only [CTState.arrayType]
  split
  · exact .refl h
  · exact .push h _

theorem Kept.parsePointers (ts : List Token) (id : ℕ) : Kept cts (parsePointers ts id cts).2.1 := by
  induction ts generalizing id cts with
  | nil => exact .refl h
  | cons t ts ih =>
    cases t with
    | star =>
      have hptr := Kept.makePtrType h id
      exact hptr.trans (ih hptr.below _)
    | _ => exact .refl h

theorem Kept.fieldType (f : Field) : Kept cts (f.typeId cts).2 := by
  simp only [Field.typeId]
  split
  · exact .arrayType h _ _
  · exact .refl h

end New

theorem pushChecked_eq {cts : CTState} {ct : CType} {r : ℕ × CTState} (h : cts.pushChecked ct = .ok r) :
    r = cts.push ct := by
  simp only [pushChecked] at h
  split at h
  · exact (Except.ok.inj h).symm
  · cases h

theorem get_push (cts : CTState) (ct : CType) : (cts.push ct).2.get (cts.push ct).1 = ct := by
  simp [CTState.get, CTState.push]

end CTState

/-! ### Reading -/

/-- Tokens are taken from the front, and the table is kept. -/
structure Reads (s s' : ParserState) : Prop where
  tokens : s'.tokens <:+ s.tokens
  table : s.cts.TagsBelow → CTState.Kept s.cts s'.cts

namespace Reads
variable {s s' s'' : ParserState}

theorem skip {ts : List Token} (h : ts <:+ s.tokens) : Reads s { s with tokens := ts } := ⟨h, .refl⟩

theorem refl (s : ParserState) : Reads s s := skip (List.suffix_refl _)

theorem trans (h : Reads s s') (h' : Reads s' s'') : Reads s s'' where
  tokens := h'.tokens.trans h.tokens
  table hbelow := (h.table hbelow).trans (h'.table (h.table hbelow).below)

end Reads

theorem takeToken_suffix (tok : Token) (ts : List Token) : takeToken tok ts <:+ ts := by
  cases ts with
  | nil => exact List.suffix_refl _
  | cons t ts =>
    simp only [takeToken]
    split
    · exact List.suffix_cons _ _
    · exact List.suffix_refl _

theorem skipAttribute_suffix (ts : List Token) : skipAttribute ts <:+ ts := by
  simp only [skipAttribute]
  split
  · exact ((takeToken_suffix _ _).trans (takeToken_suffix _ _)).trans
      ((List.dropWhile_suffix _).trans ((List.suffix_cons _ _).trans (List.suffix_cons _ _)))
  · exact (takeToken_suffix _ _).trans (List.suffix_cons _ _)
  · exact List.suffix_refl _

section DeclSpec
variable {structOrUnion enum : ParserState → Except String (ℕ × ParserState)}
variable (hstruct : ∀ s r, structOrUnion s = .ok r → Reads s r.2) (henum : ∀ s r, enum s = .ok r → Reads s r.2)
include hstruct henum

/-- A turn of the loop ends it or goes on with fewer tokens. -/
theorem declSpecLoop_turn {fuel : ℕ} {decl : DeclSpec} {seen : Bool} {s : ParserState} {r : DeclSpec × ParserState}
    (h : declSpecLoop structOrUnion enum (fuel + 1) decl seen s = .ok r) :
    r = (decl, s) ∨ ∃ decl' seen' s', Reads s s' ∧ declSpecLoop structOrUnion enum fuel decl' seen' s' = .ok r := by
  obtain ⟨tokens, cts⟩ := s
  have hstop (h : Except.ok (ε := String) (decl, (⟨tokens, cts⟩ : ParserState)) = .ok r) :
      r = (decl, ⟨tokens, cts⟩) := (Except.ok.inj h).symm
  cases tokens with
  | nil => exact .inl (hstop h)
  | cons t ts =>
    have hskip {ts' : List Token} (hts : ts' <:+ ts) : Reads ⟨t :: ts, cts⟩ ⟨ts', cts⟩ :=
      .skip (hts.trans (List.suffix_cons t ts))
    have htake := hskip (List.suffix_refl ts)
    cases t with
    | kwConst | kwVolatile | kwUnsigned | kwSigned | kwCdecl | kwStdcall | kwFastcall | kwRestrict | kwInline
    | kwExtension | kwBool => exact .inr ⟨_, _, _, htake, h⟩
    | kwAttribute => exact .inr ⟨_, _, _, hskip (skipAttribute_suffix ts), h⟩
    | kwLong => exact .inr ⟨_, _, _, hskip (takeToken_suffix _ ts), h⟩
    | kwVoid | kwChar | kwInt | kwFloat | kwDouble =>
      cases seen with
      | true => exact .inl (hstop h)
      | false => exact .inr ⟨_, _, _, htake, h⟩
    | kwStruct | kwUnion =>
      cases seen with
      | true => exact .inl (hstop h)
      | false =>
        obtain ⟨⟨id, s'⟩, hr, h⟩ := bind_eq_ok.mp h
        exact .inr ⟨_, _, _, hstruct _ _ hr, h⟩
    | kwEnum =>
      cases seen with
      | true => exact .inl (hstop h)
      | false =>
        obtain ⟨⟨id, s'⟩, hr, h⟩ := bind_eq_ok.mp h
        exact .inr ⟨_, _, _, henum _ _ hr, h⟩
    | kwComplex =>
      cases seen with
      | true => exact .inl (hstop h)
      | false =>
        cases ts with
        | nil => exact .inr ⟨_, _, _, htake, h⟩
        | cons u us =>
          cases u with
          | kwFloat => exact .inr ⟨_, _, _, hskip (List.suffix_cons _ us), h⟩
          | _ => exact .inr ⟨_, _, _, htake, h⟩
    | ident name =>
      cases seen with
      | true => exact .inl (hstop h)
      | false =>
        rw [declSpecLoop_ident] at h
        cases hname : typeName cts name with
        | none =>
          rw [hname] at h
          exact .inl (hstop h)
        | some id =>
          rw [hname] at h
          exact .inr ⟨_, _, _, htake, h⟩
    | _ => exact .inl (hstop h)

theorem Reads.parseDeclSpec {s : ParserState} {r : DeclSpec × ParserState}
    (h : parseDeclSpec structOrUnion enum s = .ok r) : Reads s r.2 := by
  have hloop (fuel : ℕ) : ∀ decl seen s, declSpecLoop structOrUnion enum fuel decl seen s = .ok r → Reads s r.2 := by
    induction fuel with
    | zero => exact fun _ _ _ h => nomatch h
    | succ fuel ih =>
      intro decl seen s h
      rcases declSpecLoop_turn hstruct henum h with rfl | ⟨decl', seen', s', hread, h⟩
      · exact .refl s
      · exact hread.trans (ih _ _ _ h)
  exact hloop _ _ _ _ h

end DeclSpec

theorem expect_eq {tok : Token} {s s' : ParserState} (h : expect tok s = .ok s') :
    s.tokens = tok :: s'.tokens ∧ s'.cts = s.cts := by
  obtain ⟨tokens, cts⟩ := s
  cases tokens with
  | nil => cases h
  | cons t ts =>
    simp only [expect] at h
    split at h
    · rename_i ht
      cases h
      exact ⟨by rw [ht], rfl⟩
    · cases h

theorem Reads.expect {tok : Token} {s s' : ParserState} (h : expect tok s = .ok s') : Reads s s' := by
  obtain ⟨htokens, hcts⟩ := expect_eq h
  obtain ⟨tokens, cts⟩ := s'
  subst hcts
  exact .skip (htokens ▸ List.suffix_cons _ _)

theorem optionalTag_suffix (ts : List Token) : (optionalTag ts).2 <:+ ts := by
  cases ts with
  | nil => exact List.suffix_refl _
  | cons t ts =>
    cases t with
    | ident tag => exact List.suffix_cons _ ts
    | _ => exact List.suffix_refl _

theorem enumBody_suffix {fuel : ℕ} {ts ts' : List Token} (h : enumBody fuel ts = .ok ts') : ts' <:+ ts := by
  induction fuel generalizing ts with
  | zero => cases h
  | succ fuel ih =>
    unfold enumBody at h
    split at h
    · cases h
      exact List.suffix_refl _
    · cases h
      exact List.suffix_refl _
    · exact (ih h).trans ((takeToken_suffix _ _).trans ((List.dropWhile_suffix _).trans
        ((List.suffix_cons _ _).trans (List.suffix_cons _ _))))
    · exact (ih h).trans ((takeToken_suffix _ _).trans (List.suffix_cons _ _))
    · exact (ih h).trans (takeToken_suffix _ _)

theorem Reads.parseEnum {s : ParserState} {r : ℕ × ParserState} (h : parseEnum s = .ok r) : Reads s r.2 := by
  rw [Ffi.parseEnum] at h
  have htag := optionalTag_suffix s.tokens.tail
  have hts := htag.trans (List.tail_suffix s.tokens)
  split at h
  · rename_i ts heq
    obtain ⟨ts', hbody, h⟩ := bind_eq_ok.mp h
    obtain ⟨s', hexpect, h⟩ := bind_eq_ok.mp h
    cases h
    have hskip : Reads s { s with tokens := ts' } :=
      .skip ((enumBody_suffix hbody).trans ((List.suffix_cons _ ts).trans (heq ▸ hts)))
    exact hskip.trans (.expect hexpect)
  · cases h
    exact .skip hts

/-! ### Fields -/

theorem parseBrackets_suffix (fuel : ℕ) (b : Brackets) (ts : List Token) : (parseBrackets fuel b ts).2 <:+ ts := by
  induction fuel generalizing b ts with
  | zero => exact List.suffix_refl _
  | succ fuel ih =>
    cases ts with
    | nil => exact List.suffix_refl _
    | cons t ts =>
      cases t with
      | lBracket =>
        exact (ih _ _).trans ((takeToken_suffix _ _).trans ((List.dropWhile_suffix _).trans (List.suffix_cons _ ts)))
      | _ => exact List.suffix_refl _

theorem parsePointers_suffix (ts : List Token) (id : ℕ) (cts : CTState) : (parsePointers ts id cts).2.2 <:+ ts := by
  induction ts generalizing id cts with
  | nil => exact List.suffix_refl _
  | cons t ts ih =>
    cases t with
    | star => exact (ih _ _).trans (List.suffix_cons _ ts)
    | _ => exact List.suffix_refl _

theorem endField_suffix (ts : List Token) : (endField ts).2 <:+ ts := by
  unfold endField
  extract_lets us
  have hus : us <:+ ts := by
    dsimp only [us]
    split
    · exact (List.dropWhile_suffix _).trans (List.suffix_cons _ _)
    · exact List.suffix_refl _
  have htake := (takeToken_suffix .comma us).trans hus
  split
  · rename_i us' heq
    exact (List.suffix_cons _ us').trans (heq ▸ htake)
  · exact htake

theorem fieldName_suffix (ts : List Token) : (fieldName ts).2 <:+ ts := by
  simp only [fieldName]
  split
  · rename_i us heq
    exact (List.suffix_cons _ us).trans (heq ▸ List.dropWhile_suffix _)
  · exact List.dropWhile_suffix _

/-- The entry of an array type, found or new. -/
theorem CTState.get_arrayType (cts : CTState) (elem size : ℕ) :
    ((cts.arrayType elem size).2.get (cts.arrayType elem size).1).info = ctInfo .array 0 ||| BitVec.ofNat 32 elem ∧
      ((cts.arrayType elem size).2.get (cts.arrayType elem size).1).size = size := by
  simp only [CTState.arrayType]
  split
  · rename_i id hid
    obtain ⟨hlt, hfound, -⟩ := List.findIdx?_eq_some_iff_getElem.mp hid
    have hget : cts.get id = cts.tab[id] := List.getD_eq_getElem _ _ hlt
    rw [hget]
    simpa using hfound
  · rw [CTState.get_push]
    exact ⟨rfl, rfl⟩

/-- The entry of the type of a field. -/
theorem Field.get_typeId {f : Field} {cts : CTState} (hentry : f.entry = cts.get f.elem) :
    ((f.typeId cts).2.get (f.typeId cts).1).info = f.typeInfo ∧
      ((f.typeId cts).2.get (f.typeId cts).1).size = f.typeSize := by
  simp only [Field.typeId, Field.typeInfo, Field.typeSize]
  split
  · exact CTState.get_arrayType cts f.elem _
  · rw [hentry]
    exact ⟨rfl, rfl⟩

/-- The body with one more field: the running size, the largest alignment and the entry of the field come from the
size and the alignment that the table has for it. -/
theorem Body.addField_eq {b b' : Body} {isUnion : Bool} {f : Field} {prev : Option ℕ}
    {cts cts' : CTState} (hentry : f.entry = cts.get f.elem)
    (h : b.addField isUnion f (f.typeId cts).1 prev (f.typeId cts).2 = .ok (b', cts')) :
    ∃ offset, offset = (if isUnion then 0 else alignUp b.totalSize f.recorded.align) ∧
      cts' = ((f.typeId cts).2.push
        ⟨ctInfo .field 0 ||| BitVec.ofNat 32 (f.typeId cts).1, offset % 2^32, 0⟩).2 ∧
      b' = { totalSize := if isUnion then max b.totalSize f.recorded.size
               else alignUp (offset + f.recorded.size) f.recorded.align
             maxAlign := max b.maxAlign f.recorded.align
             fieldInfos := if f.name = "" then b.fieldInfos
               else b.fieldInfos ++ [(f.name, (f.typeId cts).1, offset % 2^32)]
             fieldIds := b.fieldIds ++ [(f.typeId cts).2.tab.length]
             prevFdeclType := prev
             vlaMember := f.brackets.isVla
             fields := b.fields ++ [f] } := by
  obtain ⟨hinfo, hsize⟩ := f.get_typeId hentry
  rw [Body.addField, hinfo, hsize] at h
  obtain ⟨⟨id, cts''⟩, hpush, h⟩ := bind_eq_ok.mp h
  have hpush := CTState.pushChecked_eq hpush
  refine ⟨_, rfl, ?_, ?_⟩
  · exact ((Prod.mk.inj (Except.ok.inj h)).2.symm.trans (Prod.mk.inj hpush).2)
  · have hid : id = (f.typeId cts).2.tab.length := (Prod.mk.inj hpush).1
    subst hid
    rw [← (Prod.mk.inj (Except.ok.inj h)).1]
    cases isUnion with
    | true => simp [Field.recorded]
    | false => rfl

/-- The fields of a body have new entries, which no tag has. -/
structure Body.Fresh (b : Body) (cts₀ cts : CTState) : Prop where
  kept : CTState.Kept cts₀ cts
  fields : ∀ id ∈ b.fieldIds, cts₀.tab.length ≤ id ∧ id < cts.tab.length ∧ id ∉ cts.tagIds

namespace Body.Fresh
variable {b : Body} {cts₀ cts cts' : CTState}

theorem new (h : cts.TagsBelow) : Body.new.Fresh cts cts := ⟨.refl h, fun _ h => nomatch h⟩

theorem mono (h : b.Fresh cts₀ cts) (hkept : CTState.Kept cts cts') : b.Fresh cts₀ cts' where
  kept := h.kept.trans hkept
  fields id hid := by
    obtain ⟨hle, hlt, htag⟩ := h.fields id hid
    refine ⟨hle, hlt.trans_le hkept.length, ?_⟩
    intro hmem
    rcases hkept.tags id hmem with hold | hnew
    · exact htag hold
    · omega

theorem get_eq (h : b.Fresh cts₀ cts) (hkept : CTState.Kept cts cts') {id : ℕ} (hid : id ∈ b.fieldIds) :
    cts'.get id = cts.get id :=
  hkept.get id (h.fields id hid).2.1 (h.fields id hid).2.2

theorem addField {b' : Body} {isUnion : Bool} {f : Field} {prev : Option ℕ}
    (h : b.Fresh cts₀ cts) (hentry : f.entry = cts.get f.elem)
    (hadd : b.addField isUnion f (f.typeId cts).1 prev (f.typeId cts).2 = .ok (b', cts')) :
    b'.Fresh cts₀ cts' := by
  obtain ⟨offset, -, rfl, rfl⟩ := Body.addField_eq hentry hadd
  have htype := CTState.Kept.fieldType h.kept.below f
  have hpush := CTState.Kept.push htype.below
    ⟨ctInfo .field 0 ||| BitVec.ofNat 32 (f.typeId cts).1, offset % 2^32, 0⟩
  have hmono := h.mono (htype.trans hpush)
  refine ⟨hmono.kept, ?_⟩
  intro id hid
  rcases List.mem_append.mp hid with hid | hid
  · exact hmono.fields id hid
  · obtain rfl := List.mem_singleton.mp hid
    refine ⟨h.kept.length.trans htype.length, by simp [CTState.push], ?_⟩
    intro hmem
    exact (htype.below _ hmem).false

end Body.Fresh

section Body
variable {declSpec : ParserState → Except String (DeclSpec × ParserState)} {isUnion : Bool}
/-- A property of the body and the state that every turn keeps, from the start to the end of the loop. -/
theorem structBody_induction {P : Body → ParserState → Prop}
    (hstep : ∀ b s b' s', P b s → fieldStep declSpec isUnion b s = .ok (b', s') → P b' s') {turns : ℕ}
    {b b' : Body} {s s' : ParserState} (hP : P b s) (h : structBody declSpec isUnion turns b s = .ok (b', s')) :
    P b' s' := by
  induction turns generalizing b s with
  | zero =>
    rw [structBody] at h
    split at h
    · cases h
      exact hP
    · cases h
  | succ turns ih =>
    rw [structBody] at h
    split at h
    · cases h
      exact hP
    · obtain ⟨⟨b₁, s₁⟩, hfield, h⟩ := bind_eq_ok.mp h
      exact ih (hstep _ _ _ _ hP hfield) h

variable (hdecl : ∀ s r, declSpec s = .ok r → Reads s r.2)
include hdecl

/-- What a turn of the loop does: it reads up to the declarator, and adds a field of the type that it finds. -/
theorem fieldStep_cases {b b' : Body} {s s' : ParserState} (h : fieldStep declSpec isUnion b s = .ok (b', s')) :
    ∃ (f : Field) (prev : Option ℕ) (s₁ : ParserState), Reads s s₁ ∧ s'.tokens <:+ s₁.tokens ∧
      f.entry = s₁.cts.get f.elem ∧
      b.addField isUnion f (f.typeId s₁.cts).1 prev (f.typeId s₁.cts).2 = .ok (b', s'.cts) := by
  rw [fieldStep] at h
  split at h
  · cases h
  · obtain ⟨⟨typeId, s₀⟩, hspec, h⟩ := bind_eq_ok.mp h
    have hread : Reads s s₀ := by
      simp only [fieldSpec] at hspec
      split at hspec
      · cases hspec
        exact .refl s
      · obtain ⟨⟨decl, s₁⟩, hok, hspec⟩ := bind_eq_ok.mp hspec
        cases hspec
        exact hdecl _ _ hok
    have hpointers := parsePointers_suffix s₀.tokens typeId s₀.cts
    have hkept (hbelow : s₀.cts.TagsBelow) := CTState.Kept.parsePointers hbelow s₀.tokens typeId
    rcases hp : parsePointers s₀.tokens typeId s₀.cts with ⟨elem, cts, ts⟩
    simp only [hp] at h hpointers hkept
    split at h
    · cases h
    · obtain ⟨⟨b₁, cts₁⟩, hadd, h⟩ := bind_eq_ok.mp h
      obtain ⟨rfl, rfl⟩ := Prod.mk.inj (Except.ok.inj h)
      refine ⟨_, _, ⟨ts, cts⟩, hread.trans ⟨hpointers, hkept⟩, ?_, rfl, hadd⟩
      exact (endField_suffix _).trans ((parseBrackets_suffix _ _ _).trans (fieldName_suffix ts))

theorem Body.Fresh.fieldStep {b b' : Body} {s s' : ParserState} {cts₀ : CTState} (hfresh : b.Fresh cts₀ s.cts)
    (h : fieldStep declSpec isUnion b s = .ok (b', s')) : b'.Fresh cts₀ s'.cts := by
  obtain ⟨f, prev, s₁, hread, -, hentry, hadd⟩ := fieldStep_cases hdecl h
  have hmono := hfresh.mono (hread.table hfresh.kept.below)
  exact hmono.addField hentry hadd

theorem structBody_suffix {turns : ℕ} {b b' : Body} {s s' : ParserState}
    (h : structBody declSpec isUnion turns b s = .ok (b', s')) : s'.tokens <:+ s.tokens := by
  refine structBody_induction (P := fun _ s₁ => s₁.tokens <:+ s.tokens) ?_ (List.suffix_refl _) h
  intro b s₁ b' s₂ htokens hstep
  obtain ⟨_, _, s₃, hread, hrest, -, -⟩ := fieldStep_cases hdecl hstep
  exact (hrest.trans hread.tokens).trans htokens

/-- The fields of a body have new entries. -/
theorem structBody_fresh {turns : ℕ} {b' : Body} {s s' : ParserState} (hbelow : s.cts.TagsBelow)
    (h : structBody declSpec isUnion turns .new s = .ok (b', s')) : b'.Fresh s.cts s'.cts :=
  structBody_induction (P := fun b s₁ => b.Fresh s.cts s₁.cts)
    (fun _ _ _ _ hfresh hstep => hfresh.fieldStep hdecl hstep) (.new hbelow) h

end Body

/-! ### The end of a struct -/

theorem length_linkFields (ids : List ℕ) (tab : List CType) : (linkFields ids tab).length = tab.length := by
  induction ids generalizing tab with
  | nil => rfl
  | cons id ids ih => rw [linkFields, ih, List.length_modify]

/-- The links say nothing about any entry but those of the fields. -/
theorem getElem?_linkFields {ids : List ℕ} {i : ℕ} (hi : i ∉ ids) (tab : List CType) :
    (linkFields ids tab)[i]? = tab[i]? := by
  induction ids generalizing tab with
  | nil => rfl
  | cons id ids ih =>
    obtain ⟨hne, hi⟩ := not_or.mp (mt List.mem_cons.mpr hi)
    have hne : id ≠ i := Ne.symm hne
    simp [linkFields, ih hi, hne]

/-- Links keep offsets. -/
theorem size_linkFields (ids : List ℕ) (tab : List CType) (i : ℕ) :
    ((linkFields ids tab)[i]?).map CType.size = (tab[i]?).map CType.size := by
  induction ids generalizing tab with
  | nil => rfl
  | cons id ids ih =>
    rw [linkFields, ih, List.getElem?_modify]
    cases tab[i]? with
    | none => rfl
    | some ct =>
      simp only [Option.map_some, Option.map_eq_map]
      split <;> rfl

theorem mem_tagIds_of_lookup {cts : CTState} {tag : Option String} {id : ℕ}
    (h : (tag.bind fun tag => List.lookup tag cts.tags) = some id) : id ∈ cts.tagIds := by
  obtain ⟨tag, -, h⟩ := Option.bind_eq_some_iff.mp h
  obtain ⟨l₁, l₂, htags, -⟩ := List.lookup_eq_some_iff.mp h
  simp [CTState.tagIds, htags]

/-- The entry fills in that of its tag or is new. -/
theorem CTState.addStruct_cases {cts cts' : CTState} {tag : Option String} {entry : CType} {id : ℕ}
    (h : cts.addStruct tag entry = .ok (id, cts')) :
    (id ∈ cts.tagIds ∧ cts'.tab = cts.tab.set id entry ∧ cts'.tags = cts.tags) ∨
      (id = cts.tab.length ∧ cts'.tab = cts.tab ++ [entry] ∧
        cts'.tags = (tag.map fun tag => (tag, id)).toList ++ cts.tags) := by
  rw [CTState.addStruct] at h
  split at h
  · rename_i _ old hold
    obtain ⟨rfl, rfl⟩ := Prod.mk.inj (Except.ok.inj h)
    exact .inl ⟨mem_tagIds_of_lookup hold, rfl, rfl⟩
  · obtain ⟨⟨new, cts₁⟩, hpush, h⟩ := bind_eq_ok.mp h
    obtain ⟨rfl, rfl⟩ := Prod.mk.inj (Except.ok.inj h)
    obtain ⟨rfl, rfl⟩ := Prod.mk.inj (CTState.pushChecked_eq hpush)
    exact .inr ⟨rfl, rfl, rfl⟩

theorem CTState.get_addStruct {cts cts' : CTState} {tag : Option String} {entry : CType} {id : ℕ}
    (hbelow : cts.TagsBelow) (h : cts.addStruct tag entry = .ok (id, cts')) : cts'.get id = entry := by
  obtain ⟨hid, htab, -⟩ | ⟨rfl, htab, -⟩ := CTState.addStruct_cases h
  · have hlt : id < (cts.tab.set id entry).length := by simpa using hbelow id hid
    rw [CTState.get, htab, List.getD_eq_getElem _ _ hlt, List.getElem_set_self]
  · simp [CTState.get, htab]

theorem CTState.Kept.addStruct {cts cts' : CTState} {tag : Option String} {entry : CType} {id : ℕ}
    (hbelow : cts.TagsBelow) (h : cts.addStruct tag entry = .ok (id, cts')) : CTState.Kept cts cts' := by
  obtain ⟨hid, htab, htags⟩ | ⟨rfl, htab, htags⟩ := CTState.addStruct_cases h
  · refine ⟨by simp [htab], ?_, ?_, ?_⟩
    · intro i _ hi
      have hne : id ≠ i := by
        rintro rfl
        exact hi hid
      simp [CTState.get, htab, hne]
    · intro i hi
      rw [CTState.tagIds, htags] at hi
      exact .inl hi
    · intro i hi
      rw [CTState.tagIds, htags] at hi
      simpa [htab] using hbelow i hi
  · have htag {i : ℕ} (hi : i ∈ cts'.tagIds) : i = cts.tab.length ∨ i ∈ cts.tagIds := by
      rw [CTState.tagIds, htags, List.map_append, List.mem_append] at hi
      rcases hi with hi | hi
      · cases tag with
        | none => cases hi
        | some tag => exact .inl (List.mem_singleton.mp hi)
      · exact .inr hi
    refine ⟨by simp [htab], ?_, ?_, ?_⟩
    · intro i hlt _
      rw [CTState.get, htab, List.getD_append _ _ _ _ hlt, CTState.get]
    · intro i hi
      rcases htag hi with rfl | hi
      · exact .inr le_rfl
      · exact .inl hi
    · intro i hi
      rw [htab, List.length_append]
      rcases htag hi with rfl | hi
      · exact Nat.lt_succ_self _
      · exact Nat.lt_succ_of_lt (hbelow i hi)

/-- The links of the fields of a body touch no entry that was there before the body, and no offset. -/
theorem Body.Fresh.linkFields {b : Body} {cts₀ cts : CTState} (hfresh : b.Fresh cts₀ cts) :
    b.Fresh cts₀ { cts with tab := linkFields b.fieldIds cts.tab } := by
  have hlen := length_linkFields b.fieldIds cts.tab
  refine ⟨⟨?_, ?_, hfresh.kept.tags, ?_⟩, ?_⟩
  · rw [hlen]
    exact hfresh.kept.length
  · intro i hlt hi
    have hmem : i ∉ b.fieldIds := by
      intro hmem
      have hle := (hfresh.fields i hmem).1
      omega
    rw [← hfresh.kept.get i hlt hi, CTState.get, CTState.get, List.getD_eq_getElem?_getD, getElem?_linkFields hmem,
      List.getD_eq_getElem?_getD]
  · intro i hi
    rw [hlen]
    exact hfresh.kept.below i hi
  · intro i hi
    rw [hlen]
    exact hfresh.fields i hi

theorem size_get_linkFields (ids : List ℕ) (cts : CTState) (i : ℕ) :
    (CTState.get { cts with tab := linkFields ids cts.tab } i).size = (cts.get i).size := by
  have hsize := size_linkFields ids cts.tab i
  simp only [CTState.get, List.getD_eq_getElem?_getD]
  cases hold : cts.tab[i]? with
  | none =>
    rw [hold] at hsize
    rw [Option.map_eq_none_iff.mp hsize]
  | some ct =>
    rw [hold] at hsize
    obtain ⟨ct', hct', hsize⟩ := Option.map_eq_some_iff.mp hsize
    rw [hct']
    exact hsize

section Close
variable {b : Body} {isUnion : Bool} {tag : Option String} {cts₀ cts cts' : CTState} {id : ℕ}
variable (hfresh : b.Fresh cts₀ cts) (h : b.close isUnion tag cts = .ok (id, cts'))
include hfresh h

/-- Behind a struct the table is kept, the struct has its size and the fields their offsets. -/
theorem Body.Fresh.close : CTState.Kept cts₀ cts' ∧ (cts'.get id).size = alignUp b.totalSize b.maxAlign % 2^32 ∧
    ∀ i ∈ b.fieldIds, (cts'.get i).size = (cts.get i).size := by
  rw [Body.close] at h
  obtain ⟨⟨id', cts''⟩, hadd, h⟩ := bind_eq_ok.mp h
  obtain ⟨rfl, rfl⟩ := Prod.mk.inj (Except.ok.inj h)
  have hlink := hfresh.linkFields
  have hkept := CTState.Kept.addStruct hlink.kept.below hadd
  refine ⟨⟨?_, ?_, ?_, ?_⟩, ?_, ?_⟩
  · exact (hlink.kept.trans hkept).length
  · exact (hlink.kept.trans hkept).get
  · exact (hlink.kept.trans hkept).tags
  · exact hkept.below
  · exact congrArg CType.size (CTState.get_addStruct hlink.kept.below hadd)
  · intro i hi
    have hget := hlink.get_eq hkept hi
    exact (congrArg CType.size hget).trans (size_get_linkFields b.fieldIds cts i)

end Close

/-! ### Declarations inside each other -/

theorem completeStruct_cases {declSpec : ParserState → Except String (DeclSpec × ParserState)} {isUnion : Bool}
    {tag : Option String} {s s' : ParserState} {b : Body} {id : ℕ}
    (h : completeStruct declSpec isUnion tag s = .ok (b, id, s')) :
    ∃ s₁, structBody declSpec isUnion 10000 .new s = .ok (b, s₁) ∧ s₁.tokens = .rBrace :: s'.tokens ∧
      b.close isUnion tag s₁.cts = .ok (id, s'.cts) := by
  obtain ⟨⟨b', s₁⟩, hbody, h⟩ := bind_eq_ok.mp h
  obtain ⟨s₂, hexpect, h⟩ := bind_eq_ok.mp h
  obtain ⟨⟨id', cts⟩, hclose, h⟩ := bind_eq_ok.mp h
  obtain ⟨htokens, hcts⟩ := expect_eq hexpect
  cases h
  rw [hcts] at hclose
  exact ⟨s₁, hbody, htokens, hclose⟩

theorem Reads.completeStruct {declSpec : ParserState → Except String (DeclSpec × ParserState)} {isUnion : Bool}
    {tag : Option String} {s s' : ParserState} {b : Body} {id : ℕ}
    (hdecl : ∀ s r, declSpec s = .ok r → Reads s r.2)
    (h : completeStruct declSpec isUnion tag s = .ok (b, id, s')) : Reads s s' := by
  obtain ⟨s₁, hbody, htokens, hclose⟩ := completeStruct_cases h
  refine ⟨?_, ?_⟩
  · exact (htokens ▸ List.suffix_cons _ _ : s'.tokens <:+ s₁.tokens).trans (structBody_suffix hdecl hbody)
  · intro hbelow
    exact ((structBody_fresh hdecl hbelow hbody).close hclose).1

theorem Reads.forwardStruct {isUnion : Bool} {tag : Option String} {s : ParserState} {r : ℕ × ParserState}
    (h : forwardStruct isUnion tag s = .ok r) : Reads s r.2 := by
  rw [Ffi.forwardStruct] at h
  split at h
  · cases h
    exact .refl s
  · obtain ⟨⟨id, cts⟩, hadd, h⟩ := bind_eq_ok.mp h
    cases h
    exact ⟨List.suffix_refl _, fun hbelow => .addStruct hbelow hadd⟩

theorem Reads.parseStructOrUnion {depth : ℕ} {s : ParserState} {r : ℕ × ParserState}
    (h : parseStructOrUnion depth s = .ok r) : Reads s r.2 := by
  induction depth generalizing s r with
  | zero => cases h
  | succ depth ih =>
    have htag := (optionalTag_suffix s.tokens.tail).trans (List.tail_suffix s.tokens)
    rw [Ffi.parseStructOrUnion] at h
    simp only at h
    split at h
    · rename_i ts heq
      obtain ⟨⟨b, id, s'⟩, hcomplete, h⟩ := bind_eq_ok.mp h
      cases h
      have hdecl (s : ParserState) (r : DeclSpec × ParserState)
          (h : Ffi.parseDeclSpec (Ffi.parseStructOrUnion depth) Ffi.parseEnum s = .ok r) : Reads s r.2 :=
        .parseDeclSpec (fun _ _ => ih) (fun _ _ => .parseEnum) h
      have hread := Reads.completeStruct hdecl hcomplete
      exact (Reads.skip ((List.suffix_cons _ ts).trans (heq ▸ htag))).trans hread
    · exact (Reads.skip htag).trans (.forwardStruct h)

/-- The specifiers in front of a field. -/
theorem Reads.fieldDeclSpec {depth : ℕ} {s : ParserState} {r : DeclSpec × ParserState}
    (h : Ffi.parseDeclSpec (Ffi.parseStructOrUnion depth) Ffi.parseEnum s = .ok r) : Reads s r.2 :=
  .parseDeclSpec (fun _ _ => .parseStructOrUnion) (fun _ _ => .parseEnum) h

end LuajitRs.Ffi
