import LuajitRs.Ffi.Parser.Kept

/-! The layout of structs and unions next to that of the C ABI for x86-64. The code rounds offsets to the alignment
that the table has for the type of a field, which is one byte for every array and every name of a type. -/
namespace LuajitRs.Ffi
open CTInfo Lib Lib.Layout

/-! ### The ABI -/

/-- A C type as it was declared; a pointer is a basic type. -/
inductive Declared
  | basic (m : Member)
  | alias (target : Declared)
  | array (count : ℕ) (elem : Declared)
  | record (isUnion : Bool) (fields : List Declared)

mutual
/-- Size and alignment: an array or a name of a type has the alignment of its elements or its target, a struct the
largest one of its fields. -/
def Declared.abi : Declared → Member
  | .basic m => m
  | .alias t => t.abi
  | .array n t => ⟨n * t.abi.size, t.abi.align, t.abi.pos⟩
  | .record isUnion ts => whole isUnion (abiAll ts)

def abiAll : List Declared → List Member
  | [] => []
  | t :: ts => t.abi :: abiAll ts
end

section Abi
variable (env : ℕ → Declared) (dim : List Token → ℕ)

/-- The declared type of a field, when `env` tells what the types of the table were declared as and `dim` what the
tokens between brackets stand for. -/
def Field.declared (f : Field) : Declared := f.brackets.dims.foldr (fun ts t => .array (dim ts) t) (env f.elem)

/-- A member without a known length has no bytes of its own. -/
def Field.abi (f : Field) : Member :=
  ⟨if f.brackets.isVla then 0 else (f.declared env dim).abi.size, (f.declared env dim).abi.align,
    (f.declared env dim).abi.pos⟩

/-- Nothing is truncated, every field has the offset that the ABI gives it, under its name as well, and the struct
has the size of the ABI. -/
structure AbiLayout (isUnion : Bool) (b : Body) (id : ℕ) (cts : CTState) : Prop where
  sizes : ∀ f ∈ b.fields, f.recorded.size = (f.abi env dim).size
  offsets : b.fieldIds.map (fun i => (cts.get i).size) = offsets isUnion (b.fields.map (Field.abi env dim))
  names : ∀ p ∈ (b.fields.map Field.name).zip (Layout.offsets isUnion (b.fields.map (Field.abi env dim))),
    p.1 ≠ "" → ∃ typeId, ((id, p.1), (typeId, p.2)) ∈ cts.fieldNames
  size : (cts.get id).size = size isUnion (b.fields.map (Field.abi env dim))

/-- What the table has for the type of a field, and what the ABI says. -/
def Field.pair (f : Field) : Member × Member := (f.recorded, f.abi env dim)

/-- Rounding to the alignments in the table gives the offsets and the size that rounding to those of the ABI gives. -/
def AlignmentsAgree (isUnion : Bool) (ps : List (Member × Member)) : Prop :=
  if isUnion then
    alignUp (widest (ps.map Prod.snd)) (maxAlign (ps.map Prod.fst)) = size true (ps.map Prod.snd)
  else AgreeFrom (maxAlign (ps.map Prod.fst)) (maxAlign (ps.map Prod.snd)) 0 0 ps

instance (isUnion : Bool) (ps : List (Member × Member)) : Decidable (AlignmentsAgree isUnion ps) :=
  inferInstanceAs (Decidable (ite _ _ _))

end Abi

/-! ### What the code records -/

theorem Field.recorded_align_le (f : Field) : f.recorded.align ≤ 2^15 :=
  Nat.pow_le_pow_right two_pos (Nat.le_of_lt_succ (ctypeAlign_lt f.typeInfo))

/-- The running size of a body: every member is padded to its alignment. -/
def runningSize (isUnion : Bool) (ms : List Member) : ℕ :=
  if isUnion then widest ms else endFrom 0 (ms.map Member.padded)

/-- The variables of the loop, from the fields that were read. -/
structure Body.Laid (isUnion : Bool) (b : Body) (cts₀ cts : CTState) : Prop where
  fresh : b.Fresh cts₀ cts
  totalSize : b.totalSize = runningSize isUnion (b.fields.map Field.recorded)
  maxAlign : b.maxAlign = Layout.maxAlign (b.fields.map Field.recorded)
  offsets : b.fieldIds.map (fun i => (cts.get i).size) =
    (Layout.offsets isUnion ((b.fields.map Field.recorded).map Member.padded)).map (· % 2^32)
  infos : b.fieldInfos.map (fun p => (p.1, p.2.2)) =
    ((b.fields.map Field.name).zip (b.fieldIds.map fun i => (cts.get i).size)).filter (·.1 ≠ "")

namespace Body.Laid
variable {isUnion : Bool} {b b' : Body} {cts₀ cts cts' : CTState}

theorem new (h : cts.TagsBelow) : Body.new.Laid isUnion cts cts := by
  refine ⟨.new h, ?_, rfl, ?_, rfl⟩ <;> cases isUnion <;> rfl

theorem mono (h : b.Laid isUnion cts₀ cts) (hkept : CTState.Kept cts cts') : b.Laid isUnion cts₀ cts' := by
  have hget : b.fieldIds.map (fun i => (cts'.get i).size) = b.fieldIds.map fun i => (cts.get i).size := by
    apply List.map_congr_left
    intro i hi
    rw [h.fresh.get_eq hkept hi]
  refine ⟨h.fresh.mono hkept, h.totalSize, h.maxAlign, ?_, ?_⟩
  · rw [hget, h.offsets]
  · rw [hget, h.infos]

theorem length_fieldIds (h : b.Laid isUnion cts₀ cts) : b.fieldIds.length = b.fields.length := by
  have hlen := congrArg List.length h.offsets
  cases isUnion with
  | false => simpa [Layout.offsets, length_offsetsFrom] using hlen
  | true => simpa [Layout.offsets] using hlen

/-- One more field: its offset is the running size, rounded up to its alignment. -/
theorem addField {f : Field} {prev : Option ℕ} (h : b.Laid isUnion cts₀ cts) (hentry : f.entry = cts.get f.elem)
    (hadd : b.addField isUnion f (f.typeId cts).1 prev (f.typeId cts).2 = .ok (b', cts')) :
    b'.Laid isUnion cts₀ cts' := by
  have hfresh := h.fresh.addField hentry hadd
  obtain ⟨offset, hoffset, rfl, rfl⟩ := Body.addField_eq hentry hadd
  have htype := CTState.Kept.fieldType h.fresh.kept.below f
  have hpush := CTState.Kept.push htype.below
    ⟨ctInfo .field 0 ||| BitVec.ofNat 32 (f.typeId cts).1, offset % 2^32, 0⟩
  have hmono := h.mono (htype.trans hpush)
  have hlast : (((f.typeId cts).2.push ⟨ctInfo .field 0 ||| BitVec.ofNat 32 (f.typeId cts).1, offset % 2^32, 0⟩).2.get
      (f.typeId cts).2.tab.length).size = offset % 2^32 := congrArg CType.size (CTState.get_push _ _)
  have hlen := h.length_fieldIds
  have hrunning := h.totalSize
  refine ⟨hfresh, ?_, ?_, ?_, ?_⟩
  · simp only [List.map_append, List.map_cons, List.map_nil, runningSize, widest_snoc, endFrom_snoc,
      Member.padded] at hrunning ⊢
    cases isUnion with
    | true => simp only [if_true] at hrunning ⊢; rw [hrunning]
    | false =>
      simp only [Bool.false_eq_true, if_false] at hoffset hrunning ⊢
      rw [hoffset, alignUp_add _ f.recorded.pos (dvd_alignUp _), hrunning]
  · simp only [List.map_append, List.map_cons, List.map_nil, maxAlign_snoc, h.maxAlign]
  · simp only [List.map_append, List.map_cons, List.map_nil, hmono.offsets, hlast, Layout.offsets, runningSize]
      at hrunning ⊢
    cases isUnion with
    | true => simp [hoffset]
    | false =>
      simp only [Bool.false_eq_true, if_false] at hoffset hrunning ⊢
      rw [offsetsFrom_snoc, List.map_append, Member.padded_align, ← hrunning, ← hoffset]
      rfl
  · simp only [List.map_append, List.map_cons, List.map_nil, hlast]
    rw [List.zip_append (by simp [hlen]), List.filter_append, ← hmono.infos]
    by_cases hname : f.name = ""
    · simp [hname]
    · simp [hname]

theorem fieldStep {declSpec : ParserState → Except String (DeclSpec × ParserState)} {s s' : ParserState}
    (hdecl : ∀ s r, declSpec s = .ok r → Reads s r.2) (h : b.Laid isUnion cts₀ s.cts)
    (hstep : fieldStep declSpec isUnion b s = .ok (b', s')) : b'.Laid isUnion cts₀ s'.cts := by
  obtain ⟨f, prev, s₁, hread, -, hentry, hadd⟩ := fieldStep_cases hdecl hstep
  exact (h.mono (hread.table h.fresh.kept.below)).addField hentry hadd

end Body.Laid

/-- The loop over the body of a struct. -/
theorem structBody_laid {declSpec : ParserState → Except String (DeclSpec × ParserState)} {isUnion : Bool} {turns : ℕ}
    {b : Body} {s s' : ParserState} (hdecl : ∀ s r, declSpec s = .ok r → Reads s r.2) (hbelow : s.cts.TagsBelow)
    (h : structBody declSpec isUnion turns .new s = .ok (b, s')) : b.Laid isUnion s.cts s'.cts :=
  structBody_induction (P := fun b s₁ => b.Laid isUnion s.cts s₁.cts)
    (fun _ _ _ _ hlaid hstep => hlaid.fieldStep hdecl hstep) (.new hbelow) h

/-- Behind a struct the table has the padded layout, modulo the size of a word. -/
theorem close_laid {b : Body} {isUnion : Bool} {tag : Option String} {cts₀ cts cts' : CTState} {id : ℕ}
    (h : b.Laid isUnion cts₀ cts) (hclose : b.close isUnion tag cts = .ok (id, cts')) :
    b.fieldIds.map (fun i => (cts'.get i).size) =
        (offsets isUnion ((b.fields.map Field.recorded).map Member.padded)).map (· % 2^32) ∧
      (∀ p ∈ (b.fields.map Field.name).zip (b.fieldIds.map fun i => (cts'.get i).size),
        p.1 ≠ "" → ∃ typeId, ((id, p.1), (typeId, p.2)) ∈ cts'.fieldNames) ∧
      (cts'.get id).size =
        alignUp (runningSize isUnion (b.fields.map Field.recorded)) (maxAlign (b.fields.map Field.recorded)) % 2^32 := by
  obtain ⟨-, hsize, hoffset⟩ := h.fresh.close hclose
  have hget : b.fieldIds.map (fun i => (cts'.get i).size) = b.fieldIds.map fun i => (cts.get i).size :=
    List.map_congr_left hoffset
  refine ⟨hget.trans h.offsets, ?_, ?_⟩
  · rw [hget]
    intro p hp hname
    have hmem : p ∈ b.fieldInfos.map fun p => (p.1, p.2.2) := by
      rw [h.infos]
      exact List.mem_filter.mpr ⟨hp, by simpa using hname⟩
    obtain ⟨info, hinfo, rfl⟩ := List.mem_map.mp hmem
    obtain ⟨⟨id', cts''⟩, -, hclose⟩ := bind_eq_ok.mp hclose
    obtain ⟨rfl, rfl⟩ := Prod.mk.inj (Except.ok.inj hclose)
    refine ⟨info.2.1, List.mem_append_left _ (List.mem_reverse.mpr (List.mem_map.mpr ⟨info, hinfo, rfl⟩))⟩
  · rw [hsize, h.totalSize, h.maxAlign]

/-! ### The two layouts -/

/-- The padded layout with the alignments in the table, modulo the size of a word, is that of the ABI when rounding
agrees and the size fits a word. -/
theorem padded_layout_iff (isUnion : Bool) {ps : List (Member × Member)} (halign : ∀ p ∈ ps, p.1.align ≤ 2^15)
    (hsize : ∀ p ∈ ps, p.1.size = p.2.size) :
    ((offsets isUnion ((ps.map Prod.fst).map Member.padded)).map (· % 2^32) = offsets isUnion (ps.map Prod.snd) ∧
        alignUp (runningSize isUnion (ps.map Prod.fst)) (maxAlign (ps.map Prod.fst)) % 2^32 =
          size isUnion (ps.map Prod.snd)) ↔
      AlignmentsAgree isUnion ps ∧ size isUnion (ps.map Prod.snd) < 2^32 := by
  have hmax : maxAlign (ps.map Prod.fst) ≤ 2^15 := by
    apply maxAlign_le (by norm_num)
    intro m hm
    obtain ⟨p, hp, rfl⟩ := List.mem_map.mp hm
    exact halign p hp
  cases isUnion with
  | false =>
    exact layoutFrom_mod_iff (M := 2^32) (by decide) (maxAlign_pos (ps.map Prod.fst)) hmax
      (maxAlign_pos (ps.map Prod.snd)) halign hsize (show 0 < 0 + 2^15 by decide)
  | true =>
    have hwidest : widest (ps.map Prod.fst) = widest (ps.map Prod.snd) := by
      rw [widest, widest, List.map_map, List.map_map]
      exact congrArg (List.foldr max 0) (List.map_congr_left hsize)
    have hup := alignUp_lt (widest (ps.map Prod.snd)) (maxAlign_pos (ps.map Prod.fst))
    have hlt : alignUp (widest (ps.map Prod.snd)) (maxAlign (ps.map Prod.fst)) < widest (ps.map Prod.snd) + 2^32 := by
      omega
    have h := mod_eq_iff hlt (extent_le_size true (ps.map Prod.snd))
    simpa [offsets, runningSize, hwidest, AlignmentsAgree] using h

/-! ### Structs and unions -/

section Struct
variable (env : ℕ → Declared) (dim : List Token → ℕ)
variable {depth : ℕ} {isUnion : Bool} {tag : Option String} {s s' : ParserState} {b : Body} {id : ℕ}

/-- The fields of an accepted struct or union whose size fits a word lie inside it, at multiples of the alignments in
the table, and those of a struct do not overlap. -/
theorem completeStruct_apart (hbelow : s.cts.TagsBelow)
    (h : completeStruct (parseDeclSpec (parseStructOrUnion depth) parseEnum) isUnion tag s = .ok (b, id, s'))
    (hfits : alignUp (runningSize isUnion (b.fields.map Field.recorded)) (maxAlign (b.fields.map Field.recorded)) < 2^32) :
    (∀ p ∈ (b.fieldIds.map fun i => (s'.cts.get i).size).zip (b.fields.map Field.recorded),
        p.2.align ∣ p.1 ∧ p.1 + p.2.size ≤ (s'.cts.get id).size) ∧
      (isUnion = false → ((b.fieldIds.map fun i => (s'.cts.get i).size).zip (b.fields.map Field.recorded)).Pairwise
        fun p q => p.1 + p.2.size ≤ q.1) := by
  obtain ⟨s₁, hbody, -, hclose⟩ := completeStruct_cases h
  have hlaid := structBody_laid (fun _ _ => Reads.fieldDeclSpec) hbelow hbody
  obtain ⟨hoffsets, -, hsize⟩ := close_laid hlaid hclose
  rw [hoffsets, hsize, Nat.mod_eq_of_lt hfits]
  generalize b.fields.map Field.recorded = ms at hfits ⊢
  have hup := le_alignUp (runningSize isUnion ms) (maxAlign_pos ms)
  have hpadded (m : Member) : m.size ≤ m.padded.size := le_alignUp _ m.pos
  cases isUnion with
  | true =>
    refine ⟨fun p hp => ?_, nofun⟩
    obtain ⟨hzero, hmem⟩ := List.of_mem_zip hp
    have hfst : p.1 = 0 := by
      simp [offsets] at hzero
      exact hzero.2.symm
    rw [hfst, zero_add]
    exact ⟨Nat.dvd_zero _, (size_le_widest hmem).trans hup⟩
  | false =>
    have hexact : (offsets false (ms.map Member.padded)).map (· % 2^32) = offsetsFrom 0 (ms.map Member.padded) := by
      refine (List.map_congr_left fun o ho => Nat.mod_eq_of_lt ?_).trans (List.map_id _)
      obtain ⟨i, hi, rfl⟩ := List.getElem_of_mem ho
      have hi' : i < (ms.map Member.padded).length := (length_offsetsFrom 0 _) ▸ hi
      have hend := (offsetsFrom_bounds (List.mem_iff_getElem.mpr ⟨i, by simpa using ⟨hi, hi'⟩, List.getElem_zip⟩)).2.2
      exact ((Nat.le_add_right _ _).trans hend).trans_lt (hup.trans_lt hfits)
    have hzip : (offsetsFrom 0 (ms.map Member.padded)).zip (ms.map Member.padded) =
        ((offsetsFrom 0 (ms.map Member.padded)).zip ms).map fun p => (p.1, p.2.padded) := List.zip_map_right ..
    rw [hexact]
    constructor
    · intro p hp
      obtain ⟨-, hdvd, hend⟩ := offsetsFrom_bounds (hzip ▸ List.mem_map_of_mem hp)
      have := hpadded p.2
      exact ⟨hdvd, (show p.1 + p.2.size ≤ p.1 + p.2.padded.size by omega).trans (hend.trans hup)⟩
    · intro _
      have hpair := offsetsFrom_pairwise 0 (ms.map Member.padded)
      rw [hzip, List.pairwise_map] at hpair
      refine hpair.imp fun {p q} hpq => ?_
      have := hpadded p.2
      dsimp only at hpq
      omega

end Struct

/-! ### The predefined types -/

/-- The predefined types with a size. -/
def builtin (id : ℕ) : Declared :=
  match id with
  | 3 | 4 | 5 | 6 => .basic ⟨1, 1, by decide⟩
  | 7 | 8 => .basic ⟨2, 2, by decide⟩
  | 9 | 10 | 15 | 24 => .basic ⟨4, 4, by decide⟩
  | 11 | 12 | 16 | 19 | 20 | 21 | 22 | 25 => .basic ⟨8, 8, by decide⟩
  | 13 | 14 => .basic ⟨16, 16, by decide⟩
  | 17 => .array 2 (.basic ⟨4, 4, by decide⟩)
  | 18 => .array 2 (.basic ⟨8, 8, by decide⟩)
  | _ => .basic ⟨0, 1, by decide⟩

/-- The table starts with the sizes and alignments of the ABI. -/
theorem predefined_recorded : ∀ id ∈ [3, 4, 5, 6, 7, 8, 9, 10, 11, 12, 13, 14, 15, 16, 17, 18, 19, 20, 21, 22, 24, 25],
    (CTState.new.get id).size = (builtin id).abi.size ∧
      2 ^ ctypeAlign (CTState.new.get id).info = (builtin id).abi.align := by
  decide

/-- `char c; double d[2]; }` -/
def charThenDoubles : List Token :=
  [.kwChar, .ident "c", .semicolon, .kwDouble, .ident "d", .lBracket, .integer "2", .rBracket, .semicolon, .rBrace]

/-- The number between the brackets, one without a number. -/
def literalDim : List Token → ℕ
  | [.integer text] => (parseU32 text).getD 1
  | _ => 1

/-- `double d; int i[2]; }` -/
def doubleThenInts : List Token :=
  [.kwDouble, .ident "d", .semicolon, .kwInt, .ident "i", .lBracket, .integer "2", .rBracket, .semicolon, .rBrace]

theorem completeStruct_apart_doubleThenInts : ∃ b id s',
    completeStruct (parseDeclSpec (parseStructOrUnion 1) parseEnum) false none ⟨doubleThenInts, .new⟩ =
      .ok (b, id, s') ∧
    ((b.fieldIds.map fun i => (s'.cts.get i).size).zip (b.fields.map Field.recorded)).Pairwise
      fun p q => p.1 + p.2.size ≤ q.1 := by
  refine ⟨_, _, _, rfl, ?_⟩
  have hrun : completeStruct (parseDeclSpec (parseStructOrUnion 1) parseEnum) false none ⟨doubleThenInts, .new⟩ =
      .ok (_, _, _) := rfl
  exact (completeStruct_apart CTState.tagsBelow_new hrun (by decide)).2 rfl

end LuajitRs.Ffi
