import LuajitRs.Ffi.CType
import LuajitRs.Lib.Layout

/-! Declaration specifiers in the parser of `ffi.cdef`. A source text is the list of its tokens, which ends where the
lexer finds the end or a character that it does not know. -/
namespace LuajitRs.Ffi
open CTInfo

inductive Token
  | ident (name : String)
  | integer (text : String)
  | string (text : String)
  | star | amp | lParen | rParen | lBrace | rBrace | lBracket | rBracket
  | comma | semicolon | colon | ellipsis | eql | question | minus | plus | lAngle | rAngle | slash
  | kwVoid | kwChar | kwShort | kwInt | kwLong | kwFloat | kwDouble | kwSigned | kwUnsigned | kwBool | kwComplex
  | kwStruct | kwUnion | kwEnum | kwTypedef | kwExtern | kwStatic | kwConst | kwVolatile
  | kwCdecl | kwStdcall | kwFastcall | kwRestrict | kwInline | kwAttribute | kwExtension
  deriving DecidableEq, Repr

/-- `quick_type_id` on a 64-bit target: the known names of C types. -/
def QUICK_TYPES : List (String × ℕ) :=
  [ ("void", CTypeID.void), ("bool", CTypeID.bool), ("_Bool", CTypeID.bool), ("char", CTypeID.cchar),
    ("signed char", CTypeID.int8), ("int8_t", CTypeID.int8),
    ("unsigned char", CTypeID.uint8), ("uint8_t", CTypeID.uint8),
    ("short", CTypeID.int16), ("int16_t", CTypeID.int16),
    ("unsigned short", CTypeID.uint16), ("uint16_t", CTypeID.uint16),
    ("int", CTypeID.int32), ("signed", CTypeID.int32), ("int32_t", CTypeID.int32),
    ("unsigned", CTypeID.uint32), ("unsigned int", CTypeID.uint32), ("uint32_t", CTypeID.uint32),
    ("long", CTypeID.int64), ("int64_t", CTypeID.int64),
    ("unsigned long", CTypeID.uint64), ("uint64_t", CTypeID.uint64),
    ("long long", CTypeID.int64), ("unsigned long long", CTypeID.uint64),
    ("ptrdiff_t", CTypeID.int64), ("intptr_t", CTypeID.int64), ("ssize_t", CTypeID.int64),
    ("size_t", CTypeID.uint64), ("uintptr_t", CTypeID.uint64),
    ("float", CTypeID.float), ("double", CTypeID.double),
    ("complex", CTypeID.complexDouble), ("complex float", CTypeID.complexFloat),
    ("void *", CTypeID.pvoid), ("void*", CTypeID.pvoid) ]

def quickTypeId (name : String) : Option ℕ := QUICK_TYPES.lookup name

/-- The tokens that are left and the type table. -/
structure ParserState where
  tokens : List Token
  cts : CTState

/-- The specifiers of a declaration. Typedefs, fields and parameters use the type id and not the flags. -/
structure DeclSpec where
  flags : CTInfo
  typeId : ℕ
  deriving DecidableEq

def DeclSpec.new : DeclSpec := ⟨0, CTypeID.int32⟩

/-- Take the token if it is the next one. -/
def takeToken (tok : Token) : List Token → List Token
  | [] => []
  | t :: ts => if t = tok then ts else t :: ts

/-- `skip_attribute` behind the keyword. -/
def skipAttribute : List Token → List Token
  | .lParen :: .lParen :: ts => takeToken .rParen (takeToken .rParen (ts.dropWhile (· ≠ .rParen)))
  | .lParen :: ts => takeToken .rParen ts
  | ts => ts

section DeclSpec
variable (structOrUnion enum : ParserState → Except String (ℕ × ParserState))

/-- The typedef'd type of a name. -/
def typeName (cts : CTState) (name : String) : Option ℕ := quickTypeId name <|> cts.names.lookup name

/-- The loop of `parse_decl_spec`; every turn takes a token. -/
def declSpecLoop : ℕ → DeclSpec → Bool → ParserState → Except String (DeclSpec × ParserState)
  | 0, _, _, _ => .error "infinite loop in parse_decl_spec"
  | fuel+1, decl, seenType, s =>
    /- A type specifier ends the loop when a type was seen before. -/
    let setType (decl : DeclSpec) (ts : List Token) : Except String (DeclSpec × ParserState) :=
      declSpecLoop fuel decl true { s with tokens := ts }
    match s.tokens with
    | .kwConst :: ts => declSpecLoop fuel { decl with flags := decl.flags ||| CONST } seenType { s with tokens := ts }
    | .kwVolatile :: ts =>
      declSpecLoop fuel { decl with flags := decl.flags ||| VOLATILE } seenType { s with tokens := ts }
    | .kwCdecl :: ts | .kwStdcall :: ts | .kwFastcall :: ts | .kwRestrict :: ts | .kwInline :: ts
    | .kwExtension :: ts => declSpecLoop fuel decl seenType { s with tokens := ts }
    | .kwAttribute :: ts => declSpecLoop fuel decl seenType { s with tokens := skipAttribute ts }
    | .kwUnsigned :: ts =>
      declSpecLoop fuel { decl with flags := decl.flags ||| UNSIGNED } seenType { s with tokens := ts }
    | .kwSigned :: ts => declSpecLoop fuel decl seenType { s with tokens := ts }
    | .kwLong :: ts =>
      declSpecLoop fuel { decl with flags := decl.flags ||| LONG } seenType { s with tokens := takeToken .kwLong ts }
    | .kwBool :: ts => setType ⟨decl.flags ||| BOOL ||| UNSIGNED, CTypeID.int8⟩ ts
    | .kwVoid :: ts => if seenType then .ok (decl, s) else setType { decl with typeId := CTypeID.void } ts
    | .kwChar :: ts => if seenType then .ok (decl, s) else setType { decl with typeId := CTypeID.cchar } ts
    | .kwInt :: ts => if seenType then .ok (decl, s) else setType { decl with typeId := CTypeID.int32 } ts
    | .kwFloat :: ts => if seenType then .ok (decl, s) else setType ⟨decl.flags ||| FP, CTypeID.float⟩ ts
    | .kwDouble :: ts => if seenType then .ok (decl, s) else setType ⟨decl.flags ||| FP, CTypeID.double⟩ ts
    | .kwStruct :: _ | .kwUnion :: _ =>
      if seenType then .ok (decl, s)
      else do
        let (id, s) ← structOrUnion s
        declSpecLoop fuel { decl with typeId := id } true s
    | .kwEnum :: _ =>
      if seenType then .ok (decl, s)
      else do
        let (id, s) ← enum s
        declSpecLoop fuel { decl with typeId := id } true s
    | .kwComplex :: ts =>
      if seenType then .ok (decl, s)
      else match ts with
        | .kwFloat :: ts => setType { decl with typeId := CTypeID.complexFloat } ts
        | ts => setType { decl with typeId := CTypeID.complexDouble } ts
    | .ident name :: ts =>
      if seenType then .ok (decl, s)
      else match typeName s.cts name with
        | some id => setType { decl with typeId := id } ts
        | none => .ok (decl, s)
    | _ => .ok (decl, s)

/-- A name is a type if it names one, and else it ends the loop. -/
theorem declSpecLoop_ident (fuel : ℕ) (decl : DeclSpec) (name : String) (ts : List Token) (cts : CTState) :
    declSpecLoop structOrUnion enum (fuel + 1) decl false ⟨.ident name :: ts, cts⟩ =
      match typeName cts name with
      | some id => declSpecLoop structOrUnion enum fuel { decl with typeId := id } true ⟨ts, cts⟩
      | none => .ok (decl, ⟨.ident name :: ts, cts⟩) := rfl

/-- `parse_decl_spec`, with the parsers of struct and enum specifiers. -/
def parseDeclSpec (s : ParserState) : Except String (DeclSpec × ParserState) :=
  declSpecLoop structOrUnion enum (s.tokens.length + 1) .new false s

end DeclSpec
end LuajitRs.Ffi

/-! Struct, union and enum specifiers in the parser of `ffi.cdef`: the fields of a body are laid out one by one while
the types of nested declarations, pointers and arrays go into the same table. -/
namespace LuajitRs.Ffi
open CTInfo Lib.Layout

def SHIFT_ALIGN : ℕ := 16
def MASK_ALIGN : CTInfo := 15

/-- The binary logarithm of the alignment. -/
def ctypeAlign (info : CTInfo) : ℕ := ((info >>> SHIFT_ALIGN) &&& MASK_ALIGN).toNat

theorem ctypeAlign_lt (info : CTInfo) : ctypeAlign info < 16 := by
  have h := Nat.and_le_right (n := (info >>> SHIFT_ALIGN).toNat) (m := 15)
  have hand : ctypeAlign info = (info >>> SHIFT_ALIGN).toNat &&& 15 := by
    simp [ctypeAlign, MASK_ALIGN, BitVec.toNat_and]
  omega

/-- `u32::saturating_mul`. -/
def saturatingMul (a b : ℕ) : ℕ := min (a * b) unknownSize

/-- `parse::<u32>` on the text of a number. -/
def parseU32 (text : String) : Option ℕ :=
  let digits := text.toList
  let n := digits.foldl (fun n c => 10 * n + (c.toNat - 48)) 0
  if digits ≠ [] ∧ digits.all Char.isDigit ∧ n < 2^32 then some n else none

/-- The name of a token in an error message. -/
def Token.debug : Token → String
  | ident _ => "Ident" | integer _ => "Integer" | string _ => "String"
  | star => "Star" | amp => "Amp" | lParen => "LParen" | rParen => "RParen" | lBrace => "LBrace" | rBrace => "RBrace"
  | lBracket => "LBracket" | rBracket => "RBracket" | comma => "Comma" | semicolon => "Semicolon" | colon => "Colon"
  | ellipsis => "Ellipsis" | eql => "Eql" | question => "Question" | minus => "Minus" | plus => "Plus"
  | lAngle => "LAngle" | rAngle => "RAngle" | slash => "Slash"
  | kwVoid => "KwVoid" | kwChar => "KwChar" | kwShort => "KwShort" | kwInt => "KwInt" | kwLong => "KwLong"
  | kwFloat => "KwFloat" | kwDouble => "KwDouble" | kwSigned => "KwSigned" | kwUnsigned => "KwUnsigned"
  | kwBool => "KwBool" | kwComplex => "KwComplex" | kwStruct => "KwStruct" | kwUnion => "KwUnion" | kwEnum => "KwEnum"
  | kwTypedef => "KwTypedef" | kwExtern => "KwExtern" | kwStatic => "KwStatic" | kwConst => "KwConst"
  | kwVolatile => "KwVolatile" | kwCdecl => "KwCdecl" | kwStdcall => "KwStdcall" | kwFastcall => "KwFastcall"
  | kwRestrict => "KwRestrict" | kwInline => "KwInline" | kwAttribute => "KwAttribute" | kwExtension => "KwExtension"

def debugNext (ts : List Token) : String := (ts.head?.map Token.debug).getD "Eof"

def expect (tok : Token) (s : ParserState) : Except String ParserState :=
  match s.tokens with
  | t :: ts =>
    if t = tok then .ok { s with tokens := ts } else .error ("expected " ++ tok.debug ++ ", got " ++ t.debug)
  | [] => .error ("expected " ++ tok.debug ++ ", got Eof")

/-- The tag behind `struct`, `union` or `enum`. -/
def optionalTag : List Token → Option String × List Token
  | .ident tag :: ts => (some tag, ts)
  | ts => (none, ts)

/-! ### New types -/

namespace CTState
variable (cts : CTState)

/-- A new entry at the top, and its id. -/
def push (ct : CType) : ℕ × CTState := (cts.tab.length, { cts with tab := cts.tab ++ [ct] })

def pushChecked (ct : CType) : Except String (ℕ × CTState) :=
  if cts.tab.length + 1 < 2^32 then .ok (cts.push ct) else .error "too many C types (overflow)"

/-- The pointer to a type: the entry with the same word if there is one, else a new one. -/
def makePtrType (pointeeId : ℕ) : ℕ × CTState :=
  let info := ctInfo .ptr ALIGN3 ||| BitVec.ofNat 32 pointeeId
  match cts.tab.findIdx? (·.info = info) with
  | some id => (id, cts)
  | none => cts.push ⟨info, 8, 0⟩

/-- The array with the size `size`: an entry with the same word and size if there is one, else a new one. -/
def arrayType (elem size : ℕ) : ℕ × CTState :=
  let info := ctInfo .array 0 ||| BitVec.ofNat 32 elem
  match cts.tab.findIdx? (fun ct => ct.info = info && ct.size = size) with
  | some id => (id, cts)
  | none => cts.push ⟨info, size, 0⟩

/-- The tail of `parse_typedef`: the new name of a type. -/
def addTypedef (name : String) (typeId : ℕ) : Except String CTState := do
  let (id, cts') ← cts.pushChecked ⟨ctInfo .typedef 0 ||| BitVec.ofNat 32 typeId, (cts.get typeId).size, 0⟩
  .ok { cts' with names := (name, id) :: cts'.names }

end CTState

/-! ### Enums -/

/-- The list of constants, whose values are left out. No token but a name or a comma is taken; any other one is read
for ever. -/
def enumBody : ℕ → List Token → Except String (List Token)
  | 0, _ => .error "no end of the enum body"
  | fuel+1, ts =>
    match ts with
    | [] => .ok []
    | .rBrace :: ts => .ok (.rBrace :: ts)
    | .ident _ :: .eql :: ts => enumBody fuel (takeToken .comma (ts.dropWhile fun t => t ≠ .comma ∧ t ≠ .rBrace))
    | .ident _ :: ts => enumBody fuel (takeToken .comma ts)
    | ts => enumBody fuel (takeToken .comma ts)

def parseEnum (s : ParserState) : Except String (ℕ × ParserState) := do
  match (optionalTag s.tokens.tail).2 with
  | .lBrace :: ts =>
    let ts ← enumBody (ts.length + 1) ts
    let s ← expect .rBrace { s with tokens := ts }
    .ok (CTypeID.int32, s)
  | ts => .ok (CTypeID.int32, { s with tokens := ts })

/-! ### Fields -/

/-- The array brackets behind a field name. -/
structure Brackets where
  multiplier : ℕ
  isArray : Bool
  isVla : Bool
  /-- What stands between the brackets; the code does not keep it. -/
  dims : List (List Token)
  deriving DecidableEq

/-- `t[1]` is an array as well; a dimension that is not a decimal number counts as one element. -/
def parseBrackets : ℕ → Brackets → List Token → Brackets × List Token
  | fuel+1, b, .lBracket :: ts =>
    let (arrayNum, isVla) := match ts with
      | .question :: _ => (unknownSize, true)
      | .integer text :: _ => (max ((parseU32 text).getD 1) 1, b.isVla)
      | _ => (1, b.isVla)
    let b' : Brackets :=
      ⟨saturatingMul b.multiplier arrayNum, true, isVla, b.dims ++ [ts.takeWhile (· ≠ .rBracket)]⟩
    parseBrackets fuel b' (takeToken .rBracket (ts.dropWhile (· ≠ .rBracket)))
  | _, b, ts => (b, ts)

/-- The pointers in front of a field name. -/
def parsePointers : List Token → ℕ → CTState → ℕ × CTState × List Token
  | .star :: ts, typeId, cts => parsePointers ts (cts.makePtrType typeId).1 (cts.makePtrType typeId).2
  | ts, typeId, cts => (typeId, cts, ts)

/-- The name of a field behind stray pointer tokens; a field without one has the empty name. -/
def fieldName (ts : List Token) : String × List Token :=
  match ts.dropWhile fun t => t = .star ∨ t = .slash with
  | .ident name :: ts => (name, ts)
  | ts => ("", ts)

/-- A field: its name, the type in front of its brackets with the entry of that type, and the brackets. -/
structure Field where
  name : String
  elem : ℕ
  entry : CType
  brackets : Brackets
  deriving DecidableEq

namespace Field
variable (f : Field)

def isArray : Bool := 1 < f.brackets.multiplier || f.brackets.isArray

def typeSize : ℕ := if f.isArray then saturatingMul f.entry.size f.brackets.multiplier else f.entry.size

def typeInfo : CTInfo := if f.isArray then ctInfo .array 0 ||| BitVec.ofNat 32 f.elem else f.entry.info

/-- `field_type_id`. -/
def typeId (cts : CTState) : ℕ × CTState := if f.isArray then cts.arrayType f.elem f.typeSize else (f.elem, cts)

/-- Size and alignment as the table has them; a variable-length member has no bytes. -/
def recorded : Member :=
  ⟨if f.brackets.isVla then 0 else f.typeSize, 2 ^ ctypeAlign f.typeInfo, Nat.two_pow_pos _⟩

end Field

/-- The variables of the loop over the body of a struct. -/
structure Body where
  totalSize : ℕ
  maxAlign : ℕ
  fieldInfos : List (String × ℕ × ℕ)
  fieldIds : List ℕ
  prevFdeclType : Option ℕ
  vlaMember : Bool
  /-- The fields so far; the code does not keep them. -/
  fields : List Field
  deriving DecidableEq

def Body.new : Body := ⟨0, 1, [], [], none, false, []⟩

/-- A field of the type `typeId` at the end of the body. -/
def Body.addField (b : Body) (isUnion : Bool) (f : Field) (typeId : ℕ) (prev : Option ℕ) (cts : CTState) :
    Except String (Body × CTState) := do
  let fieldSize := if f.brackets.isVla then 0 else (cts.get typeId).size
  let align := 2 ^ ctypeAlign (cts.get typeId).info
  let offset := if isUnion then 0 else alignUp b.totalSize align
  let (id, cts) ← cts.pushChecked ⟨ctInfo .field 0 ||| BitVec.ofNat 32 typeId, offset % 2^32, 0⟩
  let b' : Body :=
    { totalSize := if isUnion then max b.totalSize (offset + fieldSize) else alignUp (offset + fieldSize) align
      maxAlign := max b.maxAlign align
      fieldInfos := if f.name = "" then b.fieldInfos else b.fieldInfos ++ [(f.name, typeId, offset % 2^32)]
      fieldIds := b.fieldIds ++ [id]
      prevFdeclType := prev
      vlaMember := f.brackets.isVla
      fields := b.fields ++ [f] }
  .ok (b', cts)

/-- What may follow a field: a bit width, which is skipped, a comma and a semicolon. The semicolon is told. -/
def endField (ts : List Token) : Bool × List Token :=
  let ts := match ts with
    | .colon :: ts => ts.dropWhile fun t => t ≠ .comma ∧ t ≠ .semicolon ∧ t ≠ .rBrace
    | ts => ts
  match takeToken .comma ts with
  | .semicolon :: ts => (true, ts)
  | ts => (false, ts)

section Body
variable (declSpec : ParserState → Except String (DeclSpec × ParserState)) (isUnion : Bool)

/-- `type a, b, c;`: a name without specifiers continues with the type of the field before. -/
def fieldSpec (b : Body) (s : ParserState) : Except String (ℕ × ParserState) :=
  match s.tokens, b.prevFdeclType with
  | .ident _ :: _, some prev => .ok (prev, s)
  | _, _ => do
    let (decl, s) ← declSpec s
    .ok (decl.typeId, s)

/-- A turn of the loop. -/
def fieldStep (b : Body) (s : ParserState) : Except String (Body × ParserState) :=
  if b.vlaMember then .error "ffi: variable-length array member must be the last field"
  else do
    let (typeId, s) ← fieldSpec declSpec b s
    let (elem, cts, ts) := parsePointers s.tokens typeId s.cts
    let (name, ts) := fieldName ts
    let (brackets, ts) := parseBrackets ts.length ⟨1, false, false, []⟩ ts
    let f : Field := ⟨name, elem, cts.get elem, brackets⟩
    let (typeId, cts) := f.typeId cts
    if brackets.isVla && isUnion then .error "ffi: variable-length array member in a union is not allowed"
    else do
      let (newSpec, ts) := endField ts
      let (b, cts) ← b.addField isUnion f typeId (if newSpec then none else some typeId) cts
      .ok (b, ⟨ts, cts⟩)

/-- The loop over the body, with the turns that are left. -/
def structBody : ℕ → Body → ParserState → Except String (Body × ParserState)
  | turns, b, s =>
    if s.tokens = [] ∨ s.tokens.head? = some .rBrace then .ok (b, s)
    else match turns with
      | 0 => .error ("infinite loop in struct body, tok=" ++ debugNext s.tokens)
      | turns+1 => do
        let (b, s) ← fieldStep declSpec isUnion b s
        structBody turns b s

end Body

/-- Each field points to the next one. -/
def linkFields : List ℕ → List CType → List CType
  | [], tab => tab
  | id :: ids, tab => linkFields ids (tab.modify id fun ct => { ct with sib := ids.headD 0 % 2^16 })

/-- The word of a struct: its first field and the logarithm of its alignment. -/
def Body.structInfo (b : Body) (isUnion : Bool) : CTInfo :=
  ctInfo .struct (if isUnion then UNION else 0) ||| BitVec.ofNat 32 (b.fieldIds.headD 0)
    ||| (BitVec.ofNat 32 b.maxAlign.log2 <<< SHIFT_ALIGN) ||| (if b.vlaMember then VLA else 0)

/-- The entry of a struct: the one that its tag already has, or a new one. -/
def CTState.addStruct (cts : CTState) (tag : Option String) (entry : CType) : Except String (ℕ × CTState) :=
  match tag.bind fun tag => List.lookup tag cts.tags with
  | some id => .ok (id, { cts with tab := cts.tab.set id entry })
  | none => do
    let (id, cts) ← cts.pushChecked entry
    .ok (id, { cts with tags := (tag.map fun tag => (tag, id)).toList ++ cts.tags })

/-- The struct itself behind its fields. -/
def Body.close (b : Body) (isUnion : Bool) (tag : Option String) (cts : CTState) : Except String (ℕ × CTState) := do
  let total := alignUp b.totalSize b.maxAlign
  let cts := { cts with tab := linkFields b.fieldIds cts.tab }
  let (id, cts) ← cts.addStruct tag ⟨b.structInfo isUnion, total % 2^32, 0⟩
  .ok (id, { cts with fieldNames := (b.fieldInfos.map fun p => ((id, p.1), p.2)).reverse ++ cts.fieldNames })

/-- A struct or union from behind its brace: the fields that were read, its id, and what is left. -/
def completeStruct (declSpec : ParserState → Except String (DeclSpec × ParserState)) (isUnion : Bool)
    (tag : Option String) (s : ParserState) : Except String (Body × ℕ × ParserState) := do
  let (b, s) ← structBody declSpec isUnion 10000 .new s
  let s ← expect .rBrace s
  let (id, cts) ← b.close isUnion tag s.cts
  .ok (b, id, { s with cts := cts })

/-- A struct or union without a body: the entry of its tag, or a new one without fields. -/
def forwardStruct (isUnion : Bool) (tag : Option String) (s : ParserState) : Except String (ℕ × ParserState) :=
  match tag.bind fun tag => List.lookup tag s.cts.tags with
  | some id => .ok (id, s)
  | none => do
    let (id, cts) ← s.cts.addStruct tag ⟨ctInfo .struct (if isUnion then UNION else 0), 0, 0⟩
    .ok (id, ⟨s.tokens, cts⟩)

/-- `parse_struct_or_union`, with at most `depth` declarations inside each other. -/
def parseStructOrUnion : ℕ → ParserState → Except String (ℕ × ParserState)
  | 0, _ => .error "nested too deep"
  | depth+1, s =>
    let isUnion := s.tokens.head? = some .kwUnion
    let (tag, ts) := optionalTag s.tokens.tail
    match ts with
    | .lBrace :: ts => do
      let (_, id, s) ← completeStruct (parseDeclSpec (parseStructOrUnion depth) parseEnum) isUnion tag ⟨ts, s.cts⟩
      .ok (id, s)
    | ts => forwardStruct isUnion tag ⟨ts, s.cts⟩

end LuajitRs.Ffi
