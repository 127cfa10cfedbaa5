import LuajitRs.Compiler.Proto
import LuajitRs.Lib.Decoder
import LuajitRs.Lib.Bytes

/-! The reader of dumped bytecode. Indexing past the end of the input and an unknown constant tag
panic; `stack` bounds the nesting of prototypes that the stack of the thread has room for. Every
capacity and every copied string is a request of memory, made before the elements are read. -/
namespace LuajitRs
open Lib.Decoder Lib.Utf8

/-- The ways `undump` ends without returning. -/
inductive Panic
  | indexOutOfBounds
  | badKgcTag (tag : UInt8)
  | stackOverflow
  deriving DecidableEq, Repr

abbrev Read (α : Type) := Dec UInt8 Panic α

namespace Undump

def MAGIC : List UInt8 := [0x1b, 0x4c, 0x4a]
def VERSION : UInt8 := 1

/-! ### The reader -/

def readBytes (len : ℕ) : Read (List UInt8) := slice .indexOutOfBounds len

/-- A little-endian number of `k` bytes. -/
def readLe (k : ℕ) : Read ℕ := do
  let b ← readBytes k
  pure (ofLe b)

def readU8 : Read UInt8 := do
  let v ← readLe 1
  pure (UInt8.ofNat v)

def readU16 : Read UInt16 := do
  let v ← readLe 2
  pure (UInt16.ofNat v)

def readU32 : Read UInt32 := do
  let v ← readLe 4
  pure (UInt32.ofNat v)

def readF64 : Read F64 := do
  let v ← readLe 8
  pure ⟨UInt64.ofNat v⟩

/-- A counted string, copied by the interner. -/
def readStr : Read (List UInt8) := do
  let len ← readU32
  let bytes ← readBytes len.toNat
  request bytes.length
  pure bytes

/-- A legacy resolved constant. -/
def readKstrv : Read LuaValue := do
  let raw ← readU32
  pure (if raw = 0xFFFFFFFF then .nil else .num ⟨raw.toUInt64⟩)

/-- An upvalue name, through `String::from_utf8_lossy`. -/
def readName : Read String := do
  let len ← readU16
  let bytes ← readBytes len.toNat
  request (encode (lossy 0 bytes)).length
  pure (String.ofList (lossy 0 bytes))

/-! ### Prototypes -/

/-- The counts at the head of a prototype and the fields between them. -/
structure ProtoHeader where
  flags : UInt16
  numparams : UInt8
  framesize : UInt8
  bcLen : UInt32
  kgcLen : UInt32
  knLen : UInt32
  kstrvLen : UInt32
  uvLen : UInt32
  uvnamesLen : UInt32
  firstline : UInt32
  numline : UInt32

def readHeader : Read ProtoHeader := do
  let flags ← readU16
  let numparams ← readU8
  let framesize ← readU8
  let bcLen ← readU32
  let kgcLen ← readU32
  let knLen ← readU32
  let kstrvLen ← readU32
  let uvLen ← readU32
  let uvnamesLen ← readU32
  let firstline ← readU32
  let numline ← readU32
  pure ⟨flags, numparams, framesize, bcLen, kgcLen, knLen, kstrvLen, uvLen, uvnamesLen, firstline, numline⟩

def readSource : Read (Option (List UInt8)) := do
  let hasSource ← readU8
  if hasSource = 0 then pure none else do
    let s ← readStr
    pure (some s)

def readKgc (readProto : Read Proto) : Read KGc := do
  let tag ← readU8
  match tag.toNat with
  | 0 => do
    let bytes ← readStr
    pure (.str bytes)
  | 1 => do
    let p ← readProto
    pure (.proto p)
  | 2 => pure (.table .blank)
  | 3 => pure (.cdata ⟨0, [], none, 0⟩)
  | _ => throw (.badKgcTag tag)

/-- `read_proto` with the reader of its constants. -/
def readProtoWith (readKgc : Read KGc) : Read Proto := do
  let h ← readHeader
  let source ← readSource
  let bc ← vec 4 h.bcLen.toNat readU32
  let lines ← vec 4 h.bcLen.toNat readU32
  let kn ← vec 8 h.knLen.toNat readF64
  let kstrv ← vec 8 h.kstrvLen.toNat readKstrv
  let uv ← vec 2 h.uvLen.toNat readU16
  let uvnames ← vec 24 h.uvnamesLen.toNat readName
  let kgc ← vec 16 h.kgcLen.toNat readKgc
  pure ⟨bc, lines, kgc, kn, kstrv, uv, uvnames, [], h.flags, h.numparams, h.framesize,
    h.firstline, h.numline, source⟩

def readProto : ℕ → Read Proto
  | 0 => throw .stackOverflow
  | stack + 1 => readProtoWith (readKgc (readProto stack))

/-- The part of `undump` after the magic number. -/
def readVersioned (stack : ℕ) : Read (Except String Proto) := do
  let version ← readU8
  if version ≠ VERSION then
    pure (.error s!"bytecode version mismatch: got {version}, expected {VERSION}")
  else do
    let _flags ← readU8
    let p ← readProto stack
    pure (.ok p)

end Undump

open Undump in
/-- The answer of `undump`, with the rest of the input and all requests of memory. -/
def undump (stack : ℕ) (data : List UInt8) : EStateM.Result Panic (Input UInt8) (Except String Proto) :=
  if data.length < 5 ∨ data.take 3 ≠ MAGIC then .ok (.error "not a valid bytecode chunk") ⟨data, []⟩
  else readVersioned stack ⟨data.drop 3, []⟩

/-- `LuaTable::new(0, 0)`, which stands for every table template. -/
theorem LuaTable.new_zero : LuaTable.new 0 0 = .ok .blank := rfl

end LuajitRs

/-! The format of dumped prototypes, given by its written forms and independent of the reader, and
the proof that the reader returns on the written forms and on nothing else. -/
namespace LuajitRs
open Lib.Decoder Lib.Utf8

/-- The written form of a constant over that of a prototype. -/
inductive WireKGc (ω : Type)
  | str (s : List UInt8)
  | proto (w : ω)
  | table
  | cdata

/-- The written form of a prototype over that of its constants. Any byte but zero may announce the
chunk name. -/
structure WireProtoOf (ω : Type) where
  flags : UInt16
  numparams : UInt8
  framesize : UInt8
  firstline : UInt32
  numline : UInt32
  source : Option (UInt8 × List UInt8)
  bc : List UInt32
  lines : List UInt32
  kn : List F64
  kstrv : List UInt32
  uv : List UInt16
  uvnames : List (List UInt8)
  kgc : List ω

/-- The written forms of prototypes that are nested at most `n` deep. -/
def WireProto : ℕ → Type
  | 0 => Empty
  | n + 1 => WireProtoOf (WireKGc (WireProto n))

namespace Undump

/-! ### Formats -/

/-- Values of a fixed width of `k` bytes. -/
def fixed {α : Type} (k : ℕ) (toNat : α → ℕ) : Format UInt8 α α :=
  ⟨fun _ => True, fun v => le k (toNat v), id, fun _ => []⟩

def u8 : Format UInt8 UInt8 UInt8 := fixed 1 UInt8.toNat
def u16 : Format UInt8 UInt16 UInt16 := fixed 2 UInt16.toNat
def u32 : Format UInt8 UInt32 UInt32 := fixed 4 UInt32.toNat
def f64 : Format UInt8 F64 F64 := fixed 8 fun x => x.bits.toNat

def kstrv : Format UInt8 UInt32 LuaValue :=
  u32.map fun raw => if raw = 0xFFFFFFFF then .nil else .num ⟨raw.toUInt64⟩

/-- Strings after their length in `k` bytes. -/
def prefixed {α : Type} (k : ℕ) (size : List UInt8 → ℕ) (g : List UInt8 → α) :
    Format UInt8 (List UInt8) α where
  Fits s := s.length < 256^k
  tokens s := le k s.length ++ s
  value := g
  requests s := [size s]

def str : Format UInt8 (List UInt8) (List UInt8) := prefixed 4 List.length id

def name : Format UInt8 (List UInt8) String :=
  prefixed 2 (fun s => (encode (lossy 0 s)).length) fun s => String.ofList (lossy 0 s)

def source : Format UInt8 (Option (UInt8 × List UInt8)) (Option (List UInt8)) where
  Fits
    | none => True
    | some (b, s) => b ≠ 0 ∧ str.Fits s
  tokens
    | none => u8.tokens 0
    | some (b, s) => u8.tokens b ++ str.tokens s
  value o := o.map Prod.snd
  requests
    | none => []
    | some (_, s) => str.requests s

def header : Format UInt8 ProtoHeader ProtoHeader where
  Fits _ := True
  tokens h := u16.tokens h.flags ++ (u8.tokens h.numparams ++ (u8.tokens h.framesize ++
    (u32.tokens h.bcLen ++ (u32.tokens h.kgcLen ++ (u32.tokens h.knLen ++ (u32.tokens h.kstrvLen ++
    (u32.tokens h.uvLen ++ (u32.tokens h.uvnamesLen ++ (u32.tokens h.firstline ++
    u32.tokens h.numline)))))))))
  value := id
  requests _ := []

variable {ω : Type}

def constant (F : Format UInt8 ω Proto) : Format UInt8 (WireKGc ω) KGc where
  Fits
    | .str s => str.Fits s
    | .proto w => F.Fits w
    | _ => True
  tokens
    | .str s => u8.tokens 0 ++ str.tokens s
    | .proto w => u8.tokens 1 ++ F.tokens w
    | .table => u8.tokens 2
    | .cdata => u8.tokens 3
  value
    | .str s => .str s
    | .proto w => .proto (F.value w)
    | .table => .table .blank
    | .cdata => .cdata ⟨0, [], none, 0⟩
  requests
    | .str s => str.requests s
    | .proto w => F.requests w
    | _ => []

/-- The header that belongs to the sections. -/
def headerOf (w : WireProtoOf ω) : ProtoHeader where
  flags := w.flags
  numparams := w.numparams
  framesize := w.framesize
  bcLen := .ofNat w.bc.length
  kgcLen := .ofNat w.kgc.length
  knLen := .ofNat w.kn.length
  kstrvLen := .ofNat w.kstrv.length
  uvLen := .ofNat w.uv.length
  uvnamesLen := .ofNat w.uvnames.length
  firstline := w.firstline
  numline := w.numline

/-- A section of elements of `size` units, whose count fits the header. -/
def counted {α : Type} (size : ℕ) (F : Format UInt8 ω α) : Format UInt8 (List ω) (List α) where
  Fits ws := ws.length < 2^32 ∧ ∀ w ∈ ws, F.Fits w
  tokens ws := ws.flatMap F.tokens
  value ws := ws.map F.value
  requests ws := size * ws.length :: ws.flatMap F.requests

/-- The lines have no count of their own. -/
def prototype (K : Format UInt8 ω KGc) : Format UInt8 (WireProtoOf ω) Proto where
  Fits w := w.lines.length = w.bc.length ∧ source.Fits w.source ∧ (counted 4 u32).Fits w.bc ∧
    (counted 8 f64).Fits w.kn ∧ (counted 8 kstrv).Fits w.kstrv ∧ (counted 2 u16).Fits w.uv ∧
    (counted 24 name).Fits w.uvnames ∧ (counted 16 K).Fits w.kgc
  tokens w := header.tokens (headerOf w) ++ (source.tokens w.source ++
    ((counted 4 u32).tokens w.bc ++ ((counted 4 u32).tokens w.lines ++
    ((counted 8 f64).tokens w.kn ++ ((counted 8 kstrv).tokens w.kstrv ++
    ((counted 2 u16).tokens w.uv ++ ((counted 24 name).tokens w.uvnames ++
    (counted 16 K).tokens w.kgc)))))))
  value w :=
    { bc := (counted 4 u32).value w.bc, lines := (counted 4 u32).value w.lines,
      kgc := (counted 16 K).value w.kgc, kn := (counted 8 f64).value w.kn,
      kstrv := (counted 8 kstrv).value w.kstrv, uv := (counted 2 u16).value w.uv,
      uvnames := (counted 24 name).value w.uvnames, varnames := [], flags := w.flags,
      numparams := w.numparams, framesize := w.framesize, firstline := w.firstline,
      numline := w.numline, source := source.value w.source }
  requests w := source.requests w.source ++
    ((counted 4 u32).requests w.bc ++ ((counted 4 u32).requests w.lines ++
    ((counted 8 f64).requests w.kn ++ ((counted 8 kstrv).requests w.kstrv ++
    ((counted 2 u16).requests w.uv ++ ((counted 24 name).requests w.uvnames ++
    (counted 16 K).requests w.kgc))))))

theorem prototype_tokens (K : Format UInt8 ω KGc) (w : WireProtoOf ω) :
    (prototype K).tokens w = header.tokens (headerOf w) ++ (source.tokens w.source ++
      (w.bc.flatMap u32.tokens ++ (w.lines.flatMap u32.tokens ++ (w.kn.flatMap f64.tokens ++
      (w.kstrv.flatMap kstrv.tokens ++ (w.uv.flatMap u16.tokens ++
      (w.uvnames.flatMap name.tokens ++ w.kgc.flatMap K.tokens))))))) := rfl

/-- The format of prototypes that are nested at most `n` deep. -/
def nested : (n : ℕ) → Format UInt8 (WireProto n) Proto
  | 0 => ⟨Empty.elim, Empty.elim, Empty.elim, Empty.elim⟩
  | n + 1 => prototype (constant (nested n))

/-! ### The readers of single values -/

theorem fixed_decodes {α : Type} {k : ℕ} {ofNat : ℕ → α} {toNat : α → ℕ}
    (hto : ∀ v, v < 256^k → toNat (ofNat v) = v) (hof : ∀ a, ofNat (toNat a) = a)
    (hlt : ∀ a, toNat a < 256^k) :
    Decodes (do let v ← readLe k; pure (ofNat v)) (fixed k toNat) where
  complete a _ :=
    (((leNat_decodes _ k).complete (toNat a) (hlt a)).map ofNat).cast rfl (hof a) rfl
  sound hi := by
    obtain ⟨v, hv, rfl, hr⟩ := ((leNat_decodes _ k).map ofNat).sound hi
    exact ⟨ofNat v, trivial, rfl, hr.trans (congrArg (le k · ++ _) (hto v hv).symm)⟩

theorem readU8_decodes : Decodes readU8 u8 :=
  fixed_decodes (fun _ hv => Nat.mod_eq_of_lt hv) (fun _ => UInt8.ofNat_toNat) UInt8.toNat_lt

theorem readU16_decodes : Decodes readU16 u16 :=
  fixed_decodes (fun _ hv => Nat.mod_eq_of_lt hv) (fun _ => UInt16.ofNat_toNat) UInt16.toNat_lt

theorem readU32_decodes : Decodes readU32 u32 :=
  fixed_decodes (fun _ hv => Nat.mod_eq_of_lt hv) (fun _ => UInt32.ofNat_toNat) UInt32.toNat_lt

theorem readF64_decodes : Decodes readF64 f64 :=
  fixed_decodes (fun _ hv => Nat.mod_eq_of_lt hv) (fun _ => congrArg F64.mk UInt64.ofNat_toNat)
    fun x => x.bits.toNat_lt

theorem readKstrv_decodes : Decodes readKstrv kstrv := readU32_decodes.map _

theorem toNat_ofNat_lt {n : ℕ} (h : n < 2^32) : (UInt32.ofNat n).toNat = n := Nat.mod_eq_of_lt h

theorem prefixed_decodes {ι α : Type} {k : ℕ} {readLen : Read ι} {toNat : ι → ℕ} (ofNat : ℕ → ι)
    (hread : Decodes readLen (fixed k toNat)) (hto : ∀ v, v < 256^k → toNat (ofNat v) = v)
    (hlt : ∀ a, toNat a < 256^k) (size : List UInt8 → ℕ) (g : List UInt8 → α) :
    Decodes (do
      let len ← readLen
      let bytes ← readBytes (toNat len)
      request (size bytes)
      pure (g bytes)) (prefixed k size g) where
  complete s hs := by
    have hcount := hto s.length hs
    have hlen := hread.complete (ofNat s.length) trivial
    have hbytes := (slice_decodes Panic.indexOutOfBounds s.length).complete s rfl
    have hrequest : Yields (do request (size s); pure (g s) : Read α) [] (g s) [size s] :=
      (request_yields (size s)).bind (yields_pure (g s))
    have hrest := (hbytes.bind (f := fun bytes => do request (size bytes); pure (g bytes))
      hrequest).cast (List.append_nil s) rfl rfl
    rw [← hcount] at hrest
    exact (hlen.bind (f := fun len => do
      let bytes ← readBytes (toNat len)
      request (size bytes)
      pure (g bytes)) hrest).cast (congrArg (le k · ++ s) hcount) rfl rfl
  sound hi := by
    obtain ⟨len, i₁, -, hr₁, hi⟩ := hread.ok_bind hi
    obtain ⟨s, i₂, hs, hr₂, hi⟩ := (slice_decodes _ _).ok_bind hi
    cases hi
    have hlen : s.length = toNat len := hs
    have htok : (prefixed k size g).tokens s = le k (toNat len) ++ s := congrArg (le k · ++ s) hlen
    refine ⟨s, (hlen.trans_lt (hlt len) : s.length < 256^k), rfl, ?_⟩
    rw [hr₁, hr₂, htok, List.append_assoc]
    rfl

theorem readStr_decodes : Decodes readStr str :=
  prefixed_decodes UInt32.ofNat readU32_decodes (fun _ hv => Nat.mod_eq_of_lt hv)
    UInt32.toNat_lt _ _

theorem readName_decodes : Decodes readName name :=
  prefixed_decodes UInt16.ofNat readU16_decodes (fun _ hv => Nat.mod_eq_of_lt hv)
    UInt16.toNat_lt _ _

/-! ### Prototypes -/

theorem readHeader_decodes : Decodes readHeader header where
  complete h _ := by
    have u8_complete := fun v => readU8_decodes.complete v trivial
    have u16_complete := fun v => readU16_decodes.complete v trivial
    have u32_complete := fun v => readU32_decodes.complete v trivial
    exact (u16_complete h.flags).bind <| (u8_complete h.numparams).bind <|
      (u8_complete h.framesize).bind <| (u32_complete h.bcLen).bind <|
      (u32_complete h.kgcLen).bind <| (u32_complete h.knLen).bind <|
      (u32_complete h.kstrvLen).bind <| (u32_complete h.uvLen).bind <|
      (u32_complete h.uvnamesLen).bind <| (u32_complete h.firstline).bind <|
      (u32_complete h.numline).map fun numline => ProtoHeader.mk h.flags h.numparams h.framesize
        h.bcLen h.kgcLen h.knLen h.kstrvLen h.uvLen h.uvnamesLen h.firstline numline
  sound hi := by
    obtain ⟨flags, _, -, h₁, hi⟩ := readU16_decodes.ok_bind hi
    obtain ⟨numparams, _, -, h₂, hi⟩ := readU8_decodes.ok_bind hi
    obtain ⟨framesize, _, -, h₃, hi⟩ := readU8_decodes.ok_bind hi
    obtain ⟨bcLen, _, -, h₄, hi⟩ := readU32_decodes.ok_bind hi
    obtain ⟨kgcLen, _, -, h₅, hi⟩ := readU32_decodes.ok_bind hi
    obtain ⟨knLen, _, -, h₆, hi⟩ := readU32_decodes.ok_bind hi
    obtain ⟨kstrvLen, _, -, h₇, hi⟩ := readU32_decodes.ok_bind hi
    obtain ⟨uvLen, _, -, h₈, hi⟩ := readU32_decodes.ok_bind hi
    obtain ⟨uvnamesLen, _, -, h₉, hi⟩ := readU32_decodes.ok_bind hi
    obtain ⟨firstline, _, -, h₁₀, hi⟩ := readU32_decodes.ok_bind hi
    obtain ⟨numline, _, -, h₁₁, hi⟩ := readU32_decodes.ok_bind hi
    cases hi
    refine ⟨⟨flags, numparams, framesize, bcLen, kgcLen, knLen, kstrvLen, uvLen, uvnamesLen,
      firstline, numline⟩, trivial, rfl, ?_⟩
    rw [h₁, h₂, h₃, h₄, h₅, h₆, h₇, h₈, h₉, h₁₀, h₁₁]
    simp only [header, List.append_assoc]

theorem readSource_decodes : Decodes readSource source where
  complete o ho := by
    cases o with
    | none => exact ((readU8_decodes.complete 0 trivial).bind (f := fun hasSource =>
        if hasSource = 0 then pure none else do let s ← readStr; pure (some s))
        (yields_pure none)).cast (List.append_nil _) rfl rfl
    | some o =>
      obtain ⟨b, s⟩ := o
      obtain ⟨hb, hs⟩ := ho
      have hrest : Yields (if u8.value b = 0 then pure none else do let s ← readStr; pure (some s))
          (str.tokens s) (some s) (str.requests s) := by
        rw [if_neg (show u8.value b ≠ 0 from hb)]
        exact (readStr_decodes.complete s hs).map some
      exact (readU8_decodes.complete b trivial).bind hrest
  sound hi := by
    obtain ⟨b, i₁, -, hr₁, hi⟩ := readU8_decodes.ok_bind hi
    split at hi
    · next hb =>
      cases hi
      exact ⟨none, trivial, rfl, hr₁.trans (congrArg (u8.tokens · ++ _) hb)⟩
    · next hb =>
      obtain ⟨s, i₂, hs, hr₂, hi⟩ := readStr_decodes.ok_bind hi
      cases hi
      exact ⟨some (b, s), ⟨hb, hs⟩, rfl, by rw [hr₁, hr₂]; exact (List.append_assoc ..).symm⟩

variable {r : Read Proto} {F : Format UInt8 ω Proto}

theorem readKgc_decodes (h : Decodes r F) : Decodes (readKgc r) (constant F) where
  complete w hw := by
    have tag_complete := fun v => readU8_decodes.complete v trivial
    cases w with
    | str s => exact (tag_complete 0).bind ((readStr_decodes.complete s hw).map KGc.str)
    | proto w => exact (tag_complete 1).bind ((h.complete w hw).map KGc.proto)
    | table => exact (tag_complete 2).bind (yields_pure _)
    | cdata => exact (tag_complete 3).bind (yields_pure _)
  sound hi := by
    obtain ⟨tag, i₁, -, hr₁, hi⟩ := readU8_decodes.ok_bind hi
    generalize hn : (u8.value tag).toNat = n at hi
    have htag : u8.tokens tag = le 1 n := congrArg (le 1) hn
    rw [htag] at hr₁
    match n with
    | 0 =>
      obtain ⟨s, i₂, hs, hr₂, hi⟩ := readStr_decodes.ok_bind hi
      cases hi
      exact ⟨.str s, hs, rfl, by rw [hr₁, hr₂]; rfl⟩
    | 1 =>
      obtain ⟨w, i₂, hw, hr₂, hi⟩ := h.ok_bind hi
      cases hi
      exact ⟨.proto w, hw, rfl, by rw [hr₁, hr₂]; rfl⟩
    | 2 =>
      cases hi
      exact ⟨.table, trivial, rfl, hr₁⟩
    | 3 =>
      cases hi
      exact ⟨.cdata, trivial, rfl, hr₁⟩
    | n + 4 => cases hi

/-- The length of a section is what the header says. -/
theorem counted_yields {α β : Type} {m : Read α} {G : Format UInt8 β α} {size : ℕ} {ws : List β}
    (h : Decodes m G) (hw : (counted size G).Fits ws) :
    Yields (vec size (UInt32.ofNat ws.length).toNat m) ((counted size G).tokens ws)
      ((counted size G).value ws) ((counted size G).requests ws) := by
  rw [toNat_ofNat_lt hw.1]
  exact (h.vec size ws.length).complete ws ⟨rfl, hw.2⟩

theorem fits_of_vec {α β : Type} {G : Format UInt8 β α} {size : ℕ} {ws : List β} {n : UInt32}
    (h : (G.vec size n.toNat).Fits ws) : (counted size G).Fits ws ∧ n = UInt32.ofNat ws.length :=
  ⟨⟨h.1.trans_lt n.toNat_lt, h.2⟩, by rw [h.1, UInt32.ofNat_toNat]⟩

@[simp] theorem u16_values (size : ℕ) (ws : List UInt16) : (counted size u16).value ws = ws :=
  List.map_id ws

@[simp] theorem u32_values (size : ℕ) (ws : List UInt32) : (counted size u32).value ws = ws :=
  List.map_id ws

@[simp] theorem f64_values (size : ℕ) (ws : List F64) : (counted size f64).value ws = ws :=
  List.map_id ws

variable {c : Read KGc} {K : Format UInt8 ω KGc}

theorem readProtoWith_decodes (h : Decodes c K) : Decodes (readProtoWith c) (prototype K) where
  complete w hw := by
    obtain ⟨hlines, hsource, hbc, hkn, hkstrv, huv, huvnames, hkgc⟩ := hw
    have hl : (counted 4 u32).Fits w.lines := ⟨hlines ▸ hbc.1, fun _ _ => trivial⟩
    have lines_yields := counted_yields readU32_decodes hl
    rw [hlines] at lines_yields
    exact Yields.cast ((readHeader_decodes.complete (headerOf w) trivial).bind <|
      (readSource_decodes.complete w.source hsource).bind <|
      (counted_yields readU32_decodes hbc).bind <| lines_yields.bind <|
      (counted_yields readF64_decodes hkn).bind <|
      (counted_yields readKstrv_decodes hkstrv).bind <|
      (counted_yields readU16_decodes huv).bind <|
      (counted_yields readName_decodes huvnames).bind <| (counted_yields h hkgc).map _) rfl rfl rfl
  sound hi := by
    obtain ⟨hd, i₁, -, h₁, hi⟩ := readHeader_decodes.ok_bind hi
    obtain ⟨source, i₂, hsource, h₂, hi⟩ := readSource_decodes.ok_bind hi
    obtain ⟨bc, i₃, hbc, h₃, hi⟩ := (readU32_decodes.vec 4 _).ok_bind hi
    obtain ⟨lines, i₄, hlines, h₄, hi⟩ := (readU32_decodes.vec 4 _).ok_bind hi
    obtain ⟨kn, i₅, hkn, h₅, hi⟩ := (readF64_decodes.vec 8 _).ok_bind hi
    obtain ⟨kstrv, i₆, hkstrv, h₆, hi⟩ := (readKstrv_decodes.vec 8 _).ok_bind hi
    obtain ⟨uv, i₇, huv, h₇, hi⟩ := (readU16_decodes.vec 2 _).ok_bind hi
    obtain ⟨uvnames, i₈, huvnames, h₈, hi⟩ := (readName_decodes.vec 24 _).ok_bind hi
    obtain ⟨kgc, i₉, hkgc, h₉, hi⟩ := (h.vec 16 _).ok_bind hi
    cases hi
    have hlen : lines.length = bc.length := hlines.1.trans hbc.1.symm
    obtain ⟨hbc, hbcLen⟩ := fits_of_vec hbc
    obtain ⟨hkn, hknLen⟩ := fits_of_vec hkn
    obtain ⟨hkstrv, hkstrvLen⟩ := fits_of_vec hkstrv
    obtain ⟨huv, huvLen⟩ := fits_of_vec huv
    obtain ⟨huvnames, huvnamesLen⟩ := fits_of_vec huvnames
    obtain ⟨hkgc, hkgcLen⟩ := fits_of_vec hkgc
    let w : WireProtoOf ω := ⟨hd.flags, hd.numparams, hd.framesize, hd.firstline, hd.numline, source,
      bc, lines, kn, kstrv, uv, uvnames, kgc⟩
    have hheader : headerOf w = hd := by
      simp only [headerOf, w, ← hbcLen, ← hknLen, ← hkstrvLen, ← huvLen, ← huvnamesLen, ← hkgcLen]
      rfl
    refine ⟨w, ⟨hlen, hsource, hbc, hkn, hkstrv, huv, huvnames, hkgc⟩, rfl, ?_⟩
    rw [h₁, h₂, h₃, h₄, h₅, h₆, h₇, h₈, h₉, ← hheader]
    simp only [prototype, List.append_assoc]
    rfl

/-- The reader with room for `stack` nested prototypes returns exactly on the written forms of
prototypes that are nested no deeper. -/
theorem readProto_decodes (stack : ℕ) : Decodes (readProto stack) (nested stack) := by
  induction stack with
  | zero => exact ⟨fun w => w.elim, fun hi => nomatch hi⟩
  | succ stack ih => exact readProtoWith_decodes (readKgc_decodes ih)

end Undump
end LuajitRs
