import LuajitRs.Compiler.Undump.Safety

/-! The writer of dumped bytecode, and reading back what was dumped. Lengths are cut to the width of their field, table
templates and C data constants leave only their tag, and the names of local variables are not written. The prototype
trees that survive are those that the format has room for: every length fits its field, and there is nothing in the
tree that the writer leaves out. -/
namespace LuajitRs
open Lib.Decoder Lib.Utf8 Undump

namespace Dump

def wU8 (v : UInt8) : List UInt8 := [v]
def wU16 (v : UInt16) : List UInt8 := le 2 v.toNat
def wU32 (v : UInt32) : List UInt8 := le 4 v.toNat
def wF64 (v : F64) : List UInt8 := le 8 v.bits.toNat

/-- A length cast to `u32`. -/
def wLen {α : Type} (xs : List α) : List UInt8 := wU32 (.ofNat xs.length)

def writeSource : Option (List UInt8) → List UInt8
  | some b => wU8 1 ++ (wLen b ++ b)
  | none => wU8 0

def writeName (name : String) : List UInt8 :=
  wU16 (.ofNat (encode name.toList).length) ++ encode name.toList

/-- The part of `write_proto` before the constants. The count of resolved constants is always zero. -/
def writeFields {K : Type} (pt : ProtoOf K) : List UInt8 :=
  wU16 pt.flags ++ (wU8 pt.numparams ++ (wU8 pt.framesize ++ (wLen pt.bc ++ (wLen pt.kgc ++
  (wLen pt.kn ++ (wU32 0 ++ (wLen pt.uv ++ (wLen pt.uvnames ++ (wU32 pt.firstline ++
  (wU32 pt.numline ++ (writeSource pt.source ++ (pt.bc.flatMap wU32 ++ (pt.lines.flatMap wU32 ++
  (pt.kn.flatMap wF64 ++ (pt.uv.flatMap wU16 ++ pt.uvnames.flatMap writeName)))))))))))))))

mutual

def writeKgc : KGc → List UInt8
  | .str b => wU8 0 ++ (wLen b ++ b)
  | .proto child => wU8 1 ++ writeProto child
  | .table _ => wU8 2
  | .cdata _ => wU8 3

def writeProto : Proto → List UInt8
  | ⟨bc, lines, kgc, kn, kstrv, uv, uvnames, varnames, flags, np, fs, fl, nl, source⟩ =>
    writeFields ⟨bc, lines, kgc, kn, kstrv, uv, uvnames, varnames, flags, np, fs, fl, nl, source⟩ ++
      writeConstants kgc

def writeConstants : List KGc → List UInt8
  | [] => []
  | k :: ks => writeKgc k ++ writeConstants ks

end

theorem writeProto_eq (pt : Proto) : writeProto pt = writeFields pt ++ pt.kgc.flatMap writeKgc := by
  have hall : ∀ ks, writeConstants ks = ks.flatMap writeKgc := by
    intro ks
    induction ks with
    | nil => rfl
    | cons k ks ih => rw [writeConstants, ih, List.flatMap_cons]
  cases pt
  rw [writeProto, hall]

/-- The flags byte is zero. -/
def dump (pt : Proto) : List UInt8 := MAGIC ++ (wU8 VERSION ++ (wU8 0 ++ writeProto pt))

end Dump
end LuajitRs

namespace LuajitRs
open Lib.Decoder Lib.Utf8 Undump Dump

/-- The fields of a prototype itself fit the format. -/
structure ProtoOf.Plain {K : Type} (p : ProtoOf K) : Prop where
  varnames : p.varnames = []
  lines : p.lines.length = p.bc.length
  bc : p.bc.length < 2^32
  kgc : p.kgc.length < 2^32
  kn : p.kn.length < 2^32
  uv : p.uv.length < 2^32
  uvnames : p.uvnames.length < 2^32
  source : ∀ s ∈ p.source, s.length < 2^32
  name : ∀ s ∈ p.uvnames, (encode s.toList).length < 2^16

/-- A constant loses nothing when its children do not. -/
def KGc.Kept (child : Proto → Prop) : KGc → Prop
  | .str s => s.length < 2^32
  | .proto p => child p
  | .table t => ∀ k : NormalKey, t.value k.1 = .nil
  | .cdata c => c = ⟨0, [], none, 0⟩

/-- A tree that is nested at most `n` deep and has only what the format can hold. -/
def Proto.Kept : ℕ → Proto → Prop
  | 0, _ => False
  | n + 1, p => p.Plain ∧ ∀ k ∈ p.kgc, k.Kept (Proto.Kept n)

namespace Dump

theorem value_blank (k : LuaValue) : LuaTable.blank.value k = .nil := by
  unfold LuaTable.value
  cases LuaTable.blank.arrayIdx k with
  | none => rfl
  | some i => rfl

/-- The header that belongs to a prototype. -/
def headerFor {K : Type} (p : ProtoOf K) : ProtoHeader :=
  ⟨p.flags, p.numparams, p.framesize, .ofNat p.bc.length, .ofNat p.kgc.length, .ofNat p.kn.length, 0,
    .ofNat p.uv.length, .ofNat p.uvnames.length, p.firstline, p.numline⟩

theorem wU8_eq (v : UInt8) : wU8 v = u8.tokens v := by simp [wU8, u8, fixed, le]

theorem writeFields_eq {K : Type} (p : ProtoOf K) :
    writeFields p = header.tokens (headerFor p) ++ (writeSource p.source ++ (p.bc.flatMap wU32 ++
      (p.lines.flatMap wU32 ++ (p.kn.flatMap wF64 ++ (p.uv.flatMap wU16 ++
      p.uvnames.flatMap writeName))))) := by
  simp only [writeFields, header, headerFor, List.append_assoc, wU8_eq]
  rfl

/-! ### Writing is encoding -/

theorem str_tokens {s : List UInt8} (hs : s.length < 2^32) : str.tokens s = wLen s ++ s := by
  rw [wLen, wU32, toNat_ofNat_lt hs]
  rfl

theorem source_tokens {o : Option (List UInt8)} (ho : ∀ s ∈ o, s.length < 2^32) :
    source.tokens (o.map (1, ·)) = writeSource o := by
  cases o with
  | none => exact (wU8_eq 0).symm
  | some s =>
    rw [writeSource, wU8_eq, ← str_tokens (ho s rfl)]
    rfl

theorem name_tokens {s : String} (hs : (encode s.toList).length < 2^16) :
    name.tokens (encode s.toList) = writeName s := by
  have hlen : (UInt16.ofNat (encode s.toList).length).toNat = (encode s.toList).length :=
    Nat.mod_eq_of_lt hs
  rw [writeName, wU16, hlen]
  rfl

theorem name_value (s : String) : name.value (encode s.toList) = s :=
  (congrArg String.ofList (lossy_encode s.toList)).trans String.ofList_toList

/-- Witnesses for the elements of a list are a list of witnesses. -/
theorem exists_list {α β : Type} {P : α → β → Prop} {xs : List α} (h : ∀ x ∈ xs, ∃ y, P x y) :
    ∃ ys, List.Forall₂ P xs ys := by
  induction xs with
  | nil => exact ⟨[], .nil⟩
  | cons x xs ih =>
    obtain ⟨y, hy⟩ := h x (by simp)
    obtain ⟨ys, hys⟩ := ih fun z hz => h z (by simp [hz])
    exact ⟨y :: ys, .cons hy hys⟩

/-- The wire form stands for the constant. -/
structure Stands {ω : Type} (F : Format UInt8 ω KGc) (k : KGc) (w : ω) : Prop where
  fits : F.Fits w
  tokens : F.tokens w = writeKgc k
  agrees : k.Agrees (F.value w)

theorem Stands.all {ω : Type} {F : Format UInt8 ω KGc} {ks : List KGc} {ws : List ω}
    (h : List.Forall₂ (Stands F) ks ws) : ws.length = ks.length ∧ (∀ w ∈ ws, F.Fits w) ∧
      ws.flatMap F.tokens = ks.flatMap writeKgc ∧ List.Forall₂ KGc.Agrees ks (ws.map F.value) := by
  induction h with
  | nil => exact ⟨rfl, by simp, rfl, .nil⟩
  | cons hk _ ih =>
    obtain ⟨hlen, hfits, htokens, hagrees⟩ := ih
    refine ⟨congrArg (· + 1) hlen, ?_, ?_, .cons hk.agrees hagrees⟩
    · simpa using ⟨hk.fits, hfits⟩
    · rw [List.flatMap_cons, List.flatMap_cons, hk.tokens, htokens]

variable {ω : Type} {C : Format UInt8 ω KGc}

/-- The written form of a prototype whose constants are written as `ws`. -/
def wireOf (p : Proto) (ws : List ω) : WireProtoOf ω :=
  ⟨p.flags, p.numparams, p.framesize, p.firstline, p.numline, p.source.map (1, ·), p.bc, p.lines, p.kn,
    [], p.uv, p.uvnames.map fun s => encode s.toList, ws⟩

theorem wireOf_fits {p : Proto} {ws : List ω} (hp : p.Plain) (hlen : ws.length = p.kgc.length)
    (hws : ∀ w ∈ ws, C.Fits w) : (prototype C).Fits (wireOf p ws) := by
  have hsource : source.Fits (p.source.map (1, ·)) := by
    have hs := hp.source
    cases hsrc : p.source with
    | none => trivial
    | some s => exact ⟨by decide, hs s hsrc⟩
  have hnames : ∀ b ∈ p.uvnames.map fun s => encode s.toList, name.Fits b := by
    intro b hb
    obtain ⟨s, hs, rfl⟩ := List.mem_map.mp hb
    exact hp.name s hs
  exact ⟨hp.lines, hsource, ⟨hp.bc, fun _ _ => trivial⟩, ⟨hp.kn, fun _ _ => trivial⟩,
    ⟨Nat.two_pow_pos 32, fun _ _ => trivial⟩, ⟨hp.uv, fun _ _ => trivial⟩,
    ⟨(List.length_map _).trans_lt hp.uvnames, hnames⟩, ⟨hlen.trans_lt hp.kgc, hws⟩⟩

theorem wireOf_tokens {p : Proto} {ws : List ω} (hp : p.Plain) (hlen : ws.length = p.kgc.length) :
    (prototype C).tokens (wireOf p ws) = writeFields p ++ ws.flatMap C.tokens := by
  have hheader : headerOf (wireOf p ws) = headerFor p := by
    simp [headerOf, headerFor, wireOf, hlen]
  have hnames : (p.uvnames.map fun s => encode s.toList).flatMap name.tokens =
      p.uvnames.flatMap writeName := by
    rw [List.flatMap_map]
    exact List.flatMap_congr fun s hs => name_tokens (hp.name s hs)
  rw [prototype_tokens, hheader, writeFields_eq]
  simp only [wireOf, source_tokens hp.source, hnames, List.append_assoc]
  rfl

theorem wireOf_sameCode {p : Proto} {ws : List ω} (hp : p.Plain) :
    p.SameCode ((prototype C).value (wireOf p ws)) where
  bc := (u32_values 4 p.bc).symm
  lines := (u32_values 4 p.lines).symm
  kn := (f64_values 8 p.kn).symm
  uv := (u16_values 2 p.uv).symm
  uvnames := by
    have hnames : (p.uvnames.map fun s => encode s.toList).map name.value = p.uvnames := by
      rw [List.map_map]
      exact List.map_id'' name_value p.uvnames
    exact hnames.symm
  varnames := hp.varnames
  flags := rfl
  numparams := rfl
  framesize := rfl
  firstline := rfl
  numline := rfl
  source := by
    change p.source = (p.source.map (1, ·)).map Prod.snd
    cases p.source <;> rfl

/-- Whatever can be kept has a written form, which is what the writer puts out. -/
theorem exists_wire (n : ℕ) (p : Proto) (hp : p.Kept n) :
    ∃ w, (nested n).Fits w ∧ (nested n).tokens w = writeProto p ∧ p.Agrees ((nested n).value w) := by
  induction n generalizing p with
  | zero => exact hp.elim
  | succ n ih =>
    obtain ⟨plain, hkgc⟩ := hp
    have hconst : ∀ k ∈ p.kgc, ∃ w, Stands (constant (nested n)) k w := by
      intro k hk
      have hkept := hkgc k hk
      cases k with
      | str s => exact ⟨.str s, hkept, by rw [writeKgc, wU8_eq, ← str_tokens hkept]; rfl, rfl⟩
      | proto q =>
        obtain ⟨w, hw, ht, ha⟩ := ih q hkept
        exact ⟨.proto w, hw, by rw [writeKgc, wU8_eq, ← ht]; rfl, ha⟩
      | table t => exact ⟨.table, trivial, (wU8_eq 2).symm, fun k => (hkept k).trans (value_blank _).symm⟩
      | cdata c => exact ⟨.cdata, trivial, (wU8_eq 3).symm, hkept⟩
    obtain ⟨ws, hws⟩ := exists_list hconst
    obtain ⟨hlen, hfits, htokens, hagrees⟩ := Stands.all hws
    refine ⟨wireOf p ws, wireOf_fits plain hlen hfits, ?_, ?_⟩
    · exact (wireOf_tokens plain hlen).trans (by rw [htokens, writeProto_eq])
    · exact Proto.agrees_iff.mpr ⟨wireOf_sameCode plain, hagrees⟩

/-! ### What is read back was kept -/

theorem source_inj {o : Option (List UInt8)} {so : Option (UInt8 × List UInt8)} {xs ys : List UInt8}
    (hfits : source.Fits so) (heq : o = source.value so)
    (h : writeSource o ++ xs = source.tokens so ++ ys) : (∀ s ∈ o, s.length < 2^32) ∧ xs = ys := by
  cases so with
  | none =>
    cases heq
    exact ⟨fun _ hs => (nomatch hs), (List.append_inj h rfl).2⟩
  | some bs =>
    obtain ⟨b, s⟩ := bs
    cases heq
    have hlen : (writeSource (some s)).length = (source.tokens (some (b, s))).length := by
      simp [writeSource, source, str_tokens hfits.2, wU8, u8, fixed]
      omega
    refine ⟨fun s' hs' => ?_, (List.append_inj h hlen).2⟩
    cases hs'
    exact hfits.2

/-- A name that is too long is cut, and what is cut cannot be read back as the name. -/
theorem name_inj {s : String} {b xs ys : List UInt8} (hfits : name.Fits b) (heq : s = name.value b)
    (h : writeName s ++ xs = name.tokens b ++ ys) : (encode s.toList).length < 2^16 ∧ xs = ys := by
  have hb : b.length < 2^16 := hfits
  rw [writeName, wU16, List.append_assoc, UInt16.toNat_ofNat'] at h
  obtain ⟨hcount, hbytes⟩ := le_append_inj (Nat.mod_lt _ (by decide)) hb
    (h.trans (List.append_assoc ..))
  have hshort : (encode s.toList).length < 2^16 := by
    by_contra hlong
    have hcut : (encode s.toList).take b.length = b := by
      have hle : b.length ≤ (encode s.toList).length := by omega
      have := congrArg (List.take b.length) hbytes
      rwa [List.take_append_of_le_length hle, List.take_left] at this
    have hne : lossy 0 ((encode s.toList).take b.length) ≠ s.toList := lossy_take_ne (by omega)
    apply hne
    rw [hcut, heq]
    exact String.toList_ofList.symm
  have hlen : (encode s.toList).length = b.length := (Nat.mod_eq_of_lt hshort).symm.trans hcount
  exact ⟨hshort, (List.append_inj hbytes hlen).2⟩

theorem names_inj {ss : List String} {bs : List (List UInt8)} {xs ys : List UInt8}
    (hfits : ∀ b ∈ bs, name.Fits b) (heq : ss = bs.map name.value)
    (h : ss.flatMap writeName ++ xs = bs.flatMap name.tokens ++ ys) :
    (∀ s ∈ ss, (encode s.toList).length < 2^16) ∧ xs = ys := by
  subst heq
  induction bs with
  | nil => exact ⟨by simp, h⟩
  | cons b bs ih =>
    simp only [List.map_cons, List.flatMap_cons, List.append_assoc] at h
    obtain ⟨hb, h⟩ := name_inj (hfits b (by simp)) rfl h
    obtain ⟨hbs, h⟩ := ih (fun c hc => hfits c (by simp [hc])) h
    refine ⟨fun s hs => ?_, h⟩
    rw [List.map_cons] at hs
    cases hs with
    | head => exact hb
    | tail _ hs => exact hbs s hs

/-- Agreement of a constant with what its bytes mean shows that it was kept. -/
def Determines (P : KGc → Prop) (C : Format UInt8 ω KGc) : Prop :=
  ∀ k w xs ys, C.Fits w → k.Agrees (C.value w) → writeKgc k ++ xs = C.tokens w ++ ys → P k ∧ xs = ys

theorem Determines.all {P : KGc → Prop} (hC : Determines P C) {ks : List KGc} {ws : List ω}
    {xs ys : List UInt8} (hfits : ∀ w ∈ ws, C.Fits w)
    (hagree : List.Forall₂ KGc.Agrees ks (ws.map C.value))
    (h : ks.flatMap writeKgc ++ xs = ws.flatMap C.tokens ++ ys) : (∀ k ∈ ks, P k) ∧ xs = ys := by
  induction ws generalizing ks with
  | nil =>
    cases hagree
    exact ⟨by simp, h⟩
  | cons w ws ih =>
    cases hagree with
    | cons hk hks =>
      simp only [List.flatMap_cons, List.append_assoc] at h
      obtain ⟨hPk, h⟩ := hC _ w _ _ (hfits w (by simp)) hk h
      obtain ⟨hPks, h⟩ := ih (fun v hv => hfits v (by simp [hv])) hks h
      refine ⟨fun l hl => ?_, h⟩
      cases hl with
      | head => exact hPk
      | tail _ hl => exact hPks l hl

theorem header_inj {h h' : ProtoHeader} {xs ys : List UInt8}
    (heq : header.tokens h ++ xs = header.tokens h' ++ ys) : h.kstrvLen = h'.kstrvLen ∧ xs = ys := by
  have width : ∀ {α : Type} {k : ℕ} {toNat : α → ℕ} {a b : α} {xs ys : List UInt8},
      (fixed k toNat).tokens a ++ xs = (fixed k toNat).tokens b ++ ys → xs = ys :=
    fun h => (List.append_inj h ((length_fixed ..).trans (length_fixed ..).symm)).2
  simp only [header, List.append_assoc] at heq
  have hcount := width (width (width (width (width (width heq)))))
  obtain ⟨hk, hrest⟩ := le_append_inj h.kstrvLen.toNat_lt h'.kstrvLen.toNat_lt hcount
  exact ⟨UInt32.toNat_inj.mp hk, width (width (width (width hrest)))⟩

theorem kept_of_tokens (n : ℕ) (p : Proto) (w : WireProto n) (hw : (nested n).Fits w)
    (hp : p.Agrees ((nested n).value w)) {rest rest' : List UInt8}
    (h : writeProto p ++ rest = (nested n).tokens w ++ rest') : p.Kept n ∧ rest = rest' := by
  induction n generalizing p rest rest' with
  | zero => exact w.elim
  | succ n ih =>
    obtain ⟨same, hagree⟩ := Proto.agrees_iff.mp hp
    obtain ⟨hlines, hsource, hbc, hkn, hkstrv, huv, huvnames, hkgc⟩ := hw
    have bc_eq : p.bc = w.bc := same.bc.trans (u32_values 4 w.bc)
    have lines_eq : p.lines = w.lines := same.lines.trans (u32_values 4 w.lines)
    have kn_eq : p.kn = w.kn := same.kn.trans (f64_values 8 w.kn)
    have uv_eq : p.uv = w.uv := same.uv.trans (u16_values 2 w.uv)
    have kgc_len : p.kgc.length = w.kgc.length := hagree.length_eq.trans (List.length_map _)
    have uvnames_len : p.uvnames.length = w.uvnames.length :=
      (congrArg List.length same.uvnames).trans (List.length_map _)
    rw [writeProto_eq, writeFields_eq] at h
    replace h := h.trans (congrArg (· ++ rest') (prototype_tokens _ w))
    simp only [List.append_assoc] at h
    obtain ⟨hcount, h⟩ := header_inj h
    have kstrv_nil : w.kstrv = [] := by
      have hzero : 0 = (UInt32.ofNat w.kstrv.length).toNat := congrArg UInt32.toNat hcount
      rw [toNat_ofNat_lt hkstrv.1] at hzero
      exact List.length_eq_zero_iff.mp hzero.symm
    obtain ⟨source_lt, h⟩ := source_inj hsource same.source h
    rw [bc_eq, lines_eq, kn_eq, uv_eq, kstrv_nil] at h
    replace h := List.append_cancel_left (List.append_cancel_left (List.append_cancel_left
      (List.append_cancel_left h)))
    obtain ⟨name_lt, h⟩ := names_inj huvnames.2 same.uvnames h
    have hconst : Determines (KGc.Kept (Proto.Kept n)) (constant (nested n)) := by
      intro k wk xs ys hfits hk hbytes
      cases wk with
      | str s =>
        cases k with
        | str s' =>
          cases hk
          rw [writeKgc, wU8_eq, ← str_tokens hfits] at hbytes
          exact ⟨hfits, List.append_cancel_left hbytes⟩
        | _ => cases hk
      | proto v =>
        cases k with
        | proto q =>
          rw [writeKgc, wU8_eq, List.append_assoc] at hbytes
          exact ih q v hfits hk (List.append_cancel_left (hbytes.trans (List.append_assoc ..)))
        | _ => cases hk
      | table =>
        cases k with
        | table t =>
          rw [writeKgc, wU8_eq] at hbytes
          exact ⟨fun key => (hk key).trans (value_blank _), List.append_cancel_left hbytes⟩
        | _ => cases hk
      | cdata =>
        cases k with
        | cdata c =>
          rw [writeKgc, wU8_eq] at hbytes
          exact ⟨hk, List.append_cancel_left hbytes⟩
        | _ => cases hk
    obtain ⟨hkept, h⟩ := hconst.all hkgc.2 hagree h
    refine ⟨⟨?_, hkept⟩, h⟩
    exact ⟨same.varnames, lines_eq ▸ bc_eq ▸ hlines, bc_eq ▸ hbc.1, kgc_len ▸ hkgc.1, kn_eq ▸ hkn.1,
      uv_eq ▸ huv.1, uvnames_len ▸ huvnames.1, source_lt, name_lt⟩

/-! ### The round trip -/

/-- Dumping and reading back, with room for `stack` nested prototypes, gives a tree that agrees. -/
def RoundTrips (stack : ℕ) (p : Proto) : Prop :=
  ∃ q i, undump stack (dump p) = .ok (.ok q) i ∧ p.Agrees q

theorem undump_dump (stack : ℕ) (p : Proto) : undump stack (dump p) =
    (do let q ← readProto stack; pure (.ok q) : Read (Except String Proto)) ⟨writeProto p, []⟩ := by
  apply undump_body
  rintro (h | h | h)
  · simp only [dump, wU8, MAGIC, List.length_append, List.length_cons] at h
    omega
  · exact h rfl
  · exact h rfl

/-- Exactly the trees with nothing that the format cannot hold come back. -/
theorem roundTrips_iff (stack : ℕ) (p : Proto) : RoundTrips stack p ↔ p.Kept stack := by
  rw [RoundTrips, undump_dump]
  constructor
  · rintro ⟨q, i, hi, hq⟩
    obtain ⟨w, j, hw, hr, hok⟩ := (readProto_decodes stack).ok_bind hi
    cases hok
    exact (kept_of_tokens stack p w hw hq ((List.append_nil _).trans hr)).1
  · intro hp
    obtain ⟨w, hw, htokens, hagree⟩ := exists_wire stack p hp
    have hrun := ((readProto_decodes stack).complete w hw).map
      (fun q => (.ok q : Except String Proto)) [] []
    rw [List.append_nil, htokens] at hrun
    exact ⟨_, _, hrun, hagree⟩

/-- The prototype of `return {1}`, whose table is a template among the constants. -/
def templateProto : Proto where
  bc := [99 + 1 * 2^8, 53, 76 + 2 * 2^16]
  lines := [1, 1, 1]
  kgc := [.table ⟨[.nil, .num (F64.ofInt 1)], [], none, 2, 0, 0, 255⟩]
  kn := []
  kstrv := []
  uv := []
  uvnames := []
  varnames := []
  flags := 2
  numparams := 0
  framesize := 2
  firstline := 0
  numline := 1
  source := none

/-- The contents of a table template are lost, for any size of the stack. -/
theorem template_lost : ¬ ∃ stack, RoundTrips stack templateProto := by
  rintro ⟨stack, h⟩
  have hkept := (roundTrips_iff stack templateProto).mp h
  cases stack with
  | zero => exact hkept
  | succ n =>
    have hone : LuaValue.Normal (.ofInt 1) := (LuaValue.validKey_ofInt (by decide)).normal
    have hfirst : LuaTable.value ⟨[.nil, .num (F64.ofInt 1)], [], none, 2, 0, 0, 255⟩ (.ofInt 1) ≠
        .nil := by decide
    exact hfirst (hkept.2 _ List.mem_cons_self ⟨.ofInt 1, hone⟩)

end Dump
end LuajitRs
