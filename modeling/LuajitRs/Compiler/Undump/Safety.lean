import LuajitRs.Compiler.Undump

/-! When `undump` is safe: it returns, and no request of memory is out of proportion to the input.
Rejected headers are safe, and after an accepted header exactly the inputs that begin with a written
prototype are. -/
namespace LuajitRs
open Lib.Decoder Lib.Utf8

namespace Undump
variable {ω : Type}

/-! ### Memory -/

theorem fixed_frugal {α : Type} (k : ℕ) (toNat : α → ℕ) (c : ℕ) : (fixed k toNat).Frugal c :=
  fun _ _ _ hr => absurd hr List.not_mem_nil

theorem length_fixed {α : Type} (k : ℕ) (toNat : α → ℕ) (w : α) :
    ((fixed k toNat).tokens w).length = k := length_le k _

theorem prefixed_frugal {α : Type} {k c : ℕ} {size : List UInt8 → ℕ} {g : List UInt8 → α}
    (hs : ∀ s, size s ≤ c * s.length) : (prefixed k size g).Frugal c := by
  intro s _ r hr
  cases List.mem_singleton.mp hr
  apply (hs s).trans
  exact Nat.mul_le_mul_left c (by simp [prefixed])

theorem str_frugal : str.Frugal 16 := prefixed_frugal fun _ => Nat.le_mul_of_pos_left _ (by decide)

theorem name_frugal : name.Frugal 16 :=
  prefixed_frugal fun s => (length_encode_lossy_le s).trans (Nat.mul_le_mul_right _ (by decide))

theorem source_frugal : source.Frugal 16 := by
  intro o ho r hr
  cases o with
  | none => exact absurd hr List.not_mem_nil
  | some o =>
    apply (str_frugal o.2 ho.2 r hr).trans
    exact Nat.mul_le_mul_left 16 (by simp [source])

theorem constant_frugal {F : Format UInt8 ω Proto} (hF : F.Frugal 16) : (constant F).Frugal 16 := by
  intro w hw r hr
  cases w with
  | str s => exact (str_frugal s hw r hr).trans (Nat.mul_le_mul_left 16 (by simp [constant]))
  | proto w => exact (hF w hw r hr).trans (Nat.mul_le_mul_left 16 (by simp [constant]))
  | table => exact absurd hr List.not_mem_nil
  | cdata => exact absurd hr List.not_mem_nil

theorem one_le_constant (F : Format UInt8 ω Proto) (w : WireKGc ω) :
    1 ≤ ((constant F).tokens w).length := by
  cases w <;> simp [constant, u8, fixed]

/-- Elements of `size` bytes are paid for by `k` bytes of input each. -/
theorem counted_frugal {α : Type} {G : Format UInt8 ω α} {size k : ℕ} (hG : G.Frugal 16)
    (hk : ∀ w, k ≤ (G.tokens w).length) (hs : size ≤ 16 * k) : (counted size G).Frugal 16 := by
  intro ws hw r hr
  have hvec : (G.vec size ws.length).Frugal 16 := hG.vec (fun w _ => hk w) hs
  exact hvec ws ⟨rfl, hw.2⟩ r hr

theorem prototype_frugal {K : Format UInt8 ω KGc} (hK : K.Frugal 16)
    (hone : ∀ w, 1 ≤ (K.tokens w).length) : (prototype K).Frugal 16 := by
  rintro w ⟨hlines, hsource, hbc, hkn, hkstrv, huv, huvnames, hkgc⟩ r hr
  have hl : (counted 4 u32).Fits w.lines := ⟨hlines ▸ hbc.1, fun _ _ => trivial⟩
  have code_frugal : (counted 4 u32).Frugal 16 :=
    counted_frugal (k := 4) (fixed_frugal 4 _ 16) (fun v => (length_fixed 4 _ v).ge) (by decide)
  have kn_frugal : (counted 8 f64).Frugal 16 :=
    counted_frugal (k := 8) (fixed_frugal 8 _ 16) (fun v => (length_fixed 8 _ v).ge) (by decide)
  have kstrv_frugal : (counted 8 kstrv).Frugal 16 :=
    counted_frugal (k := 4) (fixed_frugal 4 _ 16) (fun v => (length_fixed 4 _ v).ge) (by decide)
  have uv_frugal : (counted 2 u16).Frugal 16 :=
    counted_frugal (k := 2) (fixed_frugal 2 _ 16) (fun v => (length_fixed 2 _ v).ge) (by decide)
  have uvnames_frugal : (counted 24 name).Frugal 16 :=
    counted_frugal (k := 2) name_frugal (fun s => by simp [name, prefixed]) (by decide)
  have kgc_frugal : (counted 16 K).Frugal 16 := counted_frugal hK hone (by decide)
  -- A part of the written form is no longer than the whole.
  have part : ∀ {n : ℕ}, r ≤ 16 * n → n ≤ ((prototype K).tokens w).length →
      r ≤ 16 * ((prototype K).tokens w).length :=
    fun h hn => h.trans (Nat.mul_le_mul_left 16 hn)
  simp only [prototype, List.length_append] at part ⊢
  simp only [prototype, List.mem_append] at hr
  rcases hr with hr | hr | hr | hr | hr | hr | hr | hr
  · exact part (source_frugal _ hsource r hr) (by omega)
  · exact part (code_frugal _ hbc r hr) (by omega)
  · exact part (code_frugal _ hl r hr) (by omega)
  · exact part (kn_frugal _ hkn r hr) (by omega)
  · exact part (kstrv_frugal _ hkstrv r hr) (by omega)
  · exact part (uv_frugal _ huv r hr) (by omega)
  · exact part (uvnames_frugal _ huvnames r hr) (by omega)
  · exact part (kgc_frugal _ hkgc r hr) (by omega)

theorem nested_frugal (n : ℕ) : (nested n).Frugal 16 := by
  induction n with
  | zero => exact fun w => w.elim
  | succ n ih => exact prototype_frugal (constant_frugal ih) (one_le_constant _)

/-! ### Safety -/

/-- `undump` returns, and asks for no more than sixteen times the size of the input at once. -/
def Safe (stack : ℕ) (data : List UInt8) : Prop :=
  ∃ answer i, undump stack data = .ok answer i ∧ ∀ r ∈ i.requests, r ≤ 16 * data.length

/-- The header is rejected. -/
def Rejected (data : List UInt8) : Prop :=
  data.length < 5 ∨ data.take 3 ≠ MAGIC ∨ data[3]? ≠ some VERSION

/-- What follows the header begins with a prototype whose nesting the stack has room for. -/
def HasPrototype (stack : ℕ) (data : List UInt8) : Prop :=
  ∃ w, (nested stack).Fits w ∧ (nested stack).tokens w <+: data.drop 5

theorem readU8_cons (v : UInt8) (rest : List UInt8) (reqs : List ℕ) :
    readU8 ⟨v :: rest, reqs⟩ = .ok v ⟨rest, reqs⟩ := by
  have hv := readU8_decodes.complete v trivial rest reqs
  simpa [u8, fixed, le] using hv

/-- The input splits into the magic number, two bytes and the body. -/
theorem exists_body {data : List UInt8} (hlen : ¬ data.length < 5) (hmagic : data.take 3 = MAGIC) :
    ∃ version flags body, data = MAGIC ++ version :: flags :: body := by
  match data with
  | a :: b :: c :: version :: flags :: body =>
    exact ⟨version, flags, body, congrArg (· ++ version :: flags :: body) hmagic⟩
  | [] | [_] | [_, _] | [_, _, _] | [_, _, _, _] => simp at hlen

theorem undump_body {stack : ℕ} {data : List UInt8} (h : ¬ Rejected data) :
    undump stack data = (do let p ← readProto stack; pure (.ok p) : Read _) ⟨data.drop 5, []⟩ := by
  unfold Rejected at h
  push Not at h
  obtain ⟨hlen, hmagic, hversion⟩ := h
  obtain ⟨version, flags, body, rfl⟩ := exists_body (by omega) hmagic
  have hv : version = VERSION := Option.some.inj hversion
  rw [undump, if_neg (by rw [hmagic]; simpa using hlen), readVersioned]
  rw [show (MAGIC ++ version :: flags :: body).drop 3 = version :: flags :: body from rfl,
    bind_ok (readU8_cons ..), if_neg (not_not.mpr hv), bind_ok (readU8_cons ..)]
  rfl

theorem safe_of_rejected {stack : ℕ} {data : List UInt8} (h : Rejected data) : Safe stack data := by
  unfold Safe undump
  split_ifs with hhead
  · exact ⟨_, _, rfl, fun r hr => absurd hr List.not_mem_nil⟩
  · push Not at hhead
    obtain ⟨version, flags, body, rfl⟩ := exists_body (by omega) hhead.2
    have hv : version ≠ VERSION := by
      rcases h with h | h | h
      · exact absurd h (by omega)
      · exact absurd hhead.2 h
      · exact fun heq => h (congrArg some heq)
    rw [show (MAGIC ++ version :: flags :: body).drop 3 = version :: flags :: body from rfl,
      readVersioned, bind_ok (readU8_cons ..), if_pos hv]
    exact ⟨_, _, rfl, fun r hr => absurd hr List.not_mem_nil⟩

/-- Exactly the inputs with a rejected header or a written prototype are safe. -/
theorem safe_iff (stack : ℕ) (data : List UInt8) :
    Safe stack data ↔ Rejected data ∨ HasPrototype stack data := by
  by_cases hrej : Rejected data
  · exact ⟨fun _ => .inl hrej, fun _ => safe_of_rejected hrej⟩
  rw [Safe, undump_body hrej]
  constructor
  · rintro ⟨answer, i, hi, -⟩
    obtain ⟨w, j, hw, hr, -⟩ := (readProto_decodes stack).ok_bind hi
    exact .inr ⟨w, hw, j.rest, hr.symm⟩
  · rintro (h | ⟨w, hw, tail, htail⟩)
    · exact absurd h hrej
    · have hrun := ((readProto_decodes stack).complete w hw).map
        (fun p => (.ok p : Except String Proto)) tail []
      rw [htail, List.nil_append] at hrun
      refine ⟨_, _, hrun, fun r hr => ?_⟩
      have hbody : ((nested stack).tokens w).length ≤ data.length := by
        have hsum := congrArg List.length htail
        rw [List.length_append, List.length_drop] at hsum
        omega
      exact (nested_frugal stack w hw r hr).trans (Nat.mul_le_mul_left 16 hbody)

/-- How `undump` fails, and the requests made until then. -/
def failure (stack : ℕ) (data : List UInt8) : Option (Panic × List ℕ) :=
  match undump stack data with
  | .ok _ _ => none
  | .error e i => some (e, i.requests)

theorem not_safe_of_failure {stack : ℕ} {data : List UInt8} {f : Panic × List ℕ}
    (h : failure stack data = some f) : ¬ Safe stack data := by
  rintro ⟨answer, i, hi, -⟩
  simp [failure, hi] at h

/-- A header and nothing else; a constant with tag 9; 42 bytes that claim `2^32 - 1` instructions. -/
theorem undump_unsafe :
    failure 200 [0x1b, 0x4c, 0x4a, 1, 0] = some (.indexOutOfBounds, []) ∧
    failure 200 ([0x1b, 0x4c, 0x4a, 1, 0, 0, 0, 0, 0, 0, 0, 0, 0, 1] ++ .replicate 28 0 ++ [9]) =
      some (.badKgcTag 9, [0, 0, 0, 0, 0, 0, 16]) ∧
    failure 200 ([0x1b, 0x4c, 0x4a, 1, 0, 0, 0, 0, 0, 255, 255, 255, 255] ++ .replicate 29 0) =
      some (.indexOutOfBounds, [4 * (2^32 - 1)]) ∧
    ¬ Safe 200 [0x1b, 0x4c, 0x4a, 1, 0] := by
  have htruncated : failure 200 [0x1b, 0x4c, 0x4a, 1, 0] = some (.indexOutOfBounds, []) := by
    decide +kernel
  exact ⟨htruncated, by decide +kernel, by decide +kernel, not_safe_of_failure htruncated⟩

end Undump
end LuajitRs
