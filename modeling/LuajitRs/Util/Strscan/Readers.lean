import LuajitRs.Util.Strscan.Law

/-! The entry points of the number scanner over whole texts: which characters a text that `scanNumber`
accepts is made of, what the suffix of a text does to `scanNumberFull`, and that taking underscores out
does not change what `scanNumberFull` reads. -/
namespace LuajitRs
namespace Strscan

/-! ### Suffixes -/

/-- The texts of a suffix. -/
inductive SuffixText : NumSuffix → List UInt8 → Prop
  | none : SuffixText .none []
  | imag {i} (hi : isLowI i = true) : SuffixText .imag [i]
  | ll {a b} (ha : isLowL a = true) (hb : isLowL b = true) : SuffixText .ll [a, b]
  | ull {u a b} (hu : isLowU u = true) (ha : isLowL a = true) (hb : isLowL b = true) :
      SuffixText .ull [u, a, b]

/-- No character of a suffix. -/
def Bare (s : List UInt8) : Prop := ∀ b ∈ s, isLowL b = false ∧ isLowU b = false ∧ isLowI b = false

theorem endsLl_cases {s : List UInt8} (h : endsLl s = true) :
    ∃ a b, s = s.take (s.length - 2) ++ [a, b] ∧ isLowL a = true ∧ isLowL b = true := by
  unfold endsLl at h
  split at h
  next a b hd =>
    rw [Bool.and_eq_true] at h
    exact ⟨a, b, by rw [← hd, List.take_append_drop], h⟩
  next => cases h

theorem endsUll_cases {s : List UInt8} (h : endsUll s = true) :
    ∃ u a b, s = s.take (s.length - 3) ++ [u, a, b] ∧ isLowU u = true ∧ isLowL a = true ∧ isLowL b = true := by
  unfold endsUll at h
  split at h
  next u a b hd =>
    rw [Bool.and_eq_true, Bool.and_eq_true] at h
    exact ⟨u, a, b, by rw [← hd, List.take_append_drop], h.1.1, h.1.2, h.2⟩
  next => cases h

theorem splitSuffix_text (s : List UInt8) :
    ∃ tail, s = (splitSuffix s).1 ++ tail ∧ SuffixText (splitSuffix s).2 tail := by
  unfold splitSuffix
  split
  next hi =>
    cases hl : s.getLast? with
    | none => simp [hl] at hi
    | some i =>
      rw [hl] at hi
      exact ⟨[i], (List.dropLast_append_getLast? i hl).symm, .imag hi⟩
  split
  next hu =>
    obtain ⟨u, a, b, hs, h1, h2, h3⟩ := endsUll_cases hu
    exact ⟨_, hs, .ull h1 h2 h3⟩
  split
  next hl =>
    obtain ⟨a, b, hs, h1, h2⟩ := endsLl_cases hl
    exact ⟨_, hs, .ll h1 h2⟩
  next => exact ⟨[], (List.append_nil s).symm, .none⟩

section Suffix
variable {suf : NumSuffix} {body tail : List UInt8}

theorem endsLl_append {a b : UInt8} : endsLl (body ++ [a, b]) = (isLowL a && isLowL b) := by
  have : (body ++ [a, b]).drop ((body ++ [a, b]).length - 2) = [a, b] := by simp
  rw [endsLl, this]

theorem endsUll_append {u a b : UInt8} :
    endsUll (body ++ [u, a, b]) = (isLowU u && isLowL a && isLowL b) := by
  have : (body ++ [u, a, b]).drop ((body ++ [u, a, b]).length - 3) = [u, a, b] := by simp
  rw [endsUll, this]

theorem Bare.ends (h : Bare body) : endsLl body = false ∧ endsUll body = false := by
  constructor
  · rw [Bool.eq_false_iff]
    intro hl
    obtain ⟨a, b, hs, ha, -⟩ := endsLl_cases hl
    have ha' := (h a (hs ▸ by simp)).1
    simp [ha'] at ha
  · rw [Bool.eq_false_iff]
    intro hl
    obtain ⟨u, a, b, hs, hu, -⟩ := endsUll_cases hl
    have hu' := (h u (hs ▸ by simp)).2.1
    simp [hu'] at hu

/-- A text without the letters of a suffix is the body of what it makes with a suffix. -/
theorem splitSuffix_append (hb : Bare body) (ht : SuffixText suf tail) :
    splitSuffix (body ++ tail) = (body, suf) := by
  cases ht with
  | none =>
    have hlast : body.getLast?.any isLowI = false := by
      cases hl : body.getLast? with
      | none => rfl
      | some i => exact (hb i (List.mem_of_getLast? hl)).2.2
    simp [splitSuffix, hlast, hb.ends]
  | @imag i hi => simp [splitSuffix, hi]
  | @ll a b ha hb' =>
    have hull : endsUll (body ++ [a, b]) = false := by
      cases body using List.reverseRecOn with
      | nil => rfl
      | append_singleton s u =>
        have hu := (hb u (by simp)).2.1
        rw [List.append_assoc, List.singleton_append, endsUll_append, hu]
        rfl
    simp [splitSuffix, lowL_ne hb', hull, endsLl_append, ha, hb']
  | @ull u a b hu ha hb' =>
    simp [splitSuffix, lowL_ne hb', endsUll_append, hu, ha, hb']

end Suffix

/-! ### Bodies -/

theorem underscore_bare : isLowL (ch '_') = false ∧ isLowU (ch '_') = false ∧ isLowI (ch '_') = false := by
  decide

section Hex
variable {s rest : List UInt8} {m m' : HexMant}

/-- The digits are passed up to the exponent mark, with or without underscores. -/
theorem hexWrapLoop_split (h : hexWrapLoop m s = some (m', rest)) :
    ∃ l, s = l ++ rest ∧ Bare l ∧ (rest = [] ∨ ∃ p t, rest = p :: t ∧ isHexExpMark p = true) ∧
      hexWrapLoop m (strip s) = some (m', strip rest) := by
  have hdot : ch '.' ≠ ch '_' ∧ isLowL (ch '.') = false ∧ isLowU (ch '.') = false ∧
      isLowI (ch '.') = false := by decide
  fun_induction hexWrapLoop m s with
  | case1 m =>
    cases h
    exact ⟨[], rfl, fun b hb => (nomatch hb), .inl rfl, rfl⟩
  | case2 m c s d hc ih =>
    obtain ⟨l, rfl, hl, hr, hs⟩ := ih h
    have hb := hexDigit_bare (b := c) (by rw [hc]; rfl)
    refine ⟨c :: l, rfl, List.forall_mem_cons.mpr ⟨hb.2, hl⟩, hr, ?_⟩
    rw [strip_cons, if_neg hb.1, hexWrapLoop, hc]
    exact hs
  | case3 => cases h
  | case4 m s hdm hc ih =>
    obtain ⟨l, rfl, hl, hr, hs⟩ := ih h
    refine ⟨ch '.' :: l, rfl, List.forall_mem_cons.mpr ⟨hdot.2, hl⟩, hr, ?_⟩
    rw [strip_cons, if_neg hdot.1, hexWrapLoop, hc]
    simp only
    rw [if_pos trivial, if_neg hdm, hs]
  | case5 m c s hc hd hp =>
    cases h
    refine ⟨[], rfl, fun b hb => (nomatch hb), .inr ⟨c, s, rfl, hp⟩, ?_⟩
    rw [strip_cons, if_neg (hexMark_bare hp).1, hexWrapLoop, hc]
    simp only
    rw [if_neg hd, if_pos hp]
  | case6 m s hc hd hp ih =>
    obtain ⟨l, rfl, hl, hr, hs⟩ := ih h
    exact ⟨ch '_' :: l, rfl, List.forall_mem_cons.mpr ⟨underscore_bare, hl⟩, hr, by
      rw [strip_cons, if_pos rfl, hs]⟩
  | case7 => cases h

theorem hexExponent_strip {e r : ℕ} (h : hexExponent true e s = some r) :
    (∀ b ∈ s, Ascii.isDigit b = true ∨ b = ch '_') ∧ hexExponent true e (strip s) = some r := by
  fun_induction hexExponent true e s with
  | case1 e => exact ⟨fun b hb => (nomatch hb), h⟩
  | case2 e c s hc ih =>
    obtain ⟨h1, h2⟩ := ih h
    exact ⟨List.forall_mem_cons.mpr ⟨.inr hc.2, h1⟩, by rw [strip_cons, if_pos hc.2, h2]⟩
  | case3 e c s hc hd ih =>
    obtain ⟨h1, h2⟩ := ih h
    have hne := (digit_bare hd).1
    refine ⟨List.forall_mem_cons.mpr ⟨.inl hd, h1⟩, ?_⟩
    rw [strip_cons, if_neg hne, hexExponent, if_neg (fun hu => hne hu.2), if_pos hd, h2]
  | case4 => cases h

theorem signed_strip {e r : ℕ} (h : hexExponent true e (signed s).2 = some r) :
    signed (strip s) = ((signed s).1, strip (signed s).2) := by
  cases s with
  | nil => rfl
  | cons c s =>
    by_cases hc : isSign c
    · rw [strip_cons, if_neg (sign_bare hc).2.2.2.1, signed, signed, if_pos hc, if_pos hc]
    · have hs : signed (c :: s) = (false, c :: s) := signed_of_head (by simpa using hc)
      rw [hs] at h ⊢
      refine signed_of_head ?_
      have hd := (hexExponent_strip h).1
      cases hh : (strip (c :: s)).head? with
      | none => rfl
      | some b =>
        have hb := List.mem_of_mem_head? (Option.mem_def.mpr hh)
        have hne : b ≠ ch '_' := by simpa using (List.mem_filter.mp hb).2
        obtain hb | hb := hd b (mem_of_mem_strip hb)
        · exact (digit_bare hb).2
        · exact absurd hb hne

/-- The exponent of a hexadecimal number has no letter of a suffix. -/
theorem hexExponent_bare {e r : ℕ} (h : hexExponent true e (signed s).2 = some r) : Bare s := by
  intro b hb
  obtain hs | hb := mem_signed hb
  · exact (sign_bare hs).2.2.2.2
  · obtain hb | rfl := (hexExponent_strip h).1 b hb
    · exact (decChar_bare (isDecChar_of_digit hb)).2.2.2.2.2.imp_right fun h => ⟨h.1, h.2.1⟩
    · exact underscore_bare

theorem wrapExponent_strip {e : ℤ} (hr : rest = [] ∨ ∃ p t, rest = p :: t ∧ isHexExpMark p = true)
    (h : wrapExponent rest = some e) : Bare rest ∧ wrapExponent (strip rest) = some e := by
  rcases hr with rfl | ⟨x, t, rfl, hx⟩
  · exact ⟨fun b hb => (nomatch hb), h⟩
  · obtain ⟨n, hn, rfl⟩ := Option.map_eq_some_iff.mp h
    refine ⟨List.forall_mem_cons.mpr ⟨(hexMark_bare hx).2, hexExponent_bare hn⟩, ?_⟩
    rw [strip_cons, if_neg (hexMark_bare hx).1, wrapExponent, signed_strip hn, (hexExponent_strip hn).2]
    rfl

theorem scanHexToU64_strip {p : UInt64 × Bool} (h : scanHexToU64 s = some p) :
    Bare s ∧ scanHexToU64 (strip s) = some p := by
  unfold scanHexToU64 at h ⊢
  obtain ⟨⟨m, rest⟩, hm, h⟩ := Option.bind_eq_some_iff.mp h
  obtain ⟨l, hl, hbare, hrest, hstrip⟩ := hexWrapLoop_split hm
  rw [hstrip, Option.bind_eq_bind, Option.bind_some]
  by_cases hd : (!m.digit) = true
  · rw [if_pos hd] at h
    cases h
  · rw [if_neg hd] at h ⊢
    obtain ⟨e, he, h⟩ := Option.bind_eq_some_iff.mp h
    obtain ⟨hb, hs⟩ := wrapExponent_strip hrest he
    rw [hs, hl]
    exact ⟨List.forall_mem_append.mpr ⟨hbare, hb⟩, h⟩

end Hex

theorem scanBinLoop_strip (s : List UInt8) (val : UInt64) : scanBinLoop val (strip s) = scanBinLoop val s := by
  have h0 : ch '0' ≠ ch '_' := by decide
  have h1 : ch '1' ≠ ch '_' ∧ ch '1' ≠ ch '0' := by decide
  fun_induction scanBinLoop val s with
  | case1 val => rfl
  | case2 val s ih => rw [strip_cons, if_neg h0, scanBinLoop, if_pos rfl, ih]
  | case3 val s _ ih => rw [strip_cons, if_neg h1.1, scanBinLoop, if_neg h1.2, if_pos rfl, ih]
  | case4 val s _ _ ih => rw [strip_cons, if_pos rfl, ih]
  | case5 val c s hc0 hc1 hu => rw [strip_cons, if_neg hu, scanBinLoop, if_neg hc0, if_neg hc1, if_neg hu]

theorem scanBinLoop_chars {s : List UInt8} {val u : UInt64} (h : scanBinLoop val s = some u) :
    ∀ b ∈ s, isBinChar b = true := by
  fun_induction scanBinLoop val s with
  | case1 val => exact fun b hb => (nomatch hb)
  | case2 val s ih => exact List.forall_mem_cons.mpr ⟨by decide, ih h⟩
  | case3 val s _ ih => exact List.forall_mem_cons.mpr ⟨by decide, ih h⟩
  | case4 val s _ _ ih => exact List.forall_mem_cons.mpr ⟨by decide, ih h⟩
  | case5 => cases h

theorem scanBinToU64_bare {s : List UInt8} {u : UInt64} (h : scanBinToU64 s = some u) : Bare s := by
  intro b hb
  obtain ⟨h1, h2, h3, -⟩ := binChar_bare (scanBinLoop_chars h b hb)
  exact ⟨h1, h2, h3⟩

theorem wrapDec_strip (s : List UInt8) : wrapDec (strip s) = wrapDec s := by
  have hfold : ∀ v : UInt64, (strip s).foldl
      (fun v c => if c = ch '_' then v else v * 10 + UInt64.ofNat (c.toNat - 48)) v =
        s.foldl (fun v c => if c = ch '_' then v else v * 10 + UInt64.ofNat (c.toNat - 48)) v := by
    induction s with
    | nil => exact fun _ => rfl
    | cons c s ih =>
      intro v
      by_cases hc : c = ch '_'
      · rw [strip_cons, if_pos hc, ih, List.foldl_cons, if_pos hc]
      · rw [strip_cons, if_neg hc, List.foldl_cons, List.foldl_cons, ih]
  exact hfold 0

theorem scanDecToF64_strip {s : List UInt8} {p : UInt64 × Bool} (h : scanDecToF64 s = some p) :
    (∀ b ∈ s, isDecChar b = true ∨ b = ch '_') ∧ scanDecToF64 (strip s) = some p := by
  unfold scanDecToF64 at h ⊢
  obtain ⟨f, hf, h⟩ := Option.bind_eq_some_iff.mp h
  refine ⟨fun b hb => (decLoop_chars hf b hb).imp_right And.right, ?_⟩
  have hstrip : (strip s).filter (fun c => decide (c ≠ ch '_')) = s.filter (fun c => decide (c ≠ ch '_')) := by
    simp [strip]
  rw [decLoop_strip hf, wrapDec_strip, hstrip]
  exact h

theorem hasPrefix_mem {x : UInt8} {s : List UInt8} (h : hasPrefix x s = true) :
    ∃ c t, s = ch '0' :: c :: t ∧ (c ||| 0x20) = x := by
  unfold hasPrefix at h
  split at h
  next z c t =>
    rw [Bool.and_eq_true, decide_eq_true_eq, decide_eq_true_eq] at h
    exact ⟨c, t, by rw [h.1], h.2⟩
  next => cases h

theorem hasPrefix_of_chars {x : UInt8} {s : List UInt8} (hx : IsMark x)
    (h : ∀ b ∈ s, isDecChar b = true ∨ b = ch '_') : hasPrefix x s = false := by
  rw [Bool.eq_false_iff]
  intro hp
  obtain ⟨c, t, rfl, hc⟩ := hasPrefix_mem hp
  obtain ⟨h1, h2, -⟩ := mark_ne hx hc
  obtain hd | hd := h c (by simp)
  · simp [h2] at hd
  · exact h1 hd

theorem hasPrefix_strip {x c : UInt8} {t : List UInt8} (hx : IsMark x) (hc : (c ||| 0x20) = x) :
    strip (ch '0' :: c :: t) = ch '0' :: c :: strip t := by
  have h0 : ch '0' ≠ ch '_' := by decide
  rw [strip_cons, if_neg h0, strip_cons, if_neg (mark_ne hx hc).1]

theorem bare_mark {x c : UInt8} {t : List UInt8} (hx : IsMark x) (hc : (c ||| 0x20) = x) (h : Bare t) :
    Bare (ch '0' :: c :: t) := by
  have h0 : isLowL (ch '0') = false ∧ isLowU (ch '0') = false ∧ isLowI (ch '0') = false := by decide
  exact List.forall_mem_cons.mpr ⟨h0, List.forall_mem_cons.mpr ⟨(mark_ne hx hc).2.2.2.2, h⟩⟩

theorem scanBody_strip {s : List UInt8} {p : UInt64 × Bool} (h : scanBody s = some p) :
    Bare s ∧ scanBody (strip s) = some p := by
  have hxb : ∀ c : UInt8, (c ||| 0x20) = ch 'b' → (c ||| 0x20) ≠ ch 'x' := by
    intro c hc
    rw [hc]
    decide
  unfold scanBody at h
  split at h
  next hp =>
    obtain ⟨c, t, rfl, hc⟩ := hasPrefix_mem hp
    obtain ⟨hb, hs⟩ := scanHexToU64_strip h
    refine ⟨bare_mark (.inl rfl) hc hb, ?_⟩
    rw [hasPrefix_strip (.inl rfl) hc, scanBody, if_pos (by simp [hasPrefix, hc])]
    exact hs
  split at h
  next hp =>
    obtain ⟨c, t, rfl, hc⟩ := hasPrefix_mem hp
    obtain ⟨u, hu, rfl⟩ := Option.map_eq_some_iff.mp h
    have hb := scanBinToU64_bare hu
    have hs : scanBinToU64 (strip t) = some u := (scanBinLoop_strip t 0).trans hu
    have hx : hasPrefix (ch 'x') (ch '0' :: c :: strip t) = false := by
      simpa [hasPrefix] using hxb c hc
    refine ⟨bare_mark (.inr rfl) hc hb, ?_⟩
    rw [hasPrefix_strip (.inr rfl) hc, scanBody, if_neg (ne_true_of_eq_false hx), if_pos (by simp [hasPrefix, hc])]
    exact congrArg (Option.map (·, true)) hs
  next =>
    obtain ⟨hc, hs⟩ := scanDecToF64_strip h
    have hchars : ∀ b ∈ strip s, isDecChar b = true ∨ b = ch '_' := fun b hb => hc b (mem_of_mem_strip hb)
    refine ⟨fun b hb => ?_, ?_⟩
    · obtain hd | rfl := hc b hb
      · exact (decChar_bare hd).2.2.2.2.2.imp_right fun h => ⟨h.1, h.2.1⟩
      · exact underscore_bare
    · rw [scanBody, if_neg (ne_true_of_eq_false (hasPrefix_of_chars (.inl rfl) hchars)),
        if_neg (ne_true_of_eq_false (hasPrefix_of_chars (.inr rfl) hchars))]
      exact hs

/-! ### The whole text -/

theorem scanNumberFull_eq_some {s : List UInt8} {r : ScanNumberResult} :
    scanNumberFull s = some r ↔ s ≠ [] ∧ ∃ p n, scanBody (splitSuffix s).1 = some p ∧
      fullValue (splitSuffix s).1 (splitSuffix s).2 p = some n ∧
        r = ⟨n, if (splitSuffix s).2 = .imag then n.bits else p.1, (splitSuffix s).2⟩ := by
  unfold scanNumberFull
  by_cases hs : s = []
  · simp [hs]
  · rw [if_neg hs]
    simp only [hs, ne_eq, not_false_eq_true, true_and, Option.bind_eq_bind, Option.bind_eq_some_iff,
      Option.pure_def, Option.some.injEq]
    constructor
    · rintro ⟨p, hp, n, hn, rfl⟩
      exact ⟨p, n, hp, hn, rfl⟩
    · rintro ⟨p, n, hp, hn, rfl⟩
      exact ⟨p, hp, n, hn, rfl⟩

theorem fullValue_strip {body : List UInt8} {suf : NumSuffix} {p : UInt64 × Bool} {n : F64}
    (h : fullValue body suf p = some n) : fullValue (strip body) suf p = some n := by
  have hword : isDecChar (ch '_') = false ∧ isWordChar (ch '_') = false := by decide
  unfold fullValue at h ⊢
  split
  next hf =>
    rw [if_pos hf] at h
    have hu : ch '_' ∉ body := by
      intro hm
      obtain hd | hd := parseF64_chars h _ hm
      · exact absurd (hword.1 ▸ hd) Bool.false_ne_true
      · exact absurd (hword.2 ▸ hd) Bool.false_ne_true
    rw [strip_of_not_mem hu, h]
  next hf => rwa [if_neg hf] at h

theorem SuffixText.chars {suf : NumSuffix} {tail : List UInt8} (h : SuffixText suf tail) :
    ∀ b ∈ tail, (isLowL b || isLowU b || isLowI b) = true := by
  cases h with
  | none => exact fun b hb => (nomatch hb)
  | imag hi => exact List.forall_mem_singleton.mpr (by simp [hi])
  | ll ha hb => exact List.forall_mem_cons.mpr ⟨by simp [ha], List.forall_mem_singleton.mpr (by simp [hb])⟩
  | ull hu ha hb =>
    refine List.forall_mem_cons.mpr ⟨by simp [hu], ?_⟩
    exact List.forall_mem_cons.mpr ⟨by simp [ha], List.forall_mem_singleton.mpr (by simp [hb])⟩

theorem SuffixText.exists_mem {suf : NumSuffix} {tail : List UInt8} (h : SuffixText suf tail)
    (hs : suf ≠ .none) : ∃ b, b ∈ tail := by
  cases h with
  | none => exact absurd rfl hs
  | imag => exact ⟨_, .head _⟩
  | ll => exact ⟨_, .head _⟩
  | ull => exact ⟨_, .head _⟩

theorem strip_suffixText {suf : NumSuffix} {tail : List UInt8} (h : SuffixText suf tail) :
    strip tail = tail :=
  strip_of_not_mem fun hm => (suffixChar_ne (h.chars _ hm)).1 rfl

/-- What `scanNumberFull` reads in a text it also reads in the text without underscores. -/
theorem scanNumberFull_strip {s : List UInt8} {r : ScanNumberResult} (h : scanNumberFull s = some r) :
    scanNumberFull (strip s) = some r := by
  obtain ⟨hs, p, n, hp, hn, rfl⟩ := scanNumberFull_eq_some.mp h
  obtain ⟨tail, ht, htext⟩ := splitSuffix_text s
  obtain ⟨hbare, hbody⟩ := scanBody_strip hp
  have hsplit : splitSuffix (strip s) = (strip (splitSuffix s).1, (splitSuffix s).2) := by
    conv_lhs => rw [ht, strip_append, strip_suffixText htext]
    exact splitSuffix_append (fun b hb => hbare b (mem_of_mem_strip hb)) htext
  refine scanNumberFull_eq_some.mpr ⟨?_, p, n, ?_⟩
  · intro hnil
    rw [ht, strip_append, List.append_eq_nil_iff] at hnil
    rw [hnil.1] at hbody
    cases hbody
  · rw [hsplit]
    exact ⟨hbody, fullValue_strip hn, rfl⟩

/-! ### `scanNumber` -/

theorem scanHex_prefix {c : UInt8} {t : List UInt8} (h : (c ||| 0x20) = ch 'x') :
    scanHex (ch '0' :: c :: t) = none := by
  obtain ⟨h1, h2, h3⟩ := hexMark_ne h
  have h0 : hexValue (ch '0') = some 0 := by decide
  have hloop : ∀ m, hexLoop m (ch '0' :: c :: t) = none := by
    intro m
    have hc : ∀ m, hexLoop m (c :: t) = none := by
      intro m
      rw [hexLoop, h1]
      simp only
      rw [if_neg h2, if_neg (ne_true_of_eq_false h3)]
    rw [hexLoop, h0]
    simp only
    split
    · exact hc _
    · exact hc _
  rw [scanHex, hloop]
  rfl

/-- An accepted text is a decimal number between white space: every hexadecimal text is refused, as its
prefix is scanned with the digits. -/
theorem scanNumber_some {s : List UInt8} {v : F64} (h : scanNumber s = some v) :
    ∃ e, scanDec ((skipLeadingSpace s).take e) = some v ∧
      ∀ b ∈ (skipLeadingSpace s).drop e, Ascii.isWhitespace b = true := by
  unfold scanNumber at h
  simp only at h
  split at h
  · cases h
  split at h
  next hp =>
    split at h
    · cases h
    next he =>
      obtain ⟨c, t, hs, hc⟩ := hasPrefix_mem hp
      have htake : (skipLeadingSpace s).take (hexTokenLen (skipLeadingSpace s)) =
          ch '0' :: c :: t.take (hexTokenLen (skipLeadingSpace s) - 2) := by
        rw [hs, hexTokenLen, Nat.add_comm 2, List.take_succ_cons, List.take_succ_cons, Nat.add_sub_cancel]
      rw [htake, scanHex_prefix hc] at h
      cases h
  next =>
    split at h
    · cases h
    next he =>
      rw [not_or, not_not] at he
      exact ⟨_, h, List.all_eq_true.mp he.2⟩

theorem scanDec_chars {s : List UInt8} {v : F64} (h : scanDec s = some v) : ∀ b ∈ s, isDecChar b = true := by
  intro b hb
  unfold scanDec at h
  obtain ⟨f, hf, -⟩ := Option.bind_eq_some_iff.mp h
  obtain hs | hb := mem_signed hb
  · simp [isDecChar, hs]
  · exact (decLoop_chars hf b hb).resolve_right fun h => by cases h.1

theorem scanNumber_chars {s : List UInt8} {v : F64} (h : scanNumber s = some v) :
    ∀ b ∈ s, isDecChar b = true ∨ Ascii.isWhitespace b = true := by
  obtain ⟨e, hd, hw⟩ := scanNumber_some h
  intro b hb
  rw [← List.takeWhile_append_dropWhile (p := Ascii.isWhitespace) (l := s)] at hb
  rcases List.mem_append.mp hb with hb | hb
  · exact .inr (List.mem_takeWhile_imp hb)
  · rw [← List.take_append_drop e (s.dropWhile Ascii.isWhitespace)] at hb
    exact (List.mem_append.mp hb).imp (scanDec_chars hd b) (hw b)

/-- White space before or behind the text. -/
def surrounded (s : List UInt8) : Bool := s.head?.any Ascii.isWhitespace || s.getLast?.any Ascii.isWhitespace

theorem skipLeadingSpace_of_head {s : List UInt8} (h : s.head?.any Ascii.isWhitespace = false) :
    skipLeadingSpace s = s := by
  cases s with
  | nil => rfl
  | cons c s =>
    have hc : Ascii.isWhitespace c = false := by simpa using h
    rw [skipLeadingSpace, List.dropWhile_cons_of_neg (by simp [hc])]

theorem scanNumber_unsurrounded {s : List UInt8} {v : F64} (h : scanNumber s = some v)
    (hs : surrounded s = false) : scanDec s = some v := by
  rw [surrounded, Bool.or_eq_false_iff] at hs
  obtain ⟨e, hd, hw⟩ := scanNumber_some h
  rw [skipLeadingSpace_of_head hs.1] at hd hw
  have hdrop : s.drop e = [] := by
    cases hl : (s.drop e).getLast? with
    | none => exact List.getLast?_eq_none_iff.mp hl
    | some b =>
      have hsp := hw b (List.mem_of_getLast? hl)
      have hlast : s.getLast? = some b := by
        rw [← List.take_append_drop e s, List.getLast?_append, hl]
        rfl
      simp [hlast, hsp] at hs
  have htake : s.take e = s := by
    conv_rhs => rw [← List.take_append_drop e s, hdrop, List.append_nil]
  rwa [htake] at hd

/-- On an unsigned text that the loop accepts, `scanNumber` is the parser of the standard library. -/
theorem scanNumber_of_decLoop {s : List UInt8} {g : DecFlags} (h : decLoop false {} s = some g)
    (hd : g.digit = true) (he : g.exp = true → g.expDigits = true) : scanNumber s = parseF64 s := by
  have hchars : ∀ b ∈ s, isDecChar b = true := fun b hb =>
    (decLoop_chars h b hb).resolve_right fun h => (nomatch h.1)
  have hne : s ≠ [] := by
    rintro rfl
    cases h
    cases hd
  have hhead : s.head?.any Ascii.isWhitespace = false := by
    cases s with
    | nil => rfl
    | cons c s => simpa using (decChar_bare (hchars c (.head _))).2.2.2.2.2.2.2.2
  have hsign := signed_of_head (decLoop_head h)
  have hlen : decTokenLen s = s.length := by
    obtain ⟨h2, h1⟩ := decTokenLoop_of_decLoop h (by simp : _ → false = true)
    rw [decTokenLen, hsign]
    simp only
    rw [if_pos (h1 (.inl hd)), h2, Nat.sub_self, Nat.zero_add]
  have hpre := hasPrefix_of_chars (.inl rfl) fun b hb => .inl (hchars b hb)
  have hscan : scanDec s = parseF64 s := by
    have hok : ¬(((!g.digit) = true ∧ (!g.dot) = true) ∨ (g.exp = true ∧ (!g.expDigits) = true)) := by
      rintro (hn | hn)
      · simp [hd] at hn
      · simp [he hn.1] at hn
    rw [scanDec, hsign]
    simp only [h, Option.bind_eq_bind, Option.bind_some]
    rw [if_neg hok]
    simp
  unfold scanNumber
  simp only [skipLeadingSpace_of_head hhead]
  rw [if_neg hne, if_neg (ne_true_of_eq_false hpre), hlen, List.take_length, List.drop_length, hscan,
    if_neg (by simp [hne])]

/-! ### Both entry points -/

/-- A text of digits alone stands for a number that fits the accumulator. -/
def InRange (s : List UInt8) : Prop := (∀ b ∈ s, Ascii.isDigit b = true) → natOf s < 2^64

theorem wrapDec_digits {s : List UInt8} (h : ∀ b ∈ s, Ascii.isDigit b = true) :
    wrapDec s = UInt64.ofNat (natOf s) := by
  have hfold : ∀ n : ℕ, s.foldl
      (fun v c => if c = ch '_' then v else v * 10 + UInt64.ofNat (c.toNat - 48)) (UInt64.ofNat n) =
        UInt64.ofNat (s.foldl (fun n c => 10 * n + (c.toNat - 48)) n) := by
    induction s with
    | nil => exact fun _ => rfl
    | cons c s ih =>
      intro n
      have hc := (digit_bare (h c (.head _))).1
      have hstep : UInt64.ofNat n * 10 + UInt64.ofNat (c.toNat - 48) =
          UInt64.ofNat (10 * n + (c.toNat - 48)) := by
        rw [UInt64.ofNat_add, UInt64.ofNat_mul, UInt64.mul_comm]
        rfl
      rw [List.foldl_cons, List.foldl_cons, if_neg hc, hstep, ih fun b hb => h b (.tail _ hb)]
  exact hfold 0

/-- The value that `scan_dec_to_f64` gives a text without underscores, as the number of the result. -/
theorem fullValue_dec {s : List UInt8} {g : DecFlags} (hu : ch '_' ∉ s) (h : decLoop false {} s = some g)
    (hd : g.digit = true) (he : g.exp = true → g.expDigits = true) (hr : InRange s) :
    ((scanDecToF64 s).bind fun p => fullValue s .none p) = parseF64 s := by
  have hok : ¬((!g.digit) = true ∨ (g.exp = true ∧ (!g.expDigits) = true)) := by
    rintro (hn | hn)
    · simp [hd] at hn
    · simp [he hn.1] at hn
  rw [scanDecToF64, decLoop_sep hu, h, Option.bind_eq_bind, Option.bind_some, if_neg hok]
  by_cases hf : g.dot = true ∨ g.exp = true
  · have hstrip : s.filter (fun c => decide (c ≠ ch '_')) = s := strip_of_not_mem hu
    rw [if_pos hf, hstrip]
    cases hp : parseF64 s with
    | none => rfl
    | some n => simp [fullValue, hp]
  · have hdot : g.dot = false := by simpa using fun h => hf (.inl h)
    have hexp : g.exp = false := by simpa using fun h => hf (.inr h)
    have hdig := decLoop_digits h hdot hexp
    have hne : s ≠ [] := by
      rintro rfl
      cases h
      cases hd
    have hval : (UInt64.ofNat (natOf s)).toNat = natOf s := by
      rw [UInt64.toNat_ofNat', Nat.mod_eq_of_lt (hr hdig)]
    rw [if_neg hf, parseF64_digits hdig hne, wrapDec_digits hdig]
    simp only [fullValue, Option.pure_def, Option.bind_some, Bool.false_eq_true, false_and, if_false, hval]

theorem scanNumber_of_full {s : List UInt8} {r : ScanNumberResult} (h : scanNumberFull s = some r)
    (hsuf : r.suffix = .none) (hu : ch '_' ∉ s) (hx : hasPrefix (ch 'x') s = false)
    (hb : hasPrefix (ch 'b') s = false) (hr : InRange s) : scanNumber s = some r.n := by
  obtain ⟨-, p, n, hp, hn, rfl⟩ := scanNumberFull_eq_some.mp h
  obtain ⟨tail, ht, htext⟩ := splitSuffix_text s
  simp only at hsuf
  rw [hsuf] at htext hn
  cases htext
  rw [List.append_nil] at ht
  rw [← ht] at hp hn
  rw [scanBody, if_neg (ne_true_of_eq_false hx), if_neg (ne_true_of_eq_false hb)] at hp
  have hdec := hp
  unfold scanDecToF64 at hdec
  obtain ⟨g, hg, hdec⟩ := Option.bind_eq_some_iff.mp hdec
  rw [decLoop_sep hu] at hg
  split at hdec
  next => cases hdec
  next hok =>
    rw [not_or, Bool.not_eq_true', Bool.not_eq_false] at hok
    have he : g.exp = true → g.expDigits = true := fun h => by simpa [h] using hok.2
    have hval := fullValue_dec hu hg hok.1 he hr
    rw [hp, Option.bind_some, hn] at hval
    rw [scanNumber_of_decLoop hg hok.1 he, ← hval]

theorem full_of_scanNumber {s : List UInt8} {v : F64} (h : scanNumber s = some v)
    (hs : surrounded s = false) (hsign : s.head?.any isSign = false) (hr : InRange s) :
    (∃ g, decLoop false {} s = some g ∧ g.digit = true) ∧ ∃ u, scanNumberFull s = some ⟨v, u, .none⟩ := by
  have hd := scanNumber_unsurrounded h hs
  have hchars : ∀ b ∈ s, isDecChar b = true := scanDec_chars hd
  have hu : ch '_' ∉ s := fun hm => (decChar_bare (hchars _ hm)).2.2.2.2.1 rfl
  have hbare : Bare s := fun b hb => (decChar_bare (hchars b hb)).2.2.2.2.2.imp_right fun h => ⟨h.1, h.2.1⟩
  have hx := hasPrefix_of_chars (.inl rfl) fun b hb => .inl (hchars b hb)
  have hb := hasPrefix_of_chars (.inr rfl) fun b hb => .inl (hchars b hb)
  have hsplit : splitSuffix s = (s, .none) := by simpa using splitSuffix_append hbare .none
  unfold scanDec at hd
  rw [signed_of_head hsign] at hd
  obtain ⟨g, hg, hd⟩ := Option.bind_eq_some_iff.mp hd
  split at hd
  next => cases hd
  next hok =>
    rw [not_or, not_and_or, not_and_or] at hok
    obtain ⟨w, hv, hw⟩ := Option.bind_eq_some_iff.mp hd
    obtain rfl : w = v := by simpa using hw
    have hne : s ≠ [] := by
      rintro rfl
      cases hg
      simp at hok
    have hdigit : g.digit = true := (decLoop_digit hg hne).resolve_right fun h => by
      rw [h, parseF64_point] at hv
      cases hv
    have he : g.exp = true → g.expDigits = true := fun h => by simpa [h] using hok.2
    have hval := fullValue_dec hu hg hdigit he hr
    rw [hv] at hval
    obtain ⟨p, hp, hn⟩ := Option.bind_eq_some_iff.mp hval
    have hbody : scanBody s = some p := by
      rw [scanBody, if_neg (ne_true_of_eq_false hx), if_neg (ne_true_of_eq_false hb), hp]
    refine ⟨⟨g, hg, hdigit⟩, p.1, scanNumberFull_eq_some.mpr ⟨hne, p, w, ?_⟩⟩
    rw [hsplit]
    exact ⟨hbody, hn, rfl⟩

end Strscan
end LuajitRs
