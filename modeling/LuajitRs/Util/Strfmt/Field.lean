import LuajitRs.Util.Strfmt.HexFloat
import LuajitRs.Util.Strfmt.Number

/-! The width of a field. Every conversion has a text for its argument, and a field is that text padded to the width;
some conversions append the text without the padding, or pad it with the wrong character. -/
namespace LuajitRs.Strfmt
open Lib

/-! ### The other conversions -/

/-- `pad`: a text with blanks, in a vector of its own. -/
def padText (s : List UInt8) (width : Option ℕ) (left : Bool) : Except Fault (List UInt8) :=
  match width with
  | some w =>
    if s.length < w then
      inCapacity (if left then s ++ .replicate (w - s.length) (ch ' ') else .replicate (w - s.length) (ch ' ') ++ s)
    else .ok s
  | none => .ok s

def floatSign (s : Spec) (x : F64) : UInt8 :=
  if x.signBit then ch '-' else if s.plus then ch '+' else if s.space then ch ' ' else 0

def pushFloat (c : FloatConv) (s : Spec) (out : List UInt8) (x : F64) : Except Fault (List UInt8) := do
  let body ← fmtFloatBody s c x
  pushPadded out s body (floatSign s x) true

/-- The text of `%a` or `%A` with the sign that the flags ask for. -/
def hexFloatText (s : Spec) (x : F64) (upper : Bool) : List UInt8 :=
  let t := fmtA x (s.prec.getD 13) upper
  if !x.signBit && s.plus then ch '+' :: t
  else if !x.signBit && s.space && t.head? ≠ some (ch ' ') then ch ' ' :: t
  else t

def pushHexFloat (upper : Bool) (s : Spec) (out : List UInt8) (x : F64) : Except Fault (List UInt8) := do
  let t ← padText (hexFloatText s x upper) s.width s.left
  inCapacity (out ++ t)

/-- `%s`: a number is appended as it is; a string is cut and padded if it is not empty. -/
def pushStr (s : Spec) (out : List UInt8) (a : FmtArg) : Except Fault (List UInt8) :=
  match a with
  | .num x => .ok (out ++ g14 x)
  | .str t =>
    if t = [] then .ok out
    else
      let body := match s.prec with
        | some p => if p < t.length then t.take p else t
        | none => t
      pushPadded out s body 0 false

/-- The conversions of floats and of `%s`, over the number reader of the standard library. -/
def otherConv (parseF64 : List UInt8 → Option F64) (s : Spec) (c : UInt8) (args : List FmtArg) (out : List UInt8)
    (ai : ℕ) : Except FmtError (List UInt8 × ℕ) :=
  -- Only the reader of this host is used.
  let host : FmtHost := ⟨parseF64, fun _ _ _ out ai => .ok (out, ai)⟩
  match FloatConv.ofByte c with
  | some c => do
    let r ← nextNum host args ai
    let out ← orPanic (pushFloat c s out r.1)
    pure (out, r.2)
  | none =>
    if c = ch 'a' ∨ c = ch 'A' then do
      let r ← nextNum host args ai
      let out ← orPanic (pushHexFloat (c = ch 'A') s out r.1)
      pure (out, r.2)
    else
      match args[ai]? with
      | none => .error (.msg "bad argument to 'format'")
      | some a => do
        let out ← orPanic (pushStr s out a)
        pure (out, ai + 1)

/-- Formatting with all conversions. -/
def stdHost (parseF64 : List UInt8 → Option F64) : FmtHost := ⟨parseF64, otherConv parseF64⟩

/-! ### Padded texts -/

/-- A text and what is put before it, padded to the width: with blanks behind or before, or with zeros between. -/
def padTo (left zeros : Bool) (w : ℕ) (sign body : List UInt8) : List UInt8 :=
  let k := w - (sign.length + body.length)
  if left then sign ++ body ++ .replicate k (ch ' ')
  else if zeros then sign ++ .replicate k (ch '0') ++ body
  else .replicate k (ch ' ') ++ sign ++ body

section Padding
variable {left zeros : Bool} {w : ℕ} {sign body : List UInt8}

theorem length_padTo : (padTo left zeros w sign body).length = max w (sign.length + body.length) := by
  rw [padTo]
  split_ifs
  · simp only [List.length_append, List.length_replicate]
    omega
  · simp only [List.length_append, List.length_replicate]
    omega
  · simp only [List.length_append, List.length_replicate]
    omega

theorem padTo_false : padTo left false w sign body =
    if left then sign ++ body ++ .replicate (w - (sign.length + body.length)) (ch ' ')
    else .replicate (w - (sign.length + body.length)) (ch ' ') ++ sign ++ body := rfl

theorem padTo_long (hw : w ≤ sign.length + body.length) : padTo left zeros w sign body = sign ++ body := by
  rw [padTo, Nat.sub_eq_zero_of_le hw]
  split_ifs <;> simp

/-- The blanks of the padding show whether zeros were used. -/
theorem padTo_inj {zeros' : Bool} : padTo left zeros w sign body = padTo left zeros' w sign body ↔
    zeros = zeros' ∨ left = true ∨ w ≤ sign.length + body.length := by
  constructor
  · intro h
    by_contra hno
    have hne : zeros ≠ zeros' := fun heq => hno (.inl heq)
    have hl : left = false := Bool.eq_false_iff.mpr fun hl => hno (.inr (.inl hl))
    have hlt : sign.length + body.length < w := Nat.lt_of_not_le fun hw => hno (.inr (.inr hw))
    have hcount := congrArg (List.count (ch ' ')) h
    rw [padTo, padTo, hl] at hcount
    cases zeros <;> cases zeros'
    · exact hne rfl
    · simp [List.count_replicate] at hcount
      omega
    · simp [List.count_replicate] at hcount
      omega
    · exact hne rfl
  · rintro (rfl | rfl | hw)
    · rfl
    · rfl
    · rw [padTo_long hw, padTo_long hw]

theorem pushPadded_padTo (out : List UInt8) (s : Spec) (body : List UInt8) (sign : UInt8) (z : Bool) :
    pushPadded out s body sign z =
      inCapacity (out ++ padTo s.left (s.zero && (z || s.prec.isNone)) (s.width.getD 0) (signBytes sign) body) := by
  rw [pushPadded, padTo]
  by_cases hlt : (signBytes sign).length + body.length < s.width.getD 0
  · cases s.left <;> cases s.zero <;> cases z || s.prec.isNone <;> simp [hlt]
  · have h0 : s.width.getD 0 - ((signBytes sign).length + body.length) = 0 := by omega
    cases s.left <;> cases s.zero <;> cases z || s.prec.isNone <;> simp [hlt, h0]

theorem paddedField_padTo (s : Spec) (sign body : List UInt8) :
    paddedField s sign body = padTo s.left (s.zero && s.prec.isNone) (s.width.getD 0) sign body := by
  rw [paddedField, padTo, spacesBefore, zerosBefore, spacesAfter]
  cases s.left <;> cases s.zero && s.prec.isNone <;> simp

theorem padText_padTo (t sign : List UInt8) (width : Option ℕ) (left : Bool) (ht : sign ++ body = t) :
    padText t width left = if t.length < width.getD 0 then inCapacity (padTo left false (width.getD 0) sign body)
      else .ok (padTo left false (width.getD 0) sign body) := by
  have hlen : t.length = sign.length + body.length := by rw [← ht, List.length_append]
  cases width with
  | none =>
    rw [Option.getD_none, if_neg (Nat.not_lt_zero _), padTo_long (Nat.zero_le _), ht]
    rfl
  | some w =>
    rw [padText, Option.getD_some]
    split_ifs with hlt hl
    · rw [padTo, hl, if_pos rfl, ht, hlen]
    · rw [padTo, if_neg hl, if_neg (by decide), hlen, List.append_assoc, ht]
    · rw [padTo_long (by omega), ht]

end Padding

/-! ### What a field has to be -/

/-- The conversions with a width. -/
inductive Conv
  | int (c : IntConv)
  | chr
  | float (c : FloatConv)
  | hex (upper : Bool)
  | str

def Conv.byte : Conv → UInt8
  | int c => c.byte
  | chr => ch 'c'
  | float c => c.byte
  | hex upper => if upper then ch 'A' else ch 'a'
  | str => ch 's'

/-- The argument at a position, as a conversion takes it. -/
def Takes (host : FmtHost) (args : List FmtArg) (ai : ℕ) (v : Conv) (a : FmtArg) : Prop :=
  match v, a with
  | .str, a => args[ai]? = some a
  | _, .num x => nextNum host args ai = .ok (x, ai + 1)
  | _, .str _ => False

section Fields
variable (f : SpecText)

/-- At most so many bytes of the text as the precision says. -/
def cut (t : List UInt8) : List UInt8 :=
  match f.prec with
  | none => t
  | some ds => t.take (Strscan.natOf ds)

def floatSignText (x : F64) : List UInt8 :=
  if x.signBit then [ch '-'] else if f.plus then [ch '+'] else if f.space then [ch ' '] else []

/-- What `%a` writes behind the prefix. -/
def hexRest (x : F64) (upper : Bool) : List UInt8 :=
  (fmtA x (f.spec.prec.getD 13) upper).drop (if x.signBit then 3 else 2)

/-- The text of an argument under a spec: what goes before the zeros of a padding, and the rest. -/
inductive Bare : Conv → FmtArg → List UInt8 → List UInt8 → Prop
  | int (c : IntConv) (x : F64) :
    Bare (.int c) (.num x) (signText c f x.asInt64) (numeral c.base c.upper (printed c x.asInt64))
  | chr (x : F64) : Bare .chr (.num x) [] [UInt8.ofNat x.asInt64.toNat]
  | float (c : FloatConv) (x : F64) (body : List UInt8) (h : fmtFloatBody f.spec c x = .ok body) :
    Bare (.float c) (.num x) (floatSignText f x) body
  | hex (upper : Bool) (x : F64) :
    Bare (.hex upper) (.num x) (floatSignText f x ++ [ch '0', if upper then ch 'X' else ch 'x']) (hexRest f x upper)
  | num (x : F64) : Bare .str (.num x) [] (cut f (g14 x))
  | str (t : List UInt8) : Bare .str (.str t) [] (cut f t)

/-- Where the flag `0` pads with zeros: an integer without a precision, and a finite number. -/
def zeroPads : Conv → FmtArg → Bool
  | .int _, _ => f.zero && f.prec.isNone
  | .float _, .num x | .hex _, .num x => f.zero && decide (x.expo ≠ 2047)
  | _, _ => false

/-- A conversion appends the text of its argument, padded to the width with the right character on the right side. -/
def Contributes (host : FmtHost) (v : Conv) (args : List FmtArg) (out : List UInt8) (ai : ℕ) (a : FmtArg) : Prop :=
  ∃ sign body field, Bare f v a sign body ∧ field = padTo f.left (zeroPads f v a) f.widthVal sign body ∧
    f.widthVal ≤ field.length ∧ formatConv host args f.spec v.byte out ai = .ok (out ++ field, ai + 1)

/-! ### When it is -/

theorem zeroPads_str (a : FmtArg) : zeroPads f .str a = false := by
  cases a <;> rfl

/-- The conversions that hand their text to the padding, with the zeros that the code uses there. -/
def writesZeros : Conv → Bool
  | .int _ | .str => f.zero && f.spec.prec.isNone
  | .float _ => f.zero
  | .chr | .hex _ => false

/-- There is room for the field, and zeros are used where they should be unless nothing is padded on the left. -/
def Padded (v : Conv) (a : FmtArg) (len : ℕ) (sign body : List UInt8) : Prop :=
  len + max f.widthVal (sign.length + body.length) < 2^63 ∧
    (writesZeros f v = zeroPads f v a ∨ f.left = true ∨ f.widthVal ≤ sign.length + body.length)

/-- When a conversion writes the right field, behind `len` bytes of output. -/
def Fits (v : Conv) (a : FmtArg) (len : ℕ) : Prop :=
  match v, a with
  | .int c, .num x =>
    Padded f (.int c) (.num x) len (signText c f x.asInt64) (numeral c.base c.upper (printed c x.asInt64))
  | .chr, .num _ => f.widthVal ≤ 1
  | .float c, .num x => FloatOk f.spec x c ∧
    ∀ body, fmtFloatBody f.spec c x = .ok body → Padded f (.float c) (.num x) len (floatSignText f x) body
  | .hex upper, .num x => Padded f (.hex upper) (.num x) len
    (floatSignText f x ++ [ch '0', if upper then ch 'X' else ch 'x']) (hexRest f x upper)
  | .str, .num x => f.widthVal ≤ (g14 x).length ∧ ∀ ds, f.prec = some ds → (g14 x).length ≤ Strscan.natOf ds
  | .str, .str t =>
    if t = [] then f.widthVal = 0
    else if f.prec = some [] then
      -- The whole string is written, which shows unless it is blank and within the width.
      (∀ b ∈ t, b = ch ' ') ∧ Padded f .str (.str t) len [] t ∧ t.length ≤ f.widthVal
    else Padded f .str (.str t) len [] (cut f t)
  | _, .str _ => False

end Fields

/-! ### The padded conversions -/

section Push
variable {f : SpecText}

theorem width_spec : f.spec.width.getD 0 = if f.widthVal < 2^64 then f.widthVal else 0 := by
  rw [SpecText.spec, SpecText.widthVal]
  dsimp only
  rw [parseUsize]
  split_ifs with h0 hlt
  · rw [h0]
    rfl
  · rw [h0] at hlt
    exact absurd (by decide) hlt
  · rfl
  · rfl

/-- A padded text that is appended is the right one exactly when there is room and the zeros agree. -/
theorem append_padTo_iff {v : Conv} {a : FmtArg} {out sign body : List UInt8} :
    inCapacity (out ++ padTo f.left (writesZeros f v) (f.spec.width.getD 0) sign body) =
        .ok (out ++ padTo f.left (zeroPads f v a) f.widthVal sign body) ↔
      Padded f v a out.length sign body := by
  rw [inCapacity, List.length_append, length_padTo, width_spec, Padded]
  constructor
  · intro h
    split_ifs at h with hw hroom hroom
    · exact ⟨hroom, padTo_inj.mp (List.append_cancel_left (Except.ok.inj h))⟩
    · have hlen := congrArg List.length (List.append_cancel_left (Except.ok.inj h))
      rw [length_padTo, length_padTo] at hlen
      omega
  · rintro ⟨hroom, hzeros⟩
    have hw : f.widthVal < 2^64 := by omega
    rw [if_pos hw, if_pos hroom, padTo_inj.mpr hzeros]

theorem signBytes_floatSign (x : F64) : signBytes (floatSign f.spec x) = floatSignText f x := by
  rw [floatSign, floatSignText, SpecText.spec]
  split_ifs <;> rfl

theorem fmtA_head (x : F64) (p : ℕ) (upper : Bool) : ∃ rest, fmtA x p upper =
    (if x.signBit then [ch '-'] else []) ++ [ch '0', if upper then ch 'X' else ch 'x'] ++ rest := by
  rw [fmtA]
  dsimp only
  split_ifs
  all_goals simp only [List.append_assoc]
  all_goals exact ⟨_, rfl⟩

theorem hexFloatText_eq (x : F64) (upper : Bool) :
    floatSignText f x ++ [ch '0', if upper then ch 'X' else ch 'x'] ++ hexRest f x upper =
      hexFloatText f.spec x upper := by
  obtain ⟨rest, hrest⟩ := fmtA_head x (f.spec.prec.getD 13) upper
  have hdrop : hexRest f x upper = rest := by
    rw [hexRest, hrest]
    cases x.signBit <;> rfl
  rw [hdrop, hexFloatText, hrest, floatSignText, SpecText.spec]
  cases x.signBit <;> cases f.plus <;> cases f.space <;> simp [ch]

/-- The text is padded first and then appended. -/
theorem pushHexFloat_eq (upper : Bool) (out : List UInt8) (x : F64) : pushHexFloat upper f.spec out x =
    inCapacity (out ++ padTo f.left false (f.spec.width.getD 0)
      (floatSignText f x ++ [ch '0', if upper then ch 'X' else ch 'x']) (hexRest f x upper)) := by
  rw [pushHexFloat, padText_padTo _ _ f.spec.width f.spec.left (hexFloatText_eq x upper)]
  change _ = inCapacity (out ++ padTo f.spec.left _ _ _ _)
  generalize padTo f.spec.left _ _ _ _ = t
  split_ifs
  · rw [inCapacity]
    split_ifs with hlen
    · rfl
    · rw [inCapacity, if_neg (by rw [List.length_append]; omega)]
      rfl
  · rfl

/-- What `%s` leaves of a string. -/
def written (s : Spec) (t : List UInt8) : List UInt8 :=
  match s.prec with
  | some p => if p < t.length then t.take p else t
  | none => t

/-- A precision that is no machine word could only cut a string that does not fit. -/
theorem written_eq {t : List UInt8} (hp : f.prec ≠ some []) :
    written f.spec t = cut f t ∨ (2^64 ≤ (written f.spec t).length ∧ 2^64 ≤ (cut f t).length) := by
  rw [written, cut, SpecText.spec]
  cases hprec : f.prec with
  | none => exact .inl rfl
  | some ds =>
    have hne : ds ≠ [] := fun h => hp (by rw [hprec, h])
    dsimp only
    rw [Option.getD_some, parseUsize, if_neg hne]
    split_ifs with hlt
    · left
      dsimp only
      split_ifs with h
      · rfl
      · exact (List.take_of_length_le (by omega)).symm
    · rcases Nat.lt_or_ge (Strscan.natOf ds) t.length with h | h
      · right
        dsimp only
        rw [List.length_take]
        omega
      · exact .inl (List.take_of_length_le h).symm

theorem pushStr_eq (out : List UInt8) {t : List UInt8} (ht : t ≠ []) : pushStr f.spec out (.str t) =
    inCapacity (out ++ padTo f.left (writesZeros f .str) (f.spec.width.getD 0) [] (written f.spec t)) := by
  rw [pushStr, if_neg ht]
  dsimp only
  rw [pushPadded_padTo]
  rfl

/-! ### One conversion -/

/-- What a conversion appends for its argument. -/
def pushConv (v : Conv) (s : Spec) (out : List UInt8) (a : FmtArg) : Except Fault (List UInt8) :=
  match v, a with
  | .int c, .num x => pushInt c s out x.asInt64
  | .chr, .num x => .ok (out ++ [UInt8.ofNat x.asInt64.toNat])
  | .float c, .num x => pushFloat c s out x
  | .hex upper, .num x => pushHexFloat upper s out x
  | .str, a => pushStr s out a
  | _, .str _ => .ok out

section Conversion
variable {parseF64 : List UInt8 → Option F64} {args : List FmtArg} {ai : ℕ} {v : Conv} {a : FmtArg} {out : List UInt8}

theorem formatConv_eq (s : Spec) (h : Takes (stdHost parseF64) args ai v a) :
    formatConv (stdHost parseF64) args s v.byte out ai =
      orPanic (pushConv v s out a) >>= fun out => .ok (out, ai + 1) := by
  cases v with
  | int c =>
    cases a with
    | str t => cases h
    | num x =>
      have hbyte : IntConv.ofByte (Conv.int c).byte = some c := by cases c <;> rfl
      rw [formatConv, hbyte]
      dsimp only
      rw [show nextNum (stdHost parseF64) args ai = .ok (x, ai + 1) from h]
      rfl
  | chr =>
    cases a with
    | str t => cases h
    | num x =>
      rw [formatConv, show IntConv.ofByte Conv.chr.byte = none from rfl]
      dsimp only
      rw [if_pos (show Conv.chr.byte = ch 'c' from rfl), show nextNum (stdHost parseF64) args ai = .ok (x, ai + 1) from h]
      rfl
  | float c =>
    cases a with
    | str t => cases h
    | num x =>
      have hint : IntConv.ofByte (Conv.float c).byte = none := by cases c <;> rfl
      have hother : (Conv.float c).byte ≠ ch 'c' ∧ isOther (Conv.float c).byte = true := by cases c <;> decide
      have hbyte : FloatConv.ofByte (Conv.float c).byte = some c := by cases c <;> rfl
      have hnext : nextNum ⟨parseF64, fun _ _ _ out ai => .ok (out, ai)⟩ args ai = .ok (x, ai + 1) := h
      rw [formatConv, hint]
      dsimp only
      rw [if_neg hother.1, if_pos hother.2]
      rw [show (stdHost parseF64).other = otherConv parseF64 from rfl, otherConv, hbyte]
      dsimp only
      rw [hnext]
      rfl
  | hex upper =>
    cases a with
    | str t => cases h
    | num x =>
      have hint : IntConv.ofByte (Conv.hex upper).byte = none := by cases upper <;> rfl
      have hother : (Conv.hex upper).byte ≠ ch 'c' ∧ isOther (Conv.hex upper).byte = true := by cases upper <;> decide
      have hbyte : FloatConv.ofByte (Conv.hex upper).byte = none := by cases upper <;> rfl
      have hcase : (Conv.hex upper).byte = ch 'a' ∨ (Conv.hex upper).byte = ch 'A' := by cases upper <;> decide
      have hupper : decide ((Conv.hex upper).byte = ch 'A') = upper := by cases upper <;> rfl
      have hnext : nextNum ⟨parseF64, fun _ _ _ out ai => .ok (out, ai)⟩ args ai = .ok (x, ai + 1) := h
      rw [formatConv, hint]
      dsimp only
      rw [if_neg hother.1, if_pos hother.2]
      rw [show (stdHost parseF64).other = otherConv parseF64 from rfl, otherConv, hbyte]
      dsimp only
      rw [if_pos hcase, hnext, hupper]
      rfl
  | str =>
    have harg : args[ai]? = some a := h
    rw [formatConv, show IntConv.ofByte Conv.str.byte = none from rfl]
    dsimp only
    rw [if_neg (by decide), if_pos (by decide)]
    rw [show (stdHost parseF64).other = otherConv parseF64 from rfl, otherConv, show FloatConv.ofByte Conv.str.byte = none from rfl]
    dsimp only
    rw [if_neg (by decide), harg]
    rfl

theorem contributes_iff_push (h : Takes (stdHost parseF64) args ai v a) :
    Contributes f (stdHost parseF64) v args out ai a ↔ ∃ sign body, Bare f v a sign body ∧
      pushConv v f.spec out a = .ok (out ++ padTo f.left (zeroPads f v a) f.widthVal sign body) := by
  have hrun (field : List UInt8) : formatConv (stdHost parseF64) args f.spec v.byte out ai = .ok (out ++ field, ai + 1) ↔
      pushConv v f.spec out a = .ok (out ++ field) := by
    rw [formatConv_eq f.spec h]
    cases pushConv v f.spec out a with
    | error e => exact ⟨fun hrun => (by cases hrun), fun hrun => (by cases hrun)⟩
    | ok out' =>
      change (Except.ok (out', ai + 1) : Except FmtError _) = _ ↔ _
      simp
  constructor
  · rintro ⟨sign, body, field, hbare, rfl, -, hfield⟩
    exact ⟨sign, body, hbare, (hrun _).mp hfield⟩
  · rintro ⟨sign, body, hbare, hpush⟩
    refine ⟨sign, body, _, hbare, rfl, ?_, (hrun _).mpr hpush⟩
    rw [length_padTo]
    exact Nat.le_max_left _ _

theorem pushInt_padTo (c : IntConv) (n : BitVec 64) : pushInt c f.spec out n =
    inCapacity (out ++ padTo f.left (writesZeros f (.int c)) (f.spec.width.getD 0) (signText c f n)
      (numeral c.base c.upper (printed c n))) := by
  rw [pushInt_eq, writtenField, paddedField_padTo]
  rfl

theorem pushFloat_padTo {c : FloatConv} {x : F64} {body : List UInt8} (h : fmtFloatBody f.spec c x = .ok body) :
    pushFloat c f.spec out x = inCapacity (out ++ padTo f.left (writesZeros f (.float c)) (f.spec.width.getD 0)
      (floatSignText f x) body) := by
  have hzero : (f.zero && (true || f.spec.prec.isNone)) = f.zero := by rw [Bool.true_or, Bool.and_true]
  rw [pushFloat, h, ok_bind, pushPadded_padTo, signBytes_floatSign]
  change inCapacity (out ++ padTo f.left (f.zero && (true || f.spec.prec.isNone)) _ _ _) = _
  rw [hzero]
  rfl

/-- A text without blanks that is written as it is. -/
theorem raw_iff {t : List UInt8} (ht : ∀ b ∈ t, b ≠ ch ' ') : t = padTo f.left false f.widthVal [] (cut f t) ↔
    f.widthVal ≤ t.length ∧ ∀ ds, f.prec = some ds → t.length ≤ Strscan.natOf ds := by
  have hcut : cut f t = t ↔ ∀ ds, f.prec = some ds → t.length ≤ Strscan.natOf ds := by
    rw [cut]
    cases f.prec with
    | none => simp
    | some ds => simp
  have hle : (cut f t).length ≤ t.length := by
    rw [cut]
    cases f.prec with
    | none => exact le_rfl
    | some ds => exact (List.take_sublist _ _).length_le
  rw [← hcut]
  constructor
  · intro heq
    -- A blank of the padding would be one of the text.
    have hshort : f.widthVal ≤ (cut f t).length := by
      by_contra hno
      apply ht (ch ' ') _ rfl
      rw [heq, padTo_false]
      have hmem : ch ' ' ∈ List.replicate (f.widthVal - (([] : List UInt8).length + (cut f t).length)) (ch ' ') :=
        List.mem_replicate.mpr ⟨by rw [List.length_nil]; omega, rfl⟩
      split_ifs
      · exact List.mem_append_right _ hmem
      · exact List.mem_append_left _ (List.mem_append_left _ hmem)
    rw [padTo_long (by rw [List.length_nil, Nat.zero_add]; exact hshort), List.nil_append] at heq
    exact ⟨hshort.trans hle, heq.symm⟩
  · rintro ⟨hw, heq⟩
    rw [heq, padTo_long (by rw [List.length_nil, Nat.zero_add]; exact hw), List.nil_append]

/-- With a precision of no digits the string is written whole, where only blanks are wanted. -/
theorem whole_iff {t : List UInt8} (ht : t ≠ []) (hp : f.prec = some []) :
    pushStr f.spec out (.str t) = .ok (out ++ padTo f.left false f.widthVal [] (cut f t)) ↔
      (∀ b ∈ t, b = ch ' ') ∧ Padded f .str (.str t) out.length [] t ∧ t.length ≤ f.widthVal := by
  have hnone : f.spec.prec = none := by
    rw [SpecText.spec, hp]
    rfl
  have hcut : cut f t = [] := by
    rw [cut, hp]
    rfl
  have hblank : padTo f.left false f.widthVal [] [] = .replicate f.widthVal (ch ' ') := by
    rw [padTo]
    cases f.left <;> simp
  have hpush : pushStr f.spec out (.str t) =
      inCapacity (out ++ padTo f.left (writesZeros f .str) (f.spec.width.getD 0) [] t) := by
    rw [pushStr_eq out ht, written, hnone]
  have hfield (hall : ∀ b ∈ t, b = ch ' ') (hlen : t.length ≤ f.widthVal) :
      .replicate f.widthVal (ch ' ') = padTo f.left (zeroPads f .str (.str t)) f.widthVal [] t := by
    have hsum : f.widthVal = f.widthVal - t.length + t.length := by omega
    have ht' : t = .replicate t.length (ch ' ') := List.eq_replicate_iff.mpr ⟨rfl, hall⟩
    rw [zeroPads_str, padTo_false, List.length_nil, Nat.zero_add]
    generalize t.length = n at ht' hsum hlen
    conv_lhs => rw [hsum]
    rw [ht']
    split_ifs
    · rw [List.nil_append, List.replicate_append_replicate, Nat.add_comm]
    · rw [List.append_nil, List.replicate_append_replicate]
  rw [hpush, hcut, hblank]
  constructor
  · intro h
    have hsub : ∀ b ∈ t, b ∈ padTo f.left (writesZeros f .str) (f.spec.width.getD 0) [] t := by
      intro b hb
      rw [padTo]
      split_ifs <;> simp [hb]
    have heq : padTo f.left (writesZeros f .str) (f.spec.width.getD 0) [] t = .replicate f.widthVal (ch ' ') := by
      rw [inCapacity] at h
      split_ifs at h
      exact List.append_cancel_left (Except.ok.inj h)
    have hall : ∀ b ∈ t, b = ch ' ' := fun b hb => List.eq_of_mem_replicate (heq ▸ hsub b hb)
    have hlen := congrArg List.length heq
    rw [length_padTo, List.length_replicate, List.length_nil, Nat.zero_add] at hlen
    have hle : t.length ≤ f.widthVal := by omega
    rw [hfield hall hle] at h
    exact ⟨hall, append_padTo_iff.mp h, hle⟩
  · rintro ⟨hall, hpad, hle⟩
    rw [hfield hall hle]
    exact append_padTo_iff.mpr hpad

theorem pushStr_iff {t : List UInt8} (ht : t ≠ []) (hp : f.prec ≠ some []) :
    pushStr f.spec out (.str t) = .ok (out ++ padTo f.left false f.widthVal [] (cut f t)) ↔
      Padded f .str (.str t) out.length [] (cut f t) := by
  rw [pushStr_eq out ht]
  obtain heq | ⟨hlong, hlong'⟩ := written_eq (t := t) hp
  · rw [heq]
    exact append_padTo_iff (v := .str) (a := .str t)
  · refine iff_of_false (fun hrun => ?_) fun hpad => ?_
    · rw [inCapacity, if_neg (by rw [List.length_append, length_padTo]; omega)] at hrun
      cases hrun
    · have := hpad.1
      omega

/-- A conversion appends the right field exactly when it fits. -/
theorem push_iff (h : Takes (stdHost parseF64) args ai v a) :
    (∃ sign body, Bare f v a sign body ∧
      pushConv v f.spec out a = .ok (out ++ padTo f.left (zeroPads f v a) f.widthVal sign body)) ↔
      Fits f v a out.length := by
  cases v with
  | int c =>
    cases a with
    | str t => cases h
    | num x =>
      constructor
      · rintro ⟨_, _, ⟨⟩, hpush⟩
        rw [pushConv, pushInt_padTo] at hpush
        exact append_padTo_iff.mp hpush
      · intro hfits
        refine ⟨_, _, .int c x, ?_⟩
        rw [pushConv, pushInt_padTo]
        exact append_padTo_iff.mpr hfits
  | chr =>
    cases a with
    | str t => cases h
    | num x =>
      constructor
      · rintro ⟨_, _, ⟨⟩, hpush⟩
        have hlen := congrArg List.length (List.append_cancel_left (Except.ok.inj hpush))
        rw [length_padTo] at hlen
        change f.widthVal ≤ 1
        simp only [List.length_singleton, List.length_nil] at hlen
        omega
      · intro hfits
        have hw : f.widthVal ≤ 1 := hfits
        exact ⟨_, _, .chr x, by rw [padTo_long (by simpa using hw)]; rfl⟩
  | float c =>
    cases a with
    | str t => cases h
    | num x =>
      constructor
      · rintro ⟨_, _, ⟨⟩, hpush⟩
        rename_i hbody
        refine ⟨(fmtFloatBody_ok_iff f.spec c).mp ⟨_, hbody⟩, fun body' hbody' => ?_⟩
        obtain rfl := Except.ok.inj (hbody.symm.trans hbody')
        rw [pushConv, pushFloat_padTo hbody] at hpush
        exact append_padTo_iff.mp hpush
      · rintro ⟨hok, hfits⟩
        obtain ⟨body, hbody⟩ := (fmtFloatBody_ok_iff f.spec c).mpr hok
        refine ⟨_, _, .float c x body hbody, ?_⟩
        rw [pushConv, pushFloat_padTo hbody]
        exact append_padTo_iff.mpr (hfits body hbody)
  | hex upper =>
    cases a with
    | str t => cases h
    | num x =>
      constructor
      · rintro ⟨_, _, ⟨⟩, hpush⟩
        rw [pushConv, pushHexFloat_eq] at hpush
        exact append_padTo_iff.mp hpush
      · intro hfits
        refine ⟨_, _, .hex upper x, ?_⟩
        rw [pushConv, pushHexFloat_eq]
        exact append_padTo_iff.mpr hfits
  | str =>
    cases a with
    | num x =>
      have hraw := raw_iff (f := f) (g14_ne_blank x)
      rw [Fits, ← hraw]
      constructor
      · rintro ⟨_, _, ⟨⟩, hpush⟩
        exact List.append_cancel_left (Except.ok.inj hpush)
      · intro heq
        refine ⟨_, _, .num x, ?_⟩
        rw [pushConv, pushStr, zeroPads_str, ← heq]
    | str t =>
      have hbare : (∃ sign body, Bare f .str (.str t) sign body ∧ pushConv .str f.spec out (.str t) =
          .ok (out ++ padTo f.left (zeroPads f .str (.str t)) f.widthVal sign body)) ↔
          pushStr f.spec out (.str t) = .ok (out ++ padTo f.left false f.widthVal [] (cut f t)) := by
        constructor
        · rintro ⟨_, _, ⟨⟩, hpush⟩
          exact hpush
        · exact fun hpush => ⟨_, _, .str t, hpush⟩
      rw [hbare, Fits]
      split_ifs with ht hp
      · have hempty : cut f t = [] := by
          rw [cut, ht]
          cases f.prec <;> simp
        rw [pushStr, if_pos ht, hempty]
        constructor
        · intro hrun
          have hlen := congrArg List.length (Except.ok.inj hrun)
          rw [List.length_append, length_padTo] at hlen
          omega
        · intro hw
          rw [hw, padTo_long (Nat.zero_le _), List.append_nil, List.append_nil]
      · exact whole_iff ht hp
      · exact pushStr_iff ht hp

end Conversion

theorem closes_byte (v : Conv) (rest : List UInt8) : Closes (v.byte :: rest) ∧ v.byte ≠ ch '%' := by
  have hbyte : isFlag v.byte = false ∧ Ascii.isDigit v.byte = false ∧ v.byte ≠ ch '.' ∧ v.byte ≠ ch '%' := by
    cases v with
    | int c => cases c <;> decide
    | chr => decide
    | float c => cases c <;> decide
    | hex upper => cases upper <;> decide
    | str => decide
  refine ⟨⟨?_, ?_, ?_⟩, hbyte.2.2.2⟩
  · rintro b ⟨⟩
    exact hbyte.1
  · rintro b ⟨⟩
    exact hbyte.2.1
  · exact fun hpoint => hbyte.2.2.1 (Option.some.inj hpoint)

end Push

/-! ### The law -/

/-- A written spec is compiled to one part, and replaying it on an argument that the conversion takes appends the right
field exactly when the argument fits the spec. -/
theorem field_law (f : SpecText) (v : Conv) (parseF64 : List UInt8 → Option F64) :
    (∀ rest, compile (ch '%' :: (f.bytes ++ v.byte :: rest)) = (compile rest).map (.conv f.spec v.byte :: ·)) ∧
    ∀ args ai a, Takes (stdHost parseF64) args ai v a → ∀ out,
      (Contributes f (stdHost parseF64) v args out ai a ↔ Fits f v a out.length) := by
  refine ⟨fun rest => ?_, fun args ai a h out => ?_⟩
  · obtain ⟨hcloses, hpercent⟩ := closes_byte v rest
    exact compile_byte f hcloses hpercent
  · rw [contributes_iff_push h, push_iff h]

/-- The spec `%5s`. -/
def SpecText.five : SpecText := ⟨[], [ch '5'], none, no_flags, by simp [Ascii.isDigit, ch], by simp [ch], no_digits⟩

/-- `%5s` of `ab`. -/
theorem field_ab : Contributes .five (stdHost fun _ => none) .str [.str [ch 'a', ch 'b']] [] 0 (.str [ch 'a', ch 'b']) := by
  have h : Takes (stdHost fun _ => none) [.str [ch 'a', ch 'b']] 0 .str (.str [ch 'a', ch 'b']) := rfl
  refine ((field_law .five .str fun _ => none).2 _ _ _ h []).mpr ?_
  rw [Fits, if_neg (by decide), if_neg (by decide)]
  exact ⟨by decide, .inl rfl⟩

/-- `%5s` of the empty string appends nothing. -/
theorem not_field_empty : ¬ ∀ (f : SpecText) (v : Conv) (parseF64 : List UInt8 → Option F64) (args : List FmtArg) (ai : ℕ)
    (a : FmtArg) (out : List UInt8), Takes (stdHost parseF64) args ai v a →
      Contributes f (stdHost parseF64) v args out ai a := by
  intro hall
  have h : Takes (stdHost fun _ => none) [.str []] 0 .str (.str []) := rfl
  have hempty := (push_iff h).mp ((contributes_iff_push h).mp (hall .five .str (fun _ => none) [.str []] 0 (.str []) [] h))
  rw [Fits, if_pos rfl] at hempty
  exact absurd hempty (by decide)

end LuajitRs.Strfmt
