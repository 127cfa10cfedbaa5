import LuajitRs.Runtime.Interner.Runs
import LuajitRs.Util.Strfmt.Number

/-! Concatenation with a running hash. The last result is remembered by its id, with the state of its hash, and a string
that begins with it continues from there; that is right as long as no other string gets the id. -/
namespace LuajitRs
open Lib

/-- The strings of a heap, with the id of the last concatenation and its stream state. -/
structure CatHeap where
  it : Interner
  catHash : Option (UInt32 × UInt64)

namespace CatHeap
variable (h : CatHeap)

/-! ### The operations -/

def stringId : LuaValue → Option UInt32
  | .str p => (h.it.pool.get p).map LuaString.sid
  | _ => none

/-- What an operand contributes, if it is a string or a number. -/
def text : LuaValue → Option (List UInt8)
  | .str p => (h.it.pool.get p).map LuaString.bytes
  | .num x => some (Strfmt.g14 x)
  | _ => none

/-- The string with an id, or the empty one. -/
def lookupPtr (id : UInt32) : Except Fault ℕ :=
  match (h.it.tryLookup id).or (h.it.tryLookup h.it.emptySid) with
  | some p => .ok p
  | none => .error .dangling

def strStatic (id : UInt32) : Except Fault (List UInt8) := do
  let p ← h.lookupPtr id
  match h.it.pool.get p with
  | some s => pure s.bytes
  | none => .error .dangling

theorem strStatic_of_get {h : CatHeap} {id : UInt32} {p : ℕ} {str : LuaString} (hlook : h.it.tryLookup id = some p)
    (hp : h.it.pool.get p = some str) : h.strStatic id = .ok str.bytes := by
  simp [strStatic, lookupPtr, hlook, hp, bind, Except.bind, pure, Except.pure]

/-- The stream state of `buf`: if its first operand is the last result, the stream goes on with the rest. -/
def catState (first : Option UInt32) (buf rest : List UInt8) : UInt64 :=
  match h.catHash with
  | some (id, st) => if first = some id then fnv1aCont st rest else fnv1aState buf
  | none => fnv1aState buf

/-- Intern with the hash of a stream state, and remember it. -/
def internCat (buf : List UInt8) (state : UInt64) (fresh : ℕ) : Except Fault (CatHeap × UInt32) := do
  let r ← h.it.internWithHash buf (fnv1aFold state) fresh
  pure (⟨r.1, some (r.2, state)⟩, r.2)

def jitCat (a b : LuaValue) (fresh : ℕ) : Except Fault (CatHeap × LuaValue) :=
  match h.text a, h.text b with
  | some s, some t => do
    let buf := s ++ t
    let r ← h.internCat buf (h.catState (h.stringId a) buf (buf.drop s.length)) fresh
    let p ← r.1.lookupPtr r.2
    pure (r.1, .str p)
  | _, _ => .ok (h, .nil)

/-- An operand of the interpreter, which finds strings by their ids. -/
def textById (v : LuaValue) : Except Fault (List UInt8) :=
  match h.stringId v with
  | some id => h.strStatic id
  | none => .ok ((h.text v).getD [])

/-- The stream state of a segment in `meta_cat`; only one that is the last result and one operand continues. -/
def segmentState (vs : List LuaValue) (buf : List UInt8) : Except Fault UInt64 :=
  match vs with
  | [v, _] =>
    match h.stringId v with
    | some id => do
      let s ← h.strStatic id
      pure (h.catState (some id) buf (buf.drop s.length))
    | none => pure (fnv1aState buf)
  | _ => pure (fnv1aState buf)

/-- One segment of strings and numbers in `meta_cat`. -/
def metaCat (vs : List LuaValue) (fresh : ℕ) : Except Fault CatHeap := do
  let texts ← vs.mapM h.textById
  let buf := texts.flatten
  -- A longer string raises an error.
  if 0xfffffe00 < buf.length then pure h
  else
    let state ← h.segmentState vs buf
    let r ← h.internCat buf state fresh
    pure r.1

/-! ### Runs -/

/-- A concatenation of a trace or of the interpreter, or anything else that happens to the strings. -/
inductive Op
  | strings (op : Interner.Op)
  | jit (a b : LuaValue) (fresh : ℕ)
  | interp (vs : List LuaValue) (fresh : ℕ)

def step : Op → Except Fault CatHeap
  | .strings op => do
    let it ← h.it.step op
    pure ⟨it, h.catHash⟩
  | .jit a b fresh => (h.jitCat a b fresh).map Prod.fst
  | .interp vs fresh => h.metaCat vs fresh

/-- A string that a value holds has not been freed. -/
def Live (v : LuaValue) : Prop := ∀ p, v = .str p → p ∈ h.it.pool.objects

/-- What the callers and the allocator promise. -/
def Promised : Op → Prop
  | .strings op => h.it.Allocates op
  | .jit a b fresh => h.Live a ∧ h.Live b ∧ h.it.pool.Available fresh
  | .interp vs fresh => (∀ v ∈ vs, h.Live v) ∧ h.it.pool.Available fresh

/-- The bytes are those of a live string, or no live string has the next id. -/
def NextIdFree (s : List UInt8) : Prop :=
  h.it.Contains s ∨ ∀ a t, a ∈ h.it.pool.objects → h.it.pool.get a = some t → t.sid ≠ h.it.newId.1

/-- A new string gets neither the id of a live string nor the id of the last concatenation. -/
def IdFree : Op → Prop
  | .strings (.intern s _) => h.NextIdFree s ∧ (h.it.Contains s ∨ ∀ p, h.catHash = some p → p.1 ≠ h.it.newId.1)
  | .strings _ => True
  | .jit a b _ => ∀ s t, h.text a = some s → h.text b = some t → h.NextIdFree (s ++ t)
  | .interp vs _ => ∀ texts, vs.mapM h.textById = .ok texts → h.NextIdFree texts.flatten

/-- The states of the runs from a heap whose empty string is at `e`, by steps that satisfy `ok`. -/
inductive Reached (ok : CatHeap → Op → Prop) (e : ℕ) : CatHeap → Prop
  | new {it : Interner} : Interner.new e = .ok it → Reached ok e ⟨it, none⟩
  | step {h h' : CatHeap} (op : Op) : Reached ok e h → h.Promised op → ok h op → h.step op = .ok h' → Reached ok e h'

/-- A concatenation passes on the hash of its bytes and answers with the one string that has them. -/
def Exact (a b : LuaValue) (fresh : ℕ) : Prop :=
  ∀ s t, h.text a = some s → h.text b = some t →
    fnv1aFold (h.catState (h.stringId a) (s ++ t) ((s ++ t).drop s.length)) = strHash (s ++ t) ∧
    ∃ h' p, h.jitCat a b fresh = .ok (h', .str p) ∧ ∀ q, q = p ↔
      q ∈ h'.it.pool.objects ∧ ∃ str, h'.it.pool.get q = some str ∧ str.bytes = s ++ t

/-! ### The invariant -/

structure Inv (e : ℕ) : Prop where
  strings : h.it.Inv e
  ids : h.it.Ids
  /-- Whatever string has the remembered id, the remembered state is that of its bytes. -/
  cached : ∀ id st, h.catHash = some (id, st) → ∀ a str, a ∈ h.it.pool.objects → h.it.pool.get a = some str →
    str.sid = id → st = fnv1aState str.bytes

variable {h} {h' : CatHeap} {e : ℕ}

theorem exists_string {v : LuaValue} {id : UInt32} (hv : h.stringId v = some id) :
    ∃ p str, v = .str p ∧ h.it.pool.get p = some str ∧ str.sid = id ∧ h.text v = some str.bytes := by
  cases v with
  | str p =>
    obtain ⟨str, hstr, hid⟩ := Option.map_eq_some_iff.mp hv
    exact ⟨p, str, rfl, hstr, hid, by rw [text, hstr]; rfl⟩
  | nil | bool | thread | func | cdata | tab | udata | num => cases hv

namespace Inv
variable (I : h.Inv e)
include I

/-- The stream state is always that of the whole. -/
theorem catState_eq {v : LuaValue} {s t : List UInt8} (hv : h.Live v) (hs : h.text v = some s) :
    h.catState (h.stringId v) (s ++ t) ((s ++ t).drop s.length) = fnv1aState (s ++ t) := by
  rw [catState, List.drop_left]
  cases hc : h.catHash with
  | none => rfl
  | some p =>
    dsimp only
    split_ifs with hid
    · obtain ⟨q, str, rfl, hstr, hsid, htext⟩ := exists_string hid
      obtain rfl : str.bytes = s := Option.some.inj (htext.symm.trans hs)
      rw [I.cached p.1 p.2 hc q str (hv q rfl) hstr hsid, fnv1aCont_fnv1aState]
    · rfl

theorem lookupPtr_eq {p : ℕ} {str : LuaString} (hp : p ∈ h.it.pool.objects) (hstr : h.it.pool.get p = some str) :
    h.lookupPtr str.sid = .ok p := by
  have hlook : h.it.tryLookup str.sid = some p := by
    rw [Interner.tryLookup, I.ids.byId p str hp hstr]
    rfl
  rw [lookupPtr, hlook]
  rfl

theorem strStatic_eq {p : ℕ} {str : LuaString} (hp : p ∈ h.it.pool.objects) (hstr : h.it.pool.get p = some str) :
    h.strStatic str.sid = .ok str.bytes := by
  rw [strStatic, I.lookupPtr_eq hp hstr, ok_bind, hstr]
  rfl

theorem textById_eq {v : LuaValue} (hv : h.Live v) : h.textById v = .ok ((h.text v).getD []) := by
  rw [textById]
  cases hid : h.stringId v with
  | none => rfl
  | some id =>
    obtain ⟨p, str, rfl, hstr, rfl, htext⟩ := exists_string hid
    dsimp only
    rw [I.strStatic_eq (hv p rfl) hstr, htext]
    rfl

/-- The texts of the operands of a segment. -/
theorem mapM_textById {vs : List LuaValue} (hvs : ∀ v ∈ vs, h.Live v) :
    vs.mapM h.textById = .ok (vs.map fun v => (h.text v).getD []) := by
  induction vs with
  | nil => rfl
  | cons v vs ih =>
    rw [List.mapM_cons, I.textById_eq (hvs v (by simp)), ok_bind, ih fun w hw => hvs w (List.mem_cons_of_mem v hw)]
    rfl

end Inv

/-! ### Interning with the right hash -/

section Intern
variable {it it' : Interner} {s : List UInt8} {fresh : ℕ} {sid : UInt32}

theorem newId_eq (W : it.Wf) : it.newId.1 = UInt32.ofNat it.byId.length := by
  rw [Interner.newId, W.freeIds]

/-- The id of a new string leads to it. -/
theorem tryLookup_inserted (hins : Interner.Inserted it it' s fresh sid) :
    it'.tryLookup sid = some (it.pool.nextAddr fresh) := by
  have hlt : sid.toNat < (it.byId ++ [none]).length := by
    rw [List.length_append, List.length_singleton, hins.sid_eq]
    exact Interner.sid_lt_length _
  rw [Interner.tryLookup, hins.byId, List.getElem?_set_self hlt]
  rfl

/-- The ids stay right if no live string has the next one. -/
theorem ids_step (D : it.Ids) (W : it.Wf) {op : Interner.Op} (c : it.Change op it')
    (hid : ∀ s fresh, op = .intern s fresh → it.Contains s ∨
      ∀ a t, a ∈ it.pool.objects → it.pool.get a = some t → t.sid ≠ it.newId.1) : it'.Ids := by
  cases c with
  | same hobj hget hby _ => exact ⟨by simpa only [hobj, hget, hby] using D.byId, by simpa only [hobj, hget, hby] using D.ofId⟩
  | added hf hs hins =>
    have hfree := (hid _ _ rfl).resolve_left hs
    rw [newId_eq W, ← hins.sid_eq] at hfree
    exact D.insert W hf hins hfree
  | swept hsw => exact hsw.ids D

/-- Interning answers with the id of the one string that has the bytes, and the id leads to it. -/
theorem intern_spec (I : it.Inv e) (D : it.Ids) (hf : it.pool.Available fresh) :
    ∃ it' sid p str, it.intern s fresh = .ok (it', sid) ∧ it'.Inv e ∧ it.Change (.intern s fresh) it' ∧
      p ∈ it'.pool.objects ∧ it'.pool.get p = some str ∧ str.bytes = s ∧ str.sid = sid ∧
      it'.tryLookup sid = some p := by
  by_cases hs : it.Contains s
  · obtain ⟨p, hp, str, hstr, rfl⟩ := hs
    obtain ⟨it', hrun, W', rfl⟩ := I.wf.intern_hit hp hstr fresh
    have hget := Pool.get_modifyHeader it.pool p GcHeader.setMarked
    have hchange : it.Change (.intern str.bytes fresh) { it with pool := it.pool.modifyHeader p GcHeader.setMarked } :=
      .same rfl hget rfl rfl
    refine ⟨_, _, p, str, hrun, hchange.inv I W', hchange, hp, by rw [hget, hstr], rfl, rfl, ?_⟩
    rw [Interner.tryLookup]
    dsimp only
    rw [D.byId p str hp hstr]
    rfl
  · obtain ⟨it', sid, hrun, W', hins⟩ := I.wf.intern_new hs hf
    have hchange : it.Change (.intern s fresh) it' := .added hf hs hins
    exact ⟨it', sid, _, _, hrun, hchange.inv I W', hchange, hins.mem_objects.mpr (.inr rfl), hins.get_self, rfl, rfl,
      tryLookup_inserted hins⟩

end Intern

/-- A concatenation with the stream state of its bytes interns them and keeps the invariant. -/
theorem Inv.internCat (I : h.Inv e) {s : List UInt8} {fresh : ℕ} (hf : h.it.pool.Available fresh) :
    ∃ h' sid p, h.internCat s (fnv1aState s) fresh = .ok (h', sid) ∧ h'.lookupPtr sid = .ok p ∧
      (∀ q, q = p ↔ q ∈ h'.it.pool.objects ∧ ∃ str, h'.it.pool.get q = some str ∧ str.bytes = s) ∧
      h.it.pool.objects ⊆ h'.it.pool.objects ∧ (h.NextIdFree s → h'.Inv e) := by
  obtain ⟨it', sid, p, str, hrun, I', hchange, hp, hstr, hbytes, hsid, hlook⟩ := intern_spec (s := s) I.strings I.ids hf
  have hcat : h.internCat s (fnv1aState s) fresh = .ok (⟨it', some (sid, fnv1aState s)⟩, sid) := by
    rw [CatHeap.internCat, show h.it.internWithHash s (fnv1aFold (fnv1aState s)) fresh = .ok (it', sid) from hrun]
    rfl
  refine ⟨_, sid, p, hcat, ?_, fun q => ?_, fun a ha => ?_, fun hfree => ?_⟩
  · rw [lookupPtr, hlook]
    rfl
  · constructor
    · rintro rfl
      exact ⟨hp, str, hstr, hbytes⟩
    · rintro ⟨hq, str', hstr', hbytes'⟩
      exact I'.wf.distinct q p str' str hq hp hstr' hstr (hbytes'.trans hbytes.symm)
  · cases hchange with
    | same hobj => exact hobj.symm ▸ ha
    | added _ _ hins => exact hins.mem_objects.mpr (.inl ha)
  · have D' : it'.Ids := ids_step I.ids I.strings.wf hchange fun s' fresh' heq => by
      cases heq
      exact hfree
    refine ⟨I', D', ?_⟩
    rintro id st ⟨⟩ a str' ha hstr' hid
    have hsame := D'.byId a str' ha hstr'
    rw [hid, ← hsid, D'.byId p str hp hstr] at hsame
    obtain rfl : p = a := by simpa using hsame
    obtain rfl : str = str' := Option.some.inj (hstr.symm.trans hstr')
    rw [hbytes]

/-! ### Steps -/

namespace Inv
variable (I : h.Inv e)
include I

theorem jitCat_eq {a b : LuaValue} {s t : List UInt8} {fresh : ℕ} (ha : h.Live a) (hf : h.it.pool.Available fresh)
    (hs : h.text a = some s) (ht : h.text b = some t) :
    ∃ h' p, h.jitCat a b fresh = .ok (h', .str p) ∧ (h.NextIdFree (s ++ t) → h'.Inv e) ∧
      ∀ q, q = p ↔ q ∈ h'.it.pool.objects ∧ ∃ str, h'.it.pool.get q = some str ∧ str.bytes = s ++ t := by
  obtain ⟨h', sid, p, hrun, hlook, huniq, -, hinv⟩ := I.internCat (s := s ++ t) hf
  refine ⟨h', p, ?_, hinv, huniq⟩
  rw [jitCat, hs, ht]
  dsimp only
  rw [I.catState_eq ha hs, hrun, ok_bind]
  dsimp only
  rw [hlook]
  rfl

theorem segmentState_eq {vs : List LuaValue} (hvs : ∀ v ∈ vs, h.Live v) :
    h.segmentState vs (vs.map fun v => (h.text v).getD []).flatten =
      .ok (fnv1aState (vs.map fun v => (h.text v).getD []).flatten) := by
  rcases vs with _ | ⟨v, _ | ⟨w, _ | ⟨u, vs⟩⟩⟩
  · rfl
  · rfl
  · rw [segmentState]
    cases hid : h.stringId v with
    | none => rfl
    | some id =>
      have hv := hvs v (by simp)
      obtain ⟨p, str, rfl, hstr, rfl, htext⟩ := exists_string hid
      have hstatic := I.strStatic_eq (hv p rfl) hstr
      have hstate := I.catState_eq (t := ((h.text w).getD [])) hv htext
      rw [hid] at hstate
      simp only [List.map_cons, List.map_nil, List.flatten_cons, List.flatten_nil, List.append_nil, htext,
        Option.getD_some]
      rw [hstatic, ok_bind, hstate]
      rfl
  · rfl

theorem metaCat_inv {vs : List LuaValue} {fresh : ℕ} (hvs : ∀ v ∈ vs, h.Live v) (hf : h.it.pool.Available fresh)
    (hfree : ∀ texts, vs.mapM h.textById = .ok texts → h.NextIdFree texts.flatten)
    (hrun : h.metaCat vs fresh = .ok h') : h'.Inv e := by
  have htexts := I.mapM_textById hvs
  have hfree := hfree _ htexts
  obtain ⟨h'', sid, p, hcat, -, -, -, hinv⟩ :=
    I.internCat (s := (vs.map fun v => (h.text v).getD []).flatten) hf
  rw [metaCat, htexts, ok_bind] at hrun
  dsimp only at hrun
  split_ifs at hrun
  · obtain rfl : h = h' := Except.ok.inj hrun
    exact I
  · rw [I.segmentState_eq hvs, ok_bind, hcat] at hrun
    obtain rfl : h'' = h' := Except.ok.inj hrun
    exact hinv hfree

/-- A step that is promised, with ids that are free, keeps the invariant. -/
theorem step {op : Op} (hp : h.Promised op) (hid : h.IdFree op) (hrun : h.step op = .ok h') : h'.Inv e := by
  cases op with
  | strings op =>
    obtain ⟨it', hstep, W', hchange⟩ := I.strings.wf.step op hp
    rw [CatHeap.step, hstep] at hrun
    obtain rfl : ⟨it', h.catHash⟩ = h' := Except.ok.inj hrun
    have hnew : ∀ s fresh, op = .intern s fresh → h.NextIdFree s ∧
        (h.it.Contains s ∨ ∀ p, h.catHash = some p → p.1 ≠ h.it.newId.1) := by
      rintro s fresh rfl
      exact hid
    refine ⟨hchange.inv I.strings W', ids_step I.ids I.strings.wf hchange fun s fresh heq => (hnew s fresh heq).1, ?_⟩
    intro id st hc a str ha hstr hsid
    cases hchange with
    | same hobj hget _ _ =>
      rw [hobj] at ha
      rw [hget] at hstr
      exact I.cached id st hc a str ha hstr hsid
    | added hf hs hins =>
      rcases hins.mem_objects.mp ha with ha | rfl
      · rw [hins.get_of_mem I.strings.wf.pool hf ha] at hstr
        exact I.cached id st hc a str ha hstr hsid
      · have hne := (hnew _ _ rfl).2.resolve_left hs (id, st) hc
        rw [newId_eq I.strings.wf, ← hins.sid_eq] at hne
        obtain rfl := Option.some.inj (hins.get_self.symm.trans hstr)
        exact absurd hsid.symm hne
    | swept hsw =>
      rw [hsw.get a ha] at hstr
      exact I.cached id st hc a str ((hsw.mem a).mp ha).1 hstr hsid
  | jit a b fresh =>
    rw [CatHeap.step] at hrun
    cases hs : h.text a with
    | none =>
      rw [jitCat, hs] at hrun
      obtain rfl : h = h' := Except.ok.inj hrun
      exact I
    | some s =>
      cases ht : h.text b with
      | none =>
        rw [jitCat, hs, ht] at hrun
        obtain rfl : h = h' := Except.ok.inj hrun
        exact I
      | some t =>
        obtain ⟨h'', p, hcat, hinv, -⟩ := I.jitCat_eq hp.1 hp.2.2 hs ht
        rw [hcat] at hrun
        obtain rfl : h'' = h' := Except.ok.inj hrun
        exact hinv (hid s t hs ht)
  | interp vs fresh => exact I.metaCat_inv hp.1 hp.2 hid hrun

theorem exact {a b : LuaValue} {fresh : ℕ} (ha : h.Live a) (hf : h.it.pool.Available fresh) : h.Exact a b fresh := by
  intro s t hs ht
  obtain ⟨h', p, hrun, -, huniq⟩ := I.jitCat_eq ha hf hs ht
  refine ⟨?_, h', p, hrun, huniq⟩
  rw [I.catState_eq ha hs]
  rfl

end Inv

theorem Reached.inv (he : Pool.InRange e) (hr : Reached IdFree e h) : h.Inv e := by
  induction hr with
  | new hnew =>
    obtain ⟨it₀, hrun, I, D, -, -⟩ := Interner.new_spec he
    obtain rfl := Except.ok.inj (hrun.symm.trans hnew)
    exact ⟨I, D, nofun⟩
  | step op _ hp hid hstep ih => exact ih.step hp hid hstep

/-! ### The law -/

/-- A stream goes on over a concatenation, and in every run in which no string takes the id of a live string or of the
last concatenation, every concatenation of a trace is exact. -/
theorem reached_exact (he : Pool.InRange e) (hr : Reached IdFree e h) :
    (∀ s t, fnv1aCont (fnv1aState s) t = fnv1aState (s ++ t)) ∧
      ∀ a b fresh, h.Live a → h.it.pool.Available fresh → h.Exact a b fresh :=
  ⟨fnv1aCont_fnv1aState, fun _ _ _ ha hf => (hr.inv he).exact ha hf⟩

/-! ### After the ids wrap -/

section Zeros
variable {it : Interner}

/-- The number zero with itself, as the first concatenation and a new string. -/
theorem concat_zeros (R : it.Inv e) (hs : ¬ it.Contains [48, 48]) {fresh : ℕ} (hf : it.pool.Available fresh) :
    ∃ it', (⟨it, none⟩ : CatHeap).step (.jit (.num .zero) (.num .zero) fresh) =
        .ok ⟨it', some (UInt32.ofNat it.byId.length, fnv1aState [48, 48])⟩ ∧ it'.Wf ∧
      Interner.Inserted it it' [48, 48] fresh (UInt32.ofNat it.byId.length) := by
  obtain ⟨it', sid, hrun, W', hins⟩ := R.wf.intern_new hs hf
  obtain rfl := hins.sid_eq
  refine ⟨it', ?_, W', hins⟩
  have hcat : (⟨it, none⟩ : CatHeap).internCat [48, 48] (fnv1aState [48, 48]) fresh =
      .ok (⟨it', some (UInt32.ofNat it.byId.length, fnv1aState [48, 48])⟩, UInt32.ofNat it.byId.length) := by
    rw [internCat]
    dsimp only
    rw [show it.internWithHash [48, 48] (fnv1aFold (fnv1aState [48, 48])) fresh = _ from hrun]
    rfl
  have hptr : (⟨it', some (UInt32.ofNat it.byId.length, fnv1aState [48, 48])⟩ : CatHeap).lookupPtr
      (UInt32.ofNat it.byId.length) = .ok (it.pool.nextAddr fresh) := by
    rw [lookupPtr, tryLookup_inserted hins]
    rfl
  have htext : (⟨it, none⟩ : CatHeap).text (.num .zero) = some [48] := rfl
  have hstate (rest : List UInt8) : (⟨it, none⟩ : CatHeap).catState ((⟨it, none⟩ : CatHeap).stringId (.num .zero))
      ([48] ++ [48]) rest = fnv1aState [48, 48] := rfl
  rw [step, jitCat, htext]
  dsimp only
  rw [hstate, List.singleton_append, hcat, ok_bind]
  dsimp only
  rw [hptr]
  rfl

/-- Some address is free besides two others. -/
theorem exists_available {pool : Pool LuaString} {a b : ℕ} (h : ∀ q, q ∈ pool.objects → q = a ∨ q = b) :
    ∃ fresh, pool.Available fresh := by
  have hrange : ∀ k ∈ [8192, 12288, 16384], Pool.InRange k := by simp [Pool.InRange, ADDR_MAX]
  have hpick : ∃ k ∈ [8192, 12288, 16384], k ≠ a ∧ k ≠ b := by
    by_contra hno
    simp only [List.mem_cons, List.not_mem_nil, or_false, not_exists, not_and, not_not] at hno
    have h1 := hno 8192 (.inl rfl)
    have h2 := hno 12288 (.inr (.inl rfl))
    have h3 := hno 16384 (.inr (.inr rfl))
    omega
  obtain ⟨k, hk, hka, hkb⟩ := hpick
  exact ⟨k, fun _ => ⟨hrange k hk, fun hmem => (h k hmem).elim hka hkb⟩⟩

end Zeros

/-- The string `00` of a first concatenation and a third zero. -/
theorem zeros_exact : ∃ h p fresh, Reached IdFree 8192 h ∧ h.catHash = some (1, fnv1aState [48, 48]) ∧
    h.stringId (.str p) = some 1 ∧ h.Exact (.str p) (.num .zero) fresh := by
  have he : Pool.InRange 8192 := by simp [Pool.InRange, ADDR_MAX]
  have hf : Pool.InRange 12288 := by simp [Pool.InRange, ADDR_MAX]
  obtain ⟨it, hnew, I, -, hobj, hlen⟩ := Interner.new_spec he
  have havail : it.pool.Available 12288 := fun _ => ⟨hf, by simp [hobj]⟩
  have hnone := I.not_contains (by rw [hobj]; exact List.Subset.refl _) (List.cons_ne_nil 48 [48])
  obtain ⟨it', hstep, -, hins⟩ := concat_zeros I hnone havail
  rw [hlen] at hstep hins
  have hfree : ∀ s, (⟨it, none⟩ : CatHeap).NextIdFree s := by
    refine fun s => .inr fun a t ha ht => ?_
    obtain rfl : a = 8192 := by simpa [hobj] using ha
    obtain rfl := Option.some.inj (I.get.symm.trans ht)
    rw [newId_eq I.wf, hlen]
    decide
  have hr : Reached IdFree 8192 _ :=
    .step (.jit (.num .zero) (.num .zero) 12288) (.new hnew) ⟨by rintro _ ⟨⟩, by rintro _ ⟨⟩, havail⟩ (fun _ _ _ _ => hfree _) hstep
  obtain ⟨fresh, havail'⟩ := @exists_available it'.pool 8192 (it.pool.nextAddr 12288) fun q hq => by
    simpa [hobj] using hins.mem_objects.mp hq
  refine ⟨_, it.pool.nextAddr 12288, fresh, hr, rfl, ?_, (reached_exact he hr).2 _ _ _ ?_ havail'⟩
  · rw [stringId, hins.get_self]
    rfl
  · rintro p ⟨⟩
    exact hins.mem_objects.mpr (.inr rfl)

/-- A run of the strings alone. -/
theorem Reached.ofStrings {it : Interner} (hr : Interner.Reached (fun _ _ => True) e it) :
    Reached (fun _ _ => True) e ⟨it, none⟩ := by
  induction hr with
  | new hnew => exact .new hnew
  | step op _ ha _ hstep ih =>
    refine .step (.strings op) ih ha trivial ?_
    rw [CatHeap.step]
    dsimp only
    rw [hstep]
    rfl

/-- After `2^32` strings the next concatenation gets the id of the empty string, which is live. -/
theorem exists_wrapped : ∃ it fresh, Reached (fun _ _ => True) 8192 ⟨it, some (0, fnv1aState [48, 48])⟩ ∧ it.Wf ∧
    it.pool.Available fresh ∧ 8192 ∈ it.pool.objects ∧ it.pool.get 8192 = some ⟨0, strHash [], []⟩ ∧
      ¬ it.Contains [48] ∧ ∃ p, it.tryLookup 0 = some p ∧ it.pool.get p = some ⟨0, strHash [48, 48], [48, 48]⟩ := by
  have he : Pool.InRange 8192 := by simp [Pool.InRange, ADDR_MAX]
  have hf : Pool.InRange 12288 := by simp [Pool.InRange, ADDR_MAX]
  obtain ⟨it, R, hobj, hlen⟩ := Interner.churn he hf (by decide) (2^32 - 1)
  have I := R.inv he
  have havail : it.pool.Available 12288 := fun _ => ⟨hf, fun h => absurd (hobj h) (by decide)⟩
  obtain ⟨it', hstep, W', hins⟩ := concat_zeros I (I.not_contains hobj (List.cons_ne_nil 48 [48])) havail
  have hzero : UInt32.ofNat it.byId.length = 0 := by
    rw [hlen]
    rfl
  rw [hzero] at hstep hins
  have hr : Reached (fun _ _ => True) 8192 _ :=
    .step (.jit (.num .zero) (.num .zero) 12288) (.ofStrings R) ⟨by rintro _ ⟨⟩, by rintro _ ⟨⟩, havail⟩ trivial hstep
  have hold : ∀ q, q ∈ it'.pool.objects → q = 8192 ∨ q = it.pool.nextAddr 12288 := fun q hq =>
    (hins.mem_objects.mp hq).imp_left fun hq => by simpa using hobj hq
  have hget := (hins.get_of_mem I.wf.pool havail I.mem).trans I.get
  obtain ⟨fresh, havail'⟩ := exists_available hold
  refine ⟨it', fresh, hr, W', havail', hins.mem_objects.mpr (.inl I.mem), hget, ?_, it.pool.nextAddr 12288,
    tryLookup_inserted hins, hins.get_self⟩
  rintro ⟨q, hq, str, hstr, hbytes⟩
  rcases hold q hq with rfl | rfl
  · obtain rfl := Option.some.inj (hget.symm.trans hstr)
    cases hbytes
  · obtain rfl := Option.some.inj (hins.get_self.symm.trans hstr)
    cases hbytes

/-- The stream of a concatenation that begins with the empty string then goes on from the other string. -/
theorem not_exact_wrapped : ¬ ∀ h, Reached (fun _ _ => True) 8192 h →
    ∀ a b fresh, h.Live a → h.Live b → h.it.pool.Available fresh → h.Exact a b fresh := by
  intro hall
  obtain ⟨it, fresh, hr, -, havail, hmem, hget, -, -⟩ := exists_wrapped
  have hlive : (⟨it, some (0, fnv1aState [48, 48])⟩ : CatHeap).Live (.str 8192) := by
    rintro p ⟨⟩
    exact hmem
  have hexact := hall _ hr (.str 8192) (.num .zero) fresh hlive nofun havail [] [48] (by rw [text, hget]; rfl) rfl
  have hid : (⟨it, some (0, fnv1aState [48, 48])⟩ : CatHeap).stringId (.str 8192) = some 0 := by
    rw [stringId, hget]
    rfl
  have hstate := hexact.1
  rw [hid] at hstate
  have hmismatch : fnv1aFold (fnv1aCont (fnv1aState [48, 48]) [48]) ≠ strHash [48] := by decide
  exact hmismatch hstate

end CatHeap
end LuajitRs
