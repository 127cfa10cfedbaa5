import LuajitRs.Compiler.Scope.Chains

/-! What the parser keeps in order: each function declares its variables in a part of the stack of its own, in the order
of their slots, and the upvalues of nested functions lead to the variable itself in the function that declares it. -/
namespace LuajitRs.Scope
open Lib Lib.Backlink

section Layout
variable {vs vs' : List VarInfo} {fs fs' : List FuncState} {f f' g : FuncState} {ks : List ℕ} {i j k v top : ℕ}

/-- The variables that a function has declared are in its part of the stack in the order of their slots: the active ones
and `k` more. -/
structure Declared (vs : List VarInfo) (top : ℕ) (f : FuncState) (k : ℕ) : Prop where
  base : f.vbase ≤ top
  count : f.nactvar + k ≤ LJ_MAX_LOCVAR
  mono : ∀ i j, i < j → j < f.nactvar + k → f.varmap i < f.varmap j
  inside : ∀ i, i < f.nactvar + k → f.vbase ≤ f.varmap i ∧ f.varmap i < top
  var : ∀ i, i < f.nactvar + k → vs[f.varmap i]?.any (·.isGola) = false
  slot : ∀ i, i < f.nactvar → vs[f.varmap i]?.map (·.slot) = some i

/-- The functions that are being compiled, each in the part of the stack that begins where it does. -/
inductive Layout (vs : List VarInfo) : ℕ → List FuncState → List ℕ → Prop
  | nil {top : ℕ} : Layout vs top [] []
  | cons {top k : ℕ} {f : FuncState} {fs : List FuncState} {ks : List ℕ} (hd : Declared vs top f k)
      (h : Layout vs f.vbase fs ks) : Layout vs top (f :: fs) (k :: ks)

theorem Layout.uncons (h : Layout vs top (f :: fs) (k :: ks)) : Declared vs top f k ∧ Layout vs f.vbase fs ks := by
  cases h with
  | cons hd h => exact ⟨hd, h⟩

/-- What the layout of a function depends on. -/
def SameVars (f f' : FuncState) : Prop := f'.nactvar = f.nactvar ∧ f'.vbase = f.vbase ∧ f'.varmap = f.varmap

theorem SameVars.refl (f : FuncState) : SameVars f f := ⟨rfl, rfl, rfl⟩

theorem Declared.congr (h : Declared vs top f k) (hf : SameVars f f') : Declared vs top f' k := by
  obtain ⟨h1, h2, h3⟩ := hf
  refine ⟨h2 ▸ h.base, h1 ▸ h.count, ?_, ?_, ?_, ?_⟩
  · rw [h1, h3]
    exact h.mono
  · rw [h1, h2, h3]
    exact h.inside
  · rw [h1, h3]
    exact h.var
  · rw [h1, h3]
    exact h.slot

/-- Entries keep their kind and the active ones their slot. -/
theorem Declared.update (h : Declared vs top f k)
    (hvs : ∀ i, f.vbase ≤ i → i < top → vs'[i]?.any (·.isGola) = vs[i]?.any (·.isGola) ∧
      (f.isActive i = true → vs'[i]?.map (·.slot) = vs[i]?.map (·.slot))) : Declared vs' top f k := by
  refine ⟨h.base, h.count, h.mono, h.inside, fun i hi => ?_, fun i hi => ?_⟩
  · obtain ⟨h1, h2⟩ := h.inside i hi
    rw [(hvs _ h1 h2).1, h.var i hi]
  · obtain ⟨h1, h2⟩ := h.inside i (by omega)
    rw [(hvs _ h1 h2).2 (FuncState.isActive_iff.mpr ⟨i, hi, rfl⟩), h.slot i hi]

theorem Layout.congr (h : Layout vs top fs ks) (hf : List.Forall₂ SameVars fs fs') : Layout vs top fs' ks := by
  induction h generalizing fs' with
  | nil =>
    cases hf
    exact .nil
  | cons hd _ ih =>
    cases hf with
    | cons hf hrest => exact .cons (hd.congr hf) (by rw [hf.2.1]; exact ih hrest)

theorem active_congr (hf : List.Forall₂ SameVars fs fs') (i : ℕ) : active fs' i = active fs i := by
  induction hf with
  | nil => rfl
  | cons hf _ ih => rw [active_cons, active_cons, ih, FuncState.isActive, FuncState.isActive, hf.1, hf.2.2]

theorem Layout.update (h : Layout vs top fs ks)
    (hvs : ∀ i, i < top → vs'[i]?.any (·.isGola) = vs[i]?.any (·.isGola) ∧
      (active fs i = true → vs'[i]?.map (·.slot) = vs[i]?.map (·.slot))) : Layout vs' top fs ks := by
  induction h with
  | nil => exact .nil
  | cons hd _ ih =>
    refine .cons (hd.update fun i _ hi => ⟨(hvs i hi).1, fun ha => (hvs i hi).2 (by simp [ha])⟩) (ih fun i hi => ?_)
    have hi := hi.trans_le hd.base
    exact ⟨(hvs i hi).1, fun ha => (hvs i hi).2 (by simp [ha])⟩

theorem Declared.isActive_bounds (h : Declared vs top f k) (hi : f.isActive i = true) : f.vbase ≤ i ∧ i < top := by
  obtain ⟨j, hj, rfl⟩ := FuncState.isActive_iff.mp hi
  exact h.inside j (by omega)

theorem Layout.active_lt (h : Layout vs top fs ks) (hi : active fs i = true) : i < top := by
  induction h with
  | nil => cases hi
  | cons hd _ ih =>
    obtain ha | ha := Bool.or_eq_true_iff.mp hi
    · exact (hd.isActive_bounds ha).2
    · exact (ih ha).trans_le hd.base

theorem Layout.active_var (h : Layout vs top fs ks) (hi : active fs i = true) : vs[i]?.any (·.isGola) = false := by
  induction h with
  | nil => cases hi
  | cons hd _ ih =>
    obtain ha | ha := Bool.or_eq_true_iff.mp hi
    · obtain ⟨j, hj, rfl⟩ := FuncState.isActive_iff.mp ha
      exact hd.var j (by omega)
    · exact ih ha

theorem Layout.mono {top' : ℕ} (h : Layout vs top fs ks) (ht : top ≤ top') : Layout vs top' fs ks := by
  cases h with
  | nil => exact .nil
  | cons hd h =>
    obtain ⟨h1, h2, h3, h4, h5, h6⟩ := hd
    exact .cons ⟨h1.trans ht, h2, h3, fun i hi => ⟨(h4 i hi).1, (h4 i hi).2.trans_le ht⟩, h5, h6⟩ h

/-- Active variables come before the next one to be activated. -/
theorem Declared.active_lt_next (h : Declared vs top f k) (hl : Layout vs f.vbase fs ks) (hk : 0 < k)
    (hi : active (f :: fs) i = true) : i < f.varmap f.nactvar := by
  obtain ha | ha := Bool.or_eq_true_iff.mp hi
  · obtain ⟨j, hj, rfl⟩ := FuncState.isActive_iff.mp ha
    exact h.mono j _ hj (by omega)
  · exact (hl.active_lt ha).trans_le (h.inside _ (by omega)).1

/-- The last active variable is the one in the last slot of the innermost function. -/
theorem Declared.active_le_last (h : Declared vs top f k) (hl : Layout vs f.vbase fs ks) (hn : 0 < f.nactvar)
    (hi : active (f :: fs) i = true) : i ≤ f.varmap (f.nactvar - 1) := by
  obtain ha | ha := Bool.or_eq_true_iff.mp hi
  · obtain ⟨j, hj, rfl⟩ := FuncState.isActive_iff.mp ha
    obtain rfl | hlt := (show j ≤ f.nactvar - 1 by omega).eq_or_lt
    · exact le_rfl
    · exact (h.mono j _ hlt (by omega)).le
  · exact ((hl.active_lt ha).trans_le (h.inside _ (by omega)).1).le

theorem Declared.activate (h : Declared vs top f (k + 1)) {v v' : VarInfo}
    (hv : vs[f.varmap f.nactvar]? = some v) (hslot : v'.slot = f.nactvar) (hinfo : v'.info = v.info) :
    Declared (vs.set (f.varmap f.nactvar) v') top { f with nactvar := f.nactvar + 1 } k := by
  have hlt := (List.getElem?_eq_some_iff.mp hv).1
  have hne {i : ℕ} (hi : i < f.nactvar + (k + 1)) (hin : i ≠ f.nactvar) : f.varmap f.nactvar ≠ f.varmap i := by
    obtain hlt | hgt := Nat.lt_or_gt_of_ne hin
    · exact (h.mono _ _ hlt (by omega)).ne'
    · exact (h.mono _ _ hgt hi).ne
  have hcount := h.count
  refine ⟨h.base, by dsimp only; omega, fun i j hij hj => h.mono i j hij (by simp at hj; omega),
    fun i hi => h.inside i (by simp at hi; omega), fun i hi => ?_, fun i hi => ?_⟩
  · have hi' : i < f.nactvar + (k + 1) := by simp at hi; omega
    have hvar := h.var i hi'
    dsimp only
    obtain rfl | hin := eq_or_ne i f.nactvar
    · rw [hv] at hvar
      rw [List.getElem?_set_self hlt]
      simpa [VarInfo.isGola, hinfo] using hvar
    · rw [List.getElem?_set_ne (hne hi' hin)]
      exact hvar
  · dsimp only at hi ⊢
    obtain rfl | hin := eq_or_ne i f.nactvar
    · rw [List.getElem?_set_self hlt, Option.map_some, hslot]
    · rw [List.getElem?_set_ne (hne (by omega) hin), h.slot i (by omega)]

theorem Declared.deactivate (h : Declared vs top f 0) {v v' : VarInfo} (hv : vs[i]? = some v)
    (hslot : v'.slot = v.slot) (hinfo : v'.info = v.info) :
    Declared (vs.set i v') top { f with nactvar := f.nactvar - 1 } 0 := by
  have h' : Declared (vs.set i v') top f 0 := h.update fun j _ _ => by
    rw [List.getElem?_set]
    split
    · next hij =>
      obtain ⟨hlt, rfl⟩ := List.getElem?_eq_some_iff.mp hv
      simp [← hij, hlt, VarInfo.isGola, hslot, hinfo]
    · exact ⟨rfl, fun _ => rfl⟩
  have hlt {j : ℕ} (hj : j < f.nactvar - 1) : j < f.nactvar := hj.trans_le (Nat.sub_le _ _)
  exact ⟨h'.base, (Nat.sub_le _ _).trans h'.count, fun j l hjl hl => h'.mono j l hjl (hlt hl),
    fun j hj => h'.inside j (hlt hj), fun j hj => h'.var j (hlt hj), fun j hj => h'.slot j (hlt hj)⟩

end Layout

/-! ### Upvalues -/

section Upvalues
variable {fs fs' : List FuncState} {f f' g g' : FuncState} {r : Upvalue} {vidx slot k top top' : ℕ}

/-- Errors that are reported. -/
def Reported (e : Stop) : Prop := ∃ err, e = .error err

def TooManyUpvalues (e : Stop) : Prop := ∃ line, e = .error (.tooManyUpvalues line)

/-- Where the blocks of a function begin. -/
def FuncState.blocks (f : FuncState) : List ℕ := f.scopes.map (·.nactvar)

@[simp] theorem blocks_pushUv (f : FuncState) (vidx tmp : ℕ) : (f.pushUv vidx tmp).blocks = f.blocks := rfl

@[simp] theorem blocks_fscopeUvmark (f : FuncState) (level : ℕ) : (f.fscopeUvmark level).blocks = f.blocks := by
  rw [FuncState.blocks, FuncState.blocks, FuncState.fscopeUvmark]
  dsimp only
  induction f.scopes with
  | nil => rfl
  | cons bl scopes ih =>
    rw [uvmark]
    split
    · rfl
    · rw [List.map_cons, List.map_cons, ih]

/-- An upvalue of a function directly in `g` refers to its variable: `g` declares it, or it is an upvalue of `g` too. -/
def Refers (g : FuncState) (r : Upvalue) : Prop :=
  r.vidx < LJ_MAX_VSTACK ∧ (g.vbase ≤ r.vidx ∧ r.tmp = r.vidx ∨
    r.vidx < g.vbase ∧ ∃ j, r.tmp = LJ_MAX_VSTACK + j ∧ g.uvs[j]?.map (·.vidx) = some r.vidx)

def ChildrenRefer (top : ℕ) (g : FuncState) : Prop := ∀ c ∈ g.children, ∀ r ∈ c, r.vidx < top ∧ Refers g r

def UpvalsRefer (f g : FuncState) : Prop :=
  f.uvs.length ≤ LJ_MAX_UPVAL ∧ ∀ r ∈ f.uvs, r.vidx < f.vbase ∧ Refers g r

/-- The upvalues of every function that is being compiled, and of the functions in it that are finished, refer to their
variables. The main function has none. -/
def Upvals : ℕ → List FuncState → Prop
  | _, [] => True
  | top, [f] => f.uvs = [] ∧ f.vbase = 0 ∧ ChildrenRefer top f
  | top, f :: g :: rest => UpvalsRefer f g ∧ ChildrenRefer top f ∧ Upvals f.vbase (g :: rest)

/-- What the upvalues in it depend on: the upvalues of a function are only added to. -/
def Extends (g g' : FuncState) : Prop := g'.vbase = g.vbase ∧ g.uvs <+: g'.uvs

theorem Refers.extends (h : Refers g r) (hg : Extends g g') : Refers g' r := by
  obtain ⟨hbound, h⟩ := h
  obtain ⟨hbase, uvs, huvs⟩ := hg
  refine ⟨hbound, ?_⟩
  rw [hbase]
  obtain h | ⟨hlt, j, htmp, hj⟩ := h
  · exact .inl h
  · refine .inr ⟨hlt, j, htmp, ?_⟩
    have hlen : j < g.uvs.length := by
      by_contra hge
      simp [List.getElem?_eq_none (Nat.not_lt.mp hge)] at hj
    rw [← huvs, List.getElem?_append_left hlen, hj]

theorem ChildrenRefer.extends (h : ChildrenRefer top g) (hg : Extends g g') (hc : g'.children = g.children) :
    ChildrenRefer top g' := fun c hc' r hr =>
  have hr' := h c (hc ▸ hc') r hr
  ⟨hr'.1, hr'.2.extends hg⟩

theorem ChildrenRefer.mono (h : ChildrenRefer top g) (ht : top ≤ top') : ChildrenRefer top' g := fun c hc r hr =>
  ⟨(h c hc r hr).1.trans_le ht, (h c hc r hr).2⟩

theorem Upvals.mono (h : Upvals top fs) (ht : top ≤ top') : Upvals top' fs := by
  match fs with
  | [] => trivial
  | [f] => exact ⟨h.1, h.2.1, h.2.2.mono ht⟩
  | f :: g :: rest => exact ⟨h.1, h.2.1.mono ht, h.2.2⟩

theorem Upvals.head (h : Upvals top (f :: fs)) (hf : f'.vbase = f.vbase ∧ f'.uvs = f.uvs ∧ f'.children = f.children) :
    Upvals top (f' :: fs) := by
  obtain ⟨h1, h2, h3⟩ := hf
  have hext : Extends f f' := ⟨h1, by rw [h2]⟩
  cases fs with
  | nil => exact ⟨h2 ▸ h.1, h1 ▸ h.2.1, h.2.2.extends hext h3⟩
  | cons g rest => exact ⟨by rw [UpvalsRefer, h1, h2]; exact h.1, h.2.1.extends hext h3, by rw [h1]; exact h.2.2⟩

/-- The innermost function is finished. -/
theorem Upvals.finish {rest : List FuncState} (h : Upvals top (f :: g :: rest)) :
    Upvals f.vbase ({ g with children := f.uvs :: g.children } :: rest) := by
  obtain ⟨⟨-, huvs⟩, -, h⟩ := h
  have hchildren (hc : ChildrenRefer f.vbase g) :
      ChildrenRefer f.vbase { g with children := f.uvs :: g.children } := fun c hc' r hr => by
    obtain rfl | hc' := List.mem_cons.mp hc'
    · exact ⟨(huvs r hr).1, (huvs r hr).2.extends ⟨rfl, List.prefix_rfl⟩⟩
    · exact ⟨(hc c hc' r hr).1, (hc c hc' r hr).2.extends ⟨rfl, List.prefix_rfl⟩⟩
  cases rest with
  | nil => exact ⟨h.1, h.2.1, hchildren h.2.2⟩
  | cons g' rest => exact ⟨h.1, hchildren h.2.1, h.2.2⟩

/-- One more upvalue, which refers to its variable in the enclosing function. -/
theorem Upvals.pushUv {rest rest' : List FuncState} {tmp : ℕ} (h : Upvals top (f :: g :: rest)) (g' : FuncState)
    (hlt : vidx < f.vbase) (hlen : f.uvs.length < LJ_MAX_UPVAL) (hg : Extends g g')
    (hrest : Upvals f.vbase (g' :: rest')) (hr : Refers g' ⟨vidx, tmp⟩) :
    Upvals top (f.pushUv vidx tmp :: g' :: rest') := by
  obtain ⟨⟨-, huvs⟩, hchildren, -⟩ := h
  refine ⟨⟨by simpa [FuncState.pushUv, Nat.succ_le_iff] using hlen, fun r hr' => ?_⟩,
    hchildren.extends ⟨rfl, List.prefix_append _ _⟩ rfl, hrest⟩
  obtain hr' | hr' := List.mem_append.mp hr'
  · exact ⟨(huvs r hr').1, (huvs r hr').2.extends hg⟩
  · rw [List.mem_singleton.mp hr']
    exact ⟨hlt, hr⟩

theorem findUpval_spec {uvs : List Upvalue} {j : ℕ} (h : findUpval uvs vidx = some j) :
    uvs[j]?.map (·.vidx) = some vidx := by
  obtain ⟨hj, hv, -⟩ := List.findIdx?_eq_some_iff_getElem.mp h
  rw [List.getElem?_eq_getElem hj, Option.map_some, of_decide_eq_true hv]

/-- What handing a variable down keeps of the functions. -/
def SameFuncs (fs fs' : List FuncState) : Prop :=
  List.Forall₂ SameVars fs fs' ∧ fs'.map FuncState.blocks = fs.map FuncState.blocks

theorem SameFuncs.refl (fs : List FuncState) : SameFuncs fs fs :=
  ⟨List.forall₂_same.mpr fun f _ => SameVars.refl f, rfl⟩

theorem SameFuncs.cons (hf : SameVars f f') (hb : f'.blocks = f.blocks) (h : SameFuncs fs fs') :
    SameFuncs (f :: fs) (f' :: fs') := ⟨.cons hf h.1, by rw [List.map_cons, List.map_cons, hb, h.2]⟩

/-- A variable is handed down: the innermost function gets one more upvalue for it, and all upvalues still refer to
their variables. -/
theorem addUpval_spec (h : Upvals top (f :: fs)) (hlt : vidx < f.vbase) (hbound : vidx < LJ_MAX_VSTACK) :
    Ensures TooManyUpvalues (addUpval vidx slot (f :: fs)) fun fs' =>
      Upvals top fs' ∧ SameFuncs (f :: fs) fs' ∧ ∃ tmp, fs'.head? = some (f.pushUv vidx tmp) := by
  induction fs generalizing f top with
  | nil =>
    have := h.2.1
    omega
  | cons g rest ih =>
    have hsame (tmp : ℕ) : SameVars f (f.pushUv vidx tmp) := ⟨rfl, rfl, rfl⟩
    rw [addUpval]
    split
    · exact ⟨_, rfl⟩
    · next hlen =>
      have hlen' := Nat.not_le.mp hlen
      have hrest := h.2.2
      split
      · next hbase =>
        refine ⟨h.pushUv (g.fscopeUvmark slot) hlt hlen' ⟨rfl, List.prefix_rfl⟩ (hrest.head ⟨rfl, rfl, rfl⟩)
          ⟨hbound, .inl ⟨hbase, rfl⟩⟩, ?_, _, rfl⟩
        exact .cons (hsame _) rfl (.cons ⟨rfl, rfl, rfl⟩ (by simp) (.refl rest))
      · next hbase =>
        have hlt' : vidx < g.vbase := Nat.not_le.mp hbase
        split
        · next j hj =>
          exact ⟨h.pushUv g hlt hlen' ⟨rfl, List.prefix_rfl⟩ hrest ⟨hbound, .inr ⟨hlt', j, rfl, findUpval_spec hj⟩⟩,
            .cons (hsame _) rfl (.refl _), _, rfl⟩
        · refine (ih hrest hlt').bind fun fs' ⟨hup, hall, tmp, hhead⟩ => ?_
          cases fs' with
          | nil => cases hhead
          | cons g' rest' =>
            obtain rfl := Option.some.inj hhead
            refine ⟨h.pushUv (g.pushUv vidx tmp) hlt hlen' ⟨rfl, List.prefix_append _ _⟩ hup
              ⟨hbound, .inr ⟨hlt', _, rfl, ?_⟩⟩,
              .cons (hsame _) rfl hall, _, rfl⟩
            simp [FuncState.pushUv]

/-- Follow an upvalue of the innermost function outwards, as the creation of the closures does, to a variable of a
function that is being compiled. -/
def follow : List FuncState → ℕ → Option (ℕ × ℕ)
  | f :: g :: rest, k =>
    match f.uvs[k]? with
    | none => none
    | some r =>
      if r.tmp < LJ_MAX_VSTACK then some (1, r.tmp)
      else (follow (g :: rest) (r.tmp - LJ_MAX_VSTACK)).map fun lv => (lv.1 + 1, lv.2)
  | _, _ => none

/-- The variable is in the part of the stack that belongs to the function `l` levels out. -/
def DeclaredAt (fs : List FuncState) (l v : ℕ) : Prop :=
  ∃ f g, fs[l]? = some f ∧ fs[l + 1]? = some g ∧ g.vbase ≤ v ∧ v < f.vbase

theorem DeclaredAt.congr {l v : ℕ} (hf : List.Forall₂ SameVars fs fs') (h : DeclaredAt fs' l v) :
    DeclaredAt fs l v := by
  obtain ⟨f', g', hf', hg', hb, hb'⟩ := h
  have hget {l : ℕ} {f' : FuncState} (h : fs'[l]? = some f') : ∃ f, fs[l]? = some f ∧ f'.vbase = f.vbase := by
    obtain ⟨hl, rfl⟩ := List.getElem?_eq_some_iff.mp h
    exact ⟨_, List.getElem?_eq_getElem (hf.length_eq ▸ hl), (List.Forall₂.get hf _ hl).2.1⟩
  obtain ⟨f, hf, hfb⟩ := hget hf'
  obtain ⟨g, hg, hgb⟩ := hget hg'
  exact ⟨f, g, hf, hg, hgb ▸ hb, hfb ▸ hb'⟩

theorem Layout.vbase_le {vs : List VarInfo} {ks : List ℕ} {l : ℕ} (h : Layout vs top fs ks) (hf : fs[l]? = some f) :
    f.vbase ≤ top := by
  induction h generalizing l with
  | nil => cases hf
  | cons hd _ ih =>
    cases l with
    | zero =>
      obtain rfl := Option.some.inj hf
      exact hd.base
    | succ l => exact (ih hf).trans hd.base

/-- An active variable is one of the function that declares it. -/
theorem Layout.isActive {vs : List VarInfo} {ks : List ℕ} {l v : ℕ} (h : Layout vs top fs ks)
    (hv : active fs v = true) (hd : DeclaredAt fs l v) : ∃ g, fs[l + 1]? = some g ∧ g.isActive v = true := by
  induction h generalizing l with
  | nil => cases hv
  | @cons _ _ f _ _ hdecl h ih =>
    obtain ⟨f₁, g₁, hf₁, hg₁, hb, hb'⟩ := hd
    have hle : f₁.vbase ≤ f.vbase := by
      cases l with
      | zero => rw [Option.some.inj hf₁]
      | succ l => exact h.vbase_le hf₁
    obtain ha | ha := Bool.or_eq_true_iff.mp hv
    · have := (hdecl.isActive_bounds ha).1
      omega
    · cases l with
      | zero =>
        cases h with
        | nil => cases ha
        | cons hd h =>
          obtain rfl := Option.some.inj hg₁
          obtain ha | ha := Bool.or_eq_true_iff.mp ha
          · exact ⟨_, rfl, ha⟩
          · have := h.active_lt ha
            omega
      | succ l => exact ih ha ⟨f₁, g₁, hf₁, hg₁, hb, hb'⟩

/-- Every upvalue leads to its variable in the function that declares it. -/
theorem follow_spec (h : Upvals top fs) {rest : List FuncState} (hfs : fs = f :: rest) (hk : f.uvs[k]? = some r) :
    ∃ l, follow fs k = some (l + 1, r.vidx) ∧ DeclaredAt fs l r.vidx := by
  induction fs generalizing f rest k r top with
  | nil => cases hfs
  | cons f' fs ih =>
    obtain ⟨rfl, rfl⟩ := List.cons.inj hfs
    cases fs with
    | nil => simp [h.1] at hk
    | cons g rest =>
      obtain ⟨hlt, hbound, href⟩ := h.1.2 r (List.mem_of_getElem? hk)
      rw [follow, hk]
      dsimp only
      obtain ⟨hbase, htmp⟩ | ⟨hltg, j, htmp, hj⟩ := href
      · rw [if_pos (by omega), htmp]
        exact ⟨0, rfl, f', g, rfl, rfl, hbase, hlt⟩
      · obtain ⟨r', hr', hvidx⟩ := Option.map_eq_some_iff.mp hj
        obtain ⟨l, hl, f₁, g₁, hf₁, hg₁, hb, hb'⟩ := ih h.2.2 rfl hr'
        rw [if_neg (by omega), htmp, Nat.add_sub_cancel_left, hl, ← hvidx]
        exact ⟨l + 1, rfl, f₁, g₁, hf₁, hg₁, hb, hb'⟩

end Upvalues
end LuajitRs.Scope
