import LuajitRs.Compiler.Scope.Layout

/-! The invariant of the parser's variables, and that every operation keeps it. An operation stops at most with an error
that is reported. -/
namespace LuajitRs.Scope
open Lib Lib.Backlink

section Invariant
variable {p p' : Parser} {f f' : FuncState} {rest fs' : List FuncState} {ks : List ℕ} {k n i : ℕ} {name : VName}
  {vs : List VarInfo}

/-- `ks` counts the variables of each function that are declared but not active yet. -/
structure Inv (p : Parser) (ks : List ℕ) : Prop where
  layout : Layout p.vstack p.vstack.length p.fs ks
  chains : Chains p.vstack p.vhash (active p.fs)
  upvals : Upvals p.vstack.length p.fs
  blocks : ∀ bs ∈ p.fs.map FuncState.blocks, ∀ b ∈ bs.getLast?, b = 0
  slots : ∀ v ∈ p.vstack, v.slot < 256
  bound : p.vstack.length ≤ LJ_MAX_VSTACK

theorem cur_eq (h : p.fs = f :: rest) : cur p = .ok (f, rest) := by rw [cur, h]

theorem Inv.active_lt (h : Inv p ks) (hi : active p.fs i = true) : i < p.vstack.length := h.layout.active_lt hi

theorem Inv.exists_head (h : Inv p (k :: ks)) : ∃ f rest, p.fs = f :: rest := by
  cases hfs : p.fs with
  | nil => cases hfs ▸ h.layout
  | cons f rest => exact ⟨f, rest, rfl⟩

theorem Inv.declared (h : Inv p (k :: ks)) (hfs : p.fs = f :: rest) :
    Declared p.vstack p.vstack.length f k ∧ Layout p.vstack f.vbase rest ks := Layout.uncons (hfs ▸ h.layout)

/-- The functions change in what the invariant does not depend on. -/
theorem Inv.frames (h : Inv p ks) (hf : SameFuncs p.fs fs') (hup : Upvals p.vstack.length fs') :
    Inv { p with fs := fs' } ks :=
  ⟨h.layout.congr hf.1, h.chains.congr rfl (fun i _ => active_congr hf.1 i) fun _ _ => ⟨rfl, rfl⟩, hup, hf.2 ▸ h.blocks,
    h.slots, h.bound⟩

theorem Inv.head (h : Inv p ks) (hfs : p.fs = f :: rest) (hf : SameVars f f') (hb : ∀ b ∈ f'.blocks.getLast?, b = 0)
    (huvs : f'.uvs = f.uvs) (hchildren : f'.children = f.children) : Inv { p with fs := f' :: rest } ks := by
  have hall : List.Forall₂ SameVars p.fs (f' :: rest) := by
    rw [hfs]
    exact .cons hf (List.forall₂_same.mpr fun f _ => SameVars.refl f)
  refine ⟨h.layout.congr hall, h.chains.congr rfl (fun i _ => active_congr hall i) fun _ _ => ⟨rfl, rfl⟩,
    (hfs ▸ h.upvals).head ⟨hf.2.1, huvs, hchildren⟩, ?_, h.slots, h.bound⟩
  have hblocks := h.blocks
  rw [hfs, List.map_cons, List.forall_mem_cons] at hblocks
  exact List.forall_mem_cons.mpr ⟨hb, hblocks.2⟩

/-- An entry changes: a goto or label at will, a variable in what no chain and no slot depends on. -/
theorem Inv.edit (h : Inv p ks) {g : VarInfo → VarInfo}
    (hg : ∀ v, p.vstack[i]? = some v → (g v).slot < 256 ∧ (g v).isGola = v.isGola ∧
      (active p.fs i = true → (g v).slot = v.slot ∧ (g v).name = v.name ∧ (g v).prev = v.prev)) :
    Inv { p with vstack := p.vstack.modify i g } ks := by
  have hvs (j : ℕ) : (p.vstack.modify i g)[j]? = if i = j then p.vstack[j]?.map g else p.vstack[j]? := by
    rw [List.getElem?_modify]
    split <;> simp
  refine ⟨?_, ?_, by rw [List.length_modify]; exact h.upvals, h.blocks, fun v hv => ?_,
    by rw [List.length_modify]; exact h.bound⟩
  · rw [List.length_modify]
    refine h.layout.update fun j _ => ?_
    rw [hvs]
    split
    · next hij =>
      subst hij
      cases hv : p.vstack[i]? with
      | none => simp
      | some v => exact ⟨by simp [(hg v hv).2.1], fun ha => by simp [((hg v hv).2.2 ha).1]⟩
    · exact ⟨rfl, fun _ => rfl⟩
  · refine h.chains.congr (by rw [List.length_modify]) (fun _ _ => rfl) fun j ha => ?_
    rw [hashAt, hashAt, prevAt, prevAt, hvs]
    split
    · next hij =>
      subst hij
      cases hv : p.vstack[i]? with
      | none => exact ⟨rfl, rfl⟩
      | some v =>
        have := (hg v hv).2.2 ha
        simp [this.2.1, this.2.2]
    · exact ⟨rfl, rfl⟩
  · obtain ⟨j, hj⟩ := List.mem_iff_getElem?.mp hv
    rw [hvs] at hj
    split at hj
    · next hij =>
      subst hij
      obtain ⟨v', hv', rfl⟩ := Option.map_eq_some_iff.mp hj
      exact (hg v' hv').1
    · exact h.slots v (List.mem_of_getElem? hj)

/-- An entry is pushed, and the functions keep their variables. -/
theorem Inv.push (h : Inv p ks) (e : VarInfo) (he : e.slot < 256) (hlt : p.vstack.length < LJ_MAX_VSTACK) :
    Inv { p with vstack := p.vstack ++ [e] } ks := by
  have hnew : active p.fs p.vstack.length = false := by
    by_contra ha
    have := h.active_lt (by simpa using ha)
    omega
  refine ⟨?_, h.chains.append e (fun _ _ => rfl) hnew, h.upvals.mono (by simp), h.blocks, fun v hv => ?_,
    by simpa using Nat.succ_le_of_lt hlt⟩
  · refine (h.layout.update fun i hi => ?_).mono (by simp)
    rw [List.getElem?_append_left hi]
    exact ⟨rfl, fun _ => rfl⟩
  · obtain hv | hv := List.mem_append.mp hv
    · exact h.slots v hv
    · rwa [List.mem_singleton.mp hv]

/-- A variable is pushed and becomes the next one of the innermost function. -/
theorem Inv.declare {e : VarInfo} (h : Inv p (k :: ks)) (hfs : p.fs = f :: rest) (he : e.isGola = false)
    (hslot : e.slot < 256) (hlt : p.vstack.length < LJ_MAX_VSTACK) (hcount : f.nactvar + k < LJ_MAX_LOCVAR) :
    Inv { p with vstack := p.vstack ++ [e], fs := f.mapVar k p.vstack.length :: rest } ((k + 1) :: ks) := by
  have hpush := h.push e hslot hlt
  obtain ⟨hold, -⟩ := h.declared hfs
  obtain ⟨hdecl, hrest⟩ := hpush.declared hfs
  have hmap {j : ℕ} (hj : j < f.nactvar + k) :
      (f.mapVar k p.vstack.length).varmap j = f.varmap j := Function.update_of_ne (by omega) _ _
  have hself : (f.mapVar k p.vstack.length).varmap (f.nactvar + k) = p.vstack.length := Function.update_self _ _ _
  have hact (j : ℕ) : active (f.mapVar k p.vstack.length :: rest) j = active p.fs j := by
    rw [hfs, active_cons, active_cons]
    congr 1
    rw [Bool.eq_iff_iff, FuncState.isActive_iff, FuncState.isActive_iff]
    exact exists_congr fun l => and_congr_right fun hl => by rw [hmap (Nat.lt_add_right k hl)]
  refine ⟨.cons ⟨hdecl.base, hcount, fun i j hij hj => ?_, fun i hi => ?_, fun i hi => ?_, fun i hi => ?_⟩ hrest,
    ?_, ?_, ?_, hpush.slots, hpush.bound⟩
  · have hj : j < f.nactvar + (k + 1) := hj
    rw [hmap (by omega)]
    obtain hj | rfl := (show j < f.nactvar + k ∨ j = f.nactvar + k by omega)
    · rw [hmap hj]
      exact hdecl.mono i j hij hj
    · rw [hself]
      exact (hold.inside i hij).2
  · have hi : i < f.nactvar + (k + 1) := hi
    obtain hi | rfl := (show i < f.nactvar + k ∨ i = f.nactvar + k by omega)
    · rw [hmap hi]
      exact hdecl.inside i hi
    · rw [hself]
      exact ⟨hold.base, by simp⟩
  · have hi : i < f.nactvar + (k + 1) := hi
    obtain hi | rfl := (show i < f.nactvar + k ∨ i = f.nactvar + k by omega)
    · rw [hmap hi]
      exact hdecl.var i hi
    · rw [hself, List.getElem?_concat_length]
      exact he
  · have hi : i < f.nactvar := hi
    rw [hmap (by omega)]
    exact hdecl.slot i hi
  · exact hpush.chains.congr rfl (fun j _ => hact j) fun _ _ => ⟨rfl, rfl⟩
  · exact (hfs ▸ hpush.upvals).head ⟨rfl, rfl, rfl⟩
  · have := h.blocks
    rwa [hfs] at this

/-- A variable of the innermost function is activated or deactivated. -/
theorem Inv.replace {e : VarInfo} {vhash : ℕ → Option ℕ} {k' : ℕ} (h : Inv p (k :: ks)) (hfs : p.fs = f :: rest)
    (hi : f.vbase ≤ i) (he : e.slot < 256)
    (hdecl : Declared (p.vstack.set i e) p.vstack.length { f with nactvar := n } k')
    (hchains : Chains (p.vstack.set i e) vhash (active ({ f with nactvar := n } :: rest))) :
    Inv ⟨p.vstack.set i e, vhash, { f with nactvar := n } :: rest⟩ (k' :: ks) := by
  refine ⟨?_, hchains, ?_, ?_, fun w hw => ?_, ?_⟩
  · rw [List.length_set]
    refine .cons hdecl ((h.declared hfs).2.update fun j hj => ?_)
    rw [List.getElem?_set_ne (hj.trans_le hi).ne']
    exact ⟨rfl, fun _ => rfl⟩
  · rw [List.length_set]
    exact (hfs ▸ h.upvals).head ⟨rfl, rfl, rfl⟩
  · have := h.blocks
    rwa [hfs] at this
  · obtain hw | rfl := List.mem_or_eq_of_mem_set hw
    · exact h.slots w hw
    · exact he
  · rw [List.length_set]
    exact h.bound

/-! ### Declaring -/

/-- The hash chains lead through declared variables. -/
def Chained (p : Parser) : Prop := ∃ act, Chains p.vstack p.vhash act ∧ ∀ i, act i = true → i < p.vstack.length

theorem Inv.chained (h : Inv p ks) : Chained p := ⟨_, h.chains, fun _ => h.active_lt⟩

theorem varNew_spec (hfs : p.fs = f :: rest) (h : Chained p) :
    Ensures Reported (varNew n name p) fun r =>
      f.nactvar + n < LJ_MAX_LOCVAR ∧ p.vstack.length < LJ_MAX_VSTACK ∧
        r = (p.vstack.length, { p with
          vstack := p.vstack ++ [VarInfo.new name]
          fs := f.mapVar n p.vstack.length :: rest }) := by
  rw [varNew, cur_eq hfs, ok_bind]
  have hpush : Ensures Reported (if LJ_MAX_LOCVAR ≤ f.nactvar + n then .error (.error (.tooManyLocals f.linedefined))
      else if LJ_MAX_VSTACK ≤ p.vstack.length then .error (.error .tooManyLevels)
      else .ok (p.vstack.length, { p with
        vstack := p.vstack ++ [VarInfo.new name]
        fs := f.mapVar n p.vstack.length :: rest })) fun r =>
      f.nactvar + n < LJ_MAX_LOCVAR ∧ p.vstack.length < LJ_MAX_VSTACK ∧
        r = (p.vstack.length, { p with
          vstack := p.vstack ++ [VarInfo.new name]
          fs := f.mapVar n p.vstack.length :: rest }) := by
    split
    · exact ⟨_, rfl⟩
    · split
      · exact ⟨_, rfl⟩
      · next h1 h2 => exact ⟨Nat.not_le.mp h1, Nat.not_le.mp h2, rfl⟩
  dsimp only
  split
  · obtain ⟨act, hchains, -⟩ := h
    rw [hchains.find, ok_bind]
    split
    · exact ⟨_, rfl⟩
    · exact hpush
  · exact hpush

theorem Inv.varNew (h : Inv p (k :: ks)) : Ensures Reported (varNew k name p) fun r => Inv r.2 ((k + 1) :: ks) := by
  obtain ⟨f, rest, hfs⟩ := h.exists_head
  refine (varNew_spec hfs h.chained).mono fun r ⟨hcount, hlt, hr⟩ => ?_
  rw [hr]
  exact h.declare hfs (by simp [VarInfo.isGola, VarInfo.new]) (by simp [VarInfo.new]) hlt hcount

/-- An entry that was pushed last is changed. -/
theorem modify_concat (vs : List VarInfo) (e : VarInfo) (g : VarInfo → VarInfo) :
    (vs ++ [e]).modify vs.length g = vs ++ [g e] := by
  induction vs with
  | nil => rfl
  | cons v vs ih => rw [List.cons_append, List.length_cons, List.modify_succ_cons, ih, List.cons_append]

theorem Inv.localNames {names : List VName} (h : Inv p (k :: ks)) :
    Ensures Reported (localNames k names p) fun q => Inv q ((k + names.length) :: ks) := by
  induction names generalizing p k with
  | nil => exact h
  | cons name names ih =>
    obtain ⟨f, rest, hfs⟩ := h.exists_head
    rw [Scope.localNames, cur_eq hfs, ok_bind]
    refine (varNew_spec hfs h.chained).bind fun r ⟨hcount, hlt, hr⟩ => ?_
    rw [hr, List.length_cons, ← Nat.add_assoc, Nat.add_right_comm]
    dsimp only
    rw [modify_concat]
    exact ih (h.declare hfs (by simp [VarInfo.isGola, VarInfo.new]) (hcount.trans (by decide)) hlt hcount)

theorem Inv.parseLocal {names : List VName} (h : Inv p (0 :: ks)) :
    Ensures Reported (parseLocal names p) fun q => Inv q (names.length :: ks) := by
  obtain ⟨f, rest, hfs⟩ := h.exists_head
  rw [Scope.parseLocal, cur_eq hfs, ok_bind, ← Nat.zero_add names.length]
  have hblocks := h.blocks
  rw [hfs, List.map_cons, List.forall_mem_cons] at hblocks
  have hhead : Inv { p with fs := { f with pendStart := p.vstack.length } :: rest } (0 :: ks) :=
    h.head hfs ⟨rfl, rfl, rfl⟩ hblocks.1 rfl rfl
  exact hhead.localNames

/-- The constants are in hash chains while they are declared; the invariant holds with the chains from before. -/
theorem Inv.constNames {names : List VName} {vhash : ℕ → Option ℕ} {vinfo : ℕ}
    (h : Inv { p with vhash := vhash } (k :: ks)) (hc : Chained p)
    (hv : (⟨.none, 0, 0, 0, vinfo, none⟩ : VarInfo).isGola = false) :
    Ensures Reported (constNames vinfo k names p) fun q =>
      Inv { q with vhash := vhash } ((k + names.length) :: ks) := by
  induction names generalizing p k with
  | nil => exact h
  | cons name names ih =>
    obtain ⟨f, rest, hfs⟩ := h.exists_head
    rw [Scope.constNames]
    refine (varNew_spec (p := p) hfs hc).bind fun r ⟨hcount, hlt, hr⟩ => ?_
    rw [hr, List.length_cons, ← Nat.add_assoc, Nat.add_right_comm]
    obtain ⟨act, hchains, hact⟩ := hc
    have hnew : act p.vstack.length = false := by
      by_contra ha
      exact (hact _ (by simpa using ha)).false
    dsimp only
    split
    · next b hb =>
      dsimp only
      rw [modify_concat, modify_concat]
      refine ih (h.declare hfs hv (by simp [VarInfo.new]) hlt hcount)
        ⟨fun i => act i || i == p.vstack.length, ?_, fun i hi => ?_⟩
      · have happ := hchains.append (VarInfo.new name) (fun _ _ => rfl) hnew
        have hset := (happ.activate { VarInfo.new name with prev := p.vhash b, info := vinfo }
          List.getElem?_concat_length hact (fun _ => rfl) rfl).1 b hb rfl
        rwa [List.set_append_right _ _ le_rfl, Nat.sub_self] at hset
      · rw [List.length_append, List.length_singleton]
        obtain hi | hi := Bool.or_eq_true_iff.mp hi
        · exact (hact i hi).trans (Nat.lt_succ_self _)
        · rw [eq_of_beq hi]
          exact Nat.lt_succ_self _
    · dsimp only
      rw [modify_concat]
      refine ih (h.declare hfs hv (by simp [VarInfo.new]) hlt hcount)
        ⟨act, hchains.append _ (fun _ _ => rfl) hnew, fun i hi => ?_⟩
      rw [List.length_append, List.length_singleton]
      exact (hact i hi).trans (Nat.lt_succ_self _)

theorem Inv.parseConst {names : List VName} (h : Inv p (0 :: ks)) :
    Ensures Reported (parseConst (2 ^ VSTACK_CONST) names p) fun q => Inv q (names.length :: ks) := by
  rw [Scope.parseConst, ← Nat.zero_add names.length]
  exact (h.constNames h.chained (by decide)).bind fun q hq => hq

/-! ### Activating -/

theorem isActive_succ (f : FuncState) (i : ℕ) :
    ({ f with nactvar := f.nactvar + 1 } : FuncState).isActive i = (f.isActive i || i == f.varmap f.nactvar) := by
  have hcomm : decide (f.varmap f.nactvar = i) = (i == f.varmap f.nactvar) := by
    rw [beq_eq_decide, decide_eq_decide]
    exact eq_comm
  rw [FuncState.isActive, FuncState.isActive, List.range_succ, List.any_append, ← hcomm]
  simp

theorem Declared.isActive_pred {vs : List VarInfo} {top : ℕ} (h : Declared vs top f k) (hn : 0 < f.nactvar) (i : ℕ) :
    ({ f with nactvar := f.nactvar - 1 } : FuncState).isActive i =
      (f.isActive i && i != f.varmap (f.nactvar - 1)) := by
  rw [Bool.eq_iff_iff, FuncState.isActive_iff, Bool.and_eq_true_iff, FuncState.isActive_iff, bne_iff_ne]
  constructor
  · intro ⟨j, hj, he⟩
    refine ⟨⟨j, by dsimp only at hj; omega, he⟩, fun hi => ?_⟩
    have := h.mono j (f.nactvar - 1) hj (by omega)
    dsimp only at he
    omega
  · intro ⟨⟨j, hj, he⟩, hne⟩
    refine ⟨j, ?_, he⟩
    have : j ≠ f.nactvar - 1 := fun hj' => hne (by rw [← he, hj'])
    dsimp only
    omega

theorem Inv.varAddOne (h : Inv p ((k + 1) :: ks)) :
    Ensures Reported (varAddOne p) fun p' => Inv p' (k :: ks) := by
  obtain ⟨f, rest, hfs⟩ := h.exists_head
  obtain ⟨hdecl, hrest⟩ := h.declared hfs
  rw [Scope.varAddOne, cur_eq hfs, ok_bind]
  dsimp only
  have hin := hdecl.inside f.nactvar (by omega)
  have hcount := hdecl.count
  split
  · next hv =>
    rw [List.getElem?_eq_none_iff] at hv
    omega
  · next v hv =>
    have hact (i : ℕ) : active ({ f with nactvar := f.nactvar + 1 } :: rest) i =
        (active p.fs i || i == f.varmap f.nactvar) := by
      rw [hfs, active_cons, active_cons, isActive_succ, Bool.or_right_comm]
    have hlast (i : ℕ) (hi : active p.fs i = true) : i < f.varmap f.nactvar :=
      hdecl.active_lt_next hrest (Nat.succ_pos k) (hfs ▸ hi)
    have hslot : f.nactvar < 256 := (show f.nactvar < LJ_MAX_LOCVAR by omega).trans (by decide)
    split
    · next b hb =>
      exact h.replace hfs hin.1 hslot (hdecl.activate hv rfl rfl)
        ((h.chains.activate { v with startpc := f.pc, slot := f.nactvar, prev := p.vhash b } hv hlast hact rfl).1 b hb
          rfl)
    · next hb =>
      exact h.replace hfs hin.1 hslot (hdecl.activate hv rfl rfl)
        ((h.chains.activate { v with startpc := f.pc, slot := f.nactvar } hv hlast hact rfl).2 hb)

theorem Inv.varAdd (h : Inv p ((n + k) :: ks)) : Ensures Reported (varAdd n p) fun p' => Inv p' (k :: ks) := by
  induction n generalizing p with
  | zero =>
    rw [Nat.zero_add] at h
    exact h
  | succ n ih =>
    rw [Nat.succ_add] at h
    exact h.varAddOne.bind fun q hq => ih hq

theorem Inv.varRemoveOne (h : Inv p (0 :: ks)) (hfs : p.fs = f :: rest) (hn : 0 < f.nactvar) :
    Ensures Reported (varRemoveOne p) fun p' =>
      Inv p' (0 :: ks) ∧ p'.fs = { f with nactvar := f.nactvar - 1 } :: rest ∧
        p'.vstack.length = p.vstack.length := by
  obtain ⟨hdecl, hrest⟩ := h.declared hfs
  rw [Scope.varRemoveOne, cur_eq hfs, ok_bind]
  dsimp only
  have hin := hdecl.inside (f.nactvar - 1) (by omega)
  have hcount := hdecl.count
  split
  · next hv =>
    rw [List.getElem?_eq_none_iff] at hv
    omega
  · next v hv =>
    have hact (i : ℕ) : active ({ f with nactvar := f.nactvar - 1 } :: rest) i =
        (active p.fs i && i != f.varmap (f.nactvar - 1)) := by
      rw [hfs, active_cons, active_cons, hdecl.isActive_pred hn]
      cases ha : active rest i with
      | false => simp
      | true =>
        have hne : i ≠ f.varmap (f.nactvar - 1) := ((hrest.active_lt ha).trans_le hin.1).ne
        simp [hne]
    have hlast (i : ℕ) (hi : active p.fs i = true) : i ≤ f.varmap (f.nactvar - 1) :=
      hdecl.active_le_last hrest hn (hfs ▸ hi)
    have hactive : active p.fs (f.varmap (f.nactvar - 1)) = true := by
      rw [hfs, active_cons, FuncState.isActive_iff.mpr ⟨f.nactvar - 1, by omega, rfl⟩, Bool.true_or]
    have hchains := h.chains.deactivate { v with endpc := f.pc } hv hlast hactive hact rfl rfl
    have hslot := h.slots v (List.mem_of_getElem? hv)
    split
    · next b hb =>
      exact ⟨h.replace hfs hin.1 hslot (hdecl.deactivate hv rfl rfl) (hchains.1 b hb), rfl, List.length_set⟩
    · next hb => exact ⟨h.replace hfs hin.1 hslot (hdecl.deactivate hv rfl rfl) (hchains.2 hb), rfl, List.length_set⟩

theorem Inv.varRemoveTimes (h : Inv p (0 :: ks)) (hfs : p.fs = f :: rest) (hn : n ≤ f.nactvar) :
    Ensures Reported (varRemoveTimes n p) fun p' =>
      Inv p' (0 :: ks) ∧ p'.fs = { f with nactvar := f.nactvar - n } :: rest ∧
        p'.vstack.length = p.vstack.length := by
  induction n generalizing p f with
  | zero => exact ⟨h, hfs, rfl⟩
  | succ n ih =>
    refine (h.varRemoveOne hfs (by omega)).bind fun q ⟨hq, hqfs, hlen⟩ => ?_
    refine (ih hq hqfs (by dsimp only; omega)).mono fun p' ⟨hp, hpfs, hlen'⟩ => ⟨hp, ?_, hlen'.trans hlen⟩
    rw [hpfs, Nat.sub_sub, Nat.add_comm 1 n]

theorem Inv.varRemove (h : Inv p (0 :: ks)) (hfs : p.fs = f :: rest) :
    Ensures Reported (varRemove n p) fun p' =>
      Inv p' (0 :: ks) ∧ p'.fs = { f with nactvar := min n f.nactvar } :: rest ∧
        p'.vstack.length = p.vstack.length := by
  rw [Scope.varRemove, cur_eq hfs, ok_bind]
  refine (h.varRemoveTimes hfs (Nat.sub_le _ _)).mono fun p' ⟨hp, hpfs, hlen⟩ => ⟨hp, ?_, hlen⟩
  rw [hpfs, show f.nactvar - (f.nactvar - n) = min n f.nactvar by omega]

/-! ### Gotos, blocks and functions -/

theorem Inv.golaNew {info pc : ℕ} (h : Inv p (k :: ks)) :
    Ensures Reported (golaNew name info pc p) fun r => Inv r.2 (k :: ks) := by
  obtain ⟨f, rest, hfs⟩ := h.exists_head
  have hcount := (h.declared hfs).1.count
  rw [Scope.golaNew, cur_eq hfs, ok_bind]
  dsimp only
  split
  · exact ⟨_, rfl⟩
  · next hlt => exact h.push _ (show f.nactvar < 256 from (show f.nactvar ≤ 200 by
      rw [LJ_MAX_LOCVAR] at hcount; omega).trans_lt (by decide)) (Nat.not_le.mp hlt)

theorem Inv.fscopeBegin (h : Inv p ks) (hfs : p.fs = f :: rest) (hf : f.scopes = [] → f.nactvar = 0) :
    Ensures Reported (fscopeBegin p) fun p' => Inv p' ks := by
  rw [Scope.fscopeBegin, cur_eq hfs, ok_bind]
  have hblocks := h.blocks
  rw [hfs, List.map_cons, List.forall_mem_cons] at hblocks
  refine h.head hfs ⟨rfl, rfl, rfl⟩ ?_ rfl rfl
  rw [FuncState.blocks, List.map_cons]
  cases hs : f.scopes with
  | nil => simp [hf hs]
  | cons bl scopes =>
    have := hblocks.1
    rw [FuncState.blocks, hs, List.map_cons] at this
    rwa [List.map_cons, List.getLast?_cons_cons]

theorem Inv.fscopeEnd {bl : FuncScope} {scopes : List FuncScope} (h : Inv p (0 :: ks)) (hfs : p.fs = f :: rest)
    (hf : f.scopes = bl :: scopes) :
    Ensures Reported (fscopeEnd p) fun r =>
      Inv r.2 (0 :: ks) ∧ r.2.fs = { f with scopes := scopes, nactvar := min bl.nactvar f.nactvar } :: rest ∧
        r.2.vstack.length = p.vstack.length := by
  have hblocks := h.blocks
  rw [hfs, List.map_cons, List.forall_mem_cons, FuncState.blocks, hf, List.map_cons] at hblocks
  have hscopes : Inv { p with fs := { f with scopes := scopes } :: rest } (0 :: ks) := by
    refine h.head hfs ⟨rfl, rfl, rfl⟩ ?_ rfl rfl
    rw [FuncState.blocks]
    cases scopes with
    | nil => simp
    | cons bl' scopes =>
      have := hblocks.1
      rwa [List.map_cons, List.getLast?_cons_cons] at this
  rw [Scope.fscopeEnd, cur_eq hfs, ok_bind]
  dsimp only
  rw [hf]
  exact (hscopes.varRemove rfl).bind fun q hq => hq

/-- A function begins with a block. -/
theorem Inv.fsInit (h : Inv p (k :: ks)) :
    Ensures Reported (Scope.fscopeBegin (Scope.fsInit p)) fun p' => Inv p' (0 :: k :: ks) := by
  obtain ⟨f, rest, hfs⟩ := h.exists_head
  have hinv : Inv (Scope.fsInit p) (0 :: k :: ks) := by
    refine ⟨.cons ?_ h.layout, h.chains.congr rfl (fun i _ => ?_) fun _ _ => ⟨rfl, rfl⟩, ?_, ?_, h.slots, h.bound⟩
    · exact ⟨le_rfl, Nat.zero_le _, fun i j _ hj => absurd hj (Nat.not_lt_zero j),
        fun i hi => absurd hi (Nat.not_lt_zero i), fun i hi => absurd hi (Nat.not_lt_zero i),
        fun i hi => absurd hi (Nat.not_lt_zero i)⟩
    · rw [Scope.fsInit]
      simp [FuncState.isActive, FuncState.new]
    · have hup := h.upvals
      rw [hfs] at hup
      rw [Scope.fsInit, hfs]
      exact ⟨⟨by simp [FuncState.new], by simp [FuncState.new]⟩, by simp [ChildrenRefer, FuncState.new], hup⟩
    · rw [Scope.fsInit, List.map_cons, List.forall_mem_cons]
      exact ⟨by simp [FuncState.blocks, FuncState.new], h.blocks⟩
  exact hinv.fscopeBegin rfl fun _ => rfl

theorem Inv.fsFinish {g : FuncState} {bl : FuncScope} (h : Inv p (0 :: k :: ks)) (hfs : p.fs = f :: g :: rest)
    (hf : f.scopes = [bl]) : Ensures Reported (fsFinish p) fun p' => Inv p' (k :: ks) := by
  have hbl : bl.nactvar = 0 := by
    have hblocks := h.blocks
    rw [hfs, List.map_cons, List.forall_mem_cons, FuncState.blocks, hf] at hblocks
    exact hblocks.1 _ rfl
  rw [Scope.fsFinish]
  refine (h.fscopeEnd hfs hf).bind fun r hspec => ?_
  obtain ⟨hr, hrfs, -⟩ := hspec
  dsimp only
  rw [hrfs]
  obtain ⟨hdecl, hrest⟩ := hr.declared hrfs
  have hbase : f.vbase ≤ r.2.vstack.length := hdecl.base
  have hact (i : ℕ) : active ({ g with children := f.uvs :: g.children } :: rest) i = active r.2.fs i := by
    rw [hrfs, active_cons, active_cons, active_cons, hbl, Nat.zero_min]
    rfl
  have hlt (i : ℕ) (hi : active r.2.fs i = true) : i < f.vbase := hrest.active_lt (by rw [← hact] at hi; exact hi)
  refine ⟨?_, hr.chains.take hbase hlt hact, ?_, ?_, fun v hv => hr.slots v (List.mem_of_mem_take hv), ?_⟩
  · rw [List.length_take, Nat.min_eq_left hbase]
    refine Layout.congr (hrest.update fun i hi => ?_) (.cons ⟨rfl, rfl, rfl⟩ (List.forall₂_same.mpr fun f _ => .refl f))
    rw [List.getElem?_take_of_lt hi]
    exact ⟨rfl, fun _ => rfl⟩
  · rw [List.length_take, Nat.min_eq_left hbase]
    exact Upvals.finish (f := { f with scopes := [], nactvar := min bl.nactvar f.nactvar }) (hrfs ▸ hr.upvals)
  · have hblocks := hr.blocks
    rw [hrfs, List.map_cons, List.forall_mem_cons] at hblocks
    exact hblocks.2
  · rw [List.length_take, Nat.min_eq_left hbase]
    exact hbase.trans hr.bound

theorem Inv.localFunction {vinfo : ℕ} (h : Inv p (0 :: ks))
    (hv : (⟨.none, 0, 0, 0, vinfo, none⟩ : VarInfo).isGola = false) :
    Ensures Reported (localFunction vinfo name p) fun p' => Inv p' (0 :: ks) := by
  obtain ⟨f, rest, hfs⟩ := h.exists_head
  rw [Scope.localFunction]
  refine (varNew_spec hfs h.chained).bind fun r ⟨hcount, hlt, hr⟩ => ?_
  rw [hr]
  dsimp only
  rw [modify_concat]
  have hdecl : Inv { p with
      vstack := p.vstack ++ [{ VarInfo.new name with info := vinfo }]
      fs := f.mapVar 0 p.vstack.length :: rest } ((1 + 0) :: ks) := h.declare hfs hv (by simp [VarInfo.new]) hlt hcount
  exact hdecl.varAdd

end Invariant
end LuajitRs.Scope
