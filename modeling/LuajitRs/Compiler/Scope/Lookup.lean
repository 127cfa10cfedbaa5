import LuajitRs.Compiler.Scope.Invariant
import Mathlib.Data.Nat.Bitwise

/-! Names mean what they mean lexically. In every state that the parser reaches, a name is resolved to the last of the
active variables that bear it: to its register in the function that declares it, and elsewhere to an upvalue that leads
there. -/
namespace LuajitRs.Scope
open Lib Lib.Backlink

section Lookup
variable {p p' : Parser} {f : FuncState} {rest : List FuncState} {ks : List ℕ} {k i vidx slot sid : ℕ}

/-- An active variable with a name. -/
def visible (p : Parser) (sid i : ℕ) : Bool := active p.fs i && p.vstack[i]?.any (·.name = .str sid)

/-- The last declaration of a name that is not active yet, of an enclosing function and not before the last `local` of
the main function. -/
def pendingVar (p : Parser) (sid : ℕ) : Option ℕ :=
  match p.fs with
  | [] => none
  | f :: rest => rest.getLast?.bind fun main =>
    latest (fun i => main.pendStart ≤ i &&
      (p.vstack[i]?.any (fun v => v.startpc = 0 && v.name = .str sid) && i < f.vbase)) p.vstack.length

/-- The variable that a name stands for. -/
def binding (p : Parser) (sid : ℕ) : Option ℕ := (latest (visible p sid) p.vstack.length).or (pendingVar p sid)

/-- What a lookup may give, and the state after it. -/
inductive Denotes (p : Parser) (sid : ℕ) : Target × Parser → Prop
  | global (h : binding p sid = none) : Denotes p sid (.global sid, p)
  | local {f : FuncState} {rest : List FuncState} {v slot : ℕ} (h : binding p sid = some v) (hfs : p.fs = f :: rest)
      (hslot : slot < f.nactvar) (hv : f.varmap slot = v) : Denotes p sid (.local slot v, p)
  | upval {v k l : ℕ} {fs : List FuncState} (h : binding p sid = some v) (hfs : SameFuncs p.fs fs)
      (hfollow : follow fs k = some (l + 1, v)) (hdecl : DeclaredAt p.fs l v)
      (hact : visible p sid v = true → ∃ g, p.fs[l + 1]? = some g ∧ g.isActive v = true) :
      Denotes p sid (.upval k v, { p with fs := fs })

theorem pendingFrom_eq (vs : List VarInfo) (vbase pendFrom sid n : ℕ) :
    pendingFrom vs vbase pendFrom sid n =
      latest (fun i => pendFrom ≤ i && (vs[i]?.any (fun v => v.startpc = 0 && v.name = .str sid) && i < vbase)) n := by
  induction n with
  | zero => rfl
  | succ n ih =>
    rw [pendingFrom, latest, ih]
    by_cases hp : pendFrom ≤ n
    · simp [hp, Nat.lt_succ_of_le hp]
    · have hnone : latest (fun i => pendFrom ≤ i &&
          (vs[i]?.any (fun v => v.startpc = 0 && v.name = .str sid) && i < vbase)) n = none := by
        cases hl : latest (fun i => pendFrom ≤ i &&
            (vs[i]?.any (fun v => v.startpc = 0 && v.name = .str sid) && i < vbase)) n with
        | none => rfl
        | some m =>
          have := latest_some hl
          simp at this
          omega
      simp [hp, show ¬ pendFrom < n + 1 by omega, hnone]

theorem Inv.varResolve (h : Inv p ks) (hfs : p.fs = f :: rest) (hv : vidx < p.vstack.length) :
    Ensures TooManyUpvalues (varResolve vidx slot p) fun r =>
      if f.vbase ≤ vidx then r = (.local slot vidx, p)
      else ∃ k l fs, r = (.upval k vidx, { p with fs := fs }) ∧ Inv { p with fs := fs } ks ∧ SameFuncs p.fs fs ∧
        follow fs k = some (l + 1, vidx) ∧ DeclaredAt p.fs l vidx := by
  rw [Scope.varResolve, cur_eq hfs, ok_bind]
  dsimp only
  split
  · rfl
  · next hbase =>
    split
    · next k hk =>
      obtain ⟨r, hr, rfl⟩ := Option.map_eq_some_iff.mp (findUpval_spec hk)
      obtain ⟨l, hl, hd⟩ := follow_spec h.upvals hfs hr
      exact ⟨k, l, p.fs, rfl, h, .refl _, hl, hd⟩
    · have hup := h.upvals
      rw [hfs] at hup ⊢
      refine (addUpval_spec hup (Nat.not_le.mp hbase) (hv.trans_le h.bound)).bind fun fs ⟨hup', hsame, tmp, hhead⟩ => ?_
      obtain ⟨rest', rfl⟩ := List.head?_eq_some_iff.mp hhead
      obtain ⟨l, hl, hd⟩ := follow_spec (k := f.uvs.length) (r := ⟨vidx, tmp⟩) hup' rfl (by simp [FuncState.pushUv])
      exact ⟨f.uvs.length, l, _, rfl, h.frames (hfs ▸ hsame) hup', hsame, hl, hd.congr hsame.1⟩

theorem Inv.varLookup (h : Inv p (k :: ks)) (sid : ℕ) :
    Ensures TooManyUpvalues (varLookup sid p) fun r => Denotes p sid r ∧ Inv r.2 (k :: ks) := by
  obtain ⟨f, rest, hfs⟩ := h.exists_head
  have hvis : latest (fun i => (active p.fs i && hashAt p.vstack i = some (sid % 32)) &&
      p.vstack[i]?.any (·.name = .str sid)) p.vstack.length = latest (visible p sid) p.vstack.length := by
    refine latest_congr fun i hi => ?_
    rw [visible, hashAt, List.getElem?_eq_getElem hi]
    by_cases hname : p.vstack[i].name = .str sid
    · simp [hname, varHash]
    · simp [hname]
  rw [Scope.varLookup, cur_eq hfs, ok_bind]
  dsimp only
  rw [h.chains.find, ok_bind, hvis]
  split
  · next v hv =>
    obtain ⟨hlt, hvis'⟩ := latest_some hv
    have hbind : binding p sid = some v := by rw [binding, hv, Option.some_or]
    have hactive : active p.fs v = true := (Bool.and_eq_true_iff.mp hvis').1
    refine (h.varResolve hfs hlt).mono fun r hr => ?_
    split at hr
    · next hbase =>
      rw [hr]
      obtain ⟨hdecl, hrest⟩ := h.declared hfs
      rw [hfs] at hactive
      obtain ha | ha := Bool.or_eq_true_iff.mp hactive
      · obtain ⟨j, hj, rfl⟩ := FuncState.isActive_iff.mp ha
        rw [hdecl.slot j hj, Option.getD_some]
        exact ⟨.local hbind hfs hj rfl, h⟩
      · have := hrest.active_lt ha
        omega
    · obtain ⟨j, l, fs, rfl, hinv, hsame, hfollow, hd⟩ := hr
      exact ⟨.upval hbind hsame hfollow hd fun _ => h.layout.isActive hactive hd, hinv⟩
  · next hnone =>
    have hpend : lookupPending sid f rest p = binding p sid := by
      rw [lookupPending, binding, hnone, Option.none_or, pendingVar, hfs]
      dsimp only
      cases rest.getLast? with
      | none => rfl
      | some main => exact pendingFrom_eq ..
    rw [hpend]
    split
    · next v hv =>
      have hp := hv
      rw [binding, hnone, Option.none_or, pendingVar, hfs] at hp
      obtain ⟨main, -, hp⟩ := Option.bind_eq_some_iff.mp hp
      obtain ⟨hlt, hp⟩ := latest_some hp
      have hbase : v < f.vbase := by
        simp only [Bool.and_eq_true, decide_eq_true_eq] at hp
        exact hp.2.2
      refine (h.varResolve hfs hlt).mono fun r hr => ?_
      rw [if_neg (by omega)] at hr
      obtain ⟨j, l, fs, rfl, hinv, hsame, hfollow, hd⟩ := hr
      refine ⟨.upval hv hsame hfollow hd fun hvis' => ?_, hinv⟩
      rw [latest_none hnone hlt] at hvis'
      cases hvis'
    · next hv => exact ⟨.global hv, h⟩

end Lookup

/-! ### Runs -/

/-- What the parser does to its variables. `ks` counts those of each function that are declared but not active yet. -/
inductive Step : Parser → List ℕ → Parser → List ℕ → Prop
  | emit {p f rest ks} (pc linedefined : ℕ) (hfs : p.fs = f :: rest) :
      Step p ks { p with fs := { f with pc := pc, linedefined := linedefined } :: rest } ks
  | varNew {p p' k ks name i} (h : varNew k name p = .ok (i, p')) : Step p (k :: ks) p' ((k + 1) :: ks)
  | parseLocal {p p' ks names} (h : parseLocal names p = .ok p') : Step p (0 :: ks) p' (names.length :: ks)
  | parseConst {p p' ks names} (h : parseConst (2 ^ VSTACK_CONST) names p = .ok p') :
      Step p (0 :: ks) p' (names.length :: ks)
  | localFunction {p p' ks name vinfo} (hinfo : vinfo = 0 ∨ vinfo = 2 ^ VSTACK_CONST)
      (h : localFunction vinfo name p = .ok p') : Step p (0 :: ks) p' (0 :: ks)
  | varAdd {p p' n k ks} (h : varAdd n p = .ok p') : Step p ((n + k) :: ks) p' (k :: ks)
  /-- The body of a `local function` is parsed. -/
  | started {p ks} (i pc : ℕ) : Step p ks { p with vstack := p.vstack.modify i fun v => { v with startpc := pc } } ks
  | assigned {p ks} (i : ℕ) :
      Step p ks { p with vstack := p.vstack.modify i fun v => { v with info := v.info ||| 2 ^ VSTACK_VAR_RW } } ks
  | golaNew {p p' k ks name info pc i} (h : golaNew name info pc p = .ok (i, p')) : Step p (k :: ks) p' (k :: ks)
  /-- A goto or label is resolved, or handed to the enclosing block. -/
  | golaEdit {p ks i v} (name : VName) (slot : ℕ) (hv : p.vstack[i]? = some v) (hgola : v.isGola = true)
      (hslot : slot < 256) :
      Step p ks { p with vstack := p.vstack.modify i fun v => { v with name := name, slot := slot } } ks
  | fscopeBegin {p p' f rest ks} (hfs : p.fs = f :: rest) (hf : f.scopes ≠ []) (h : fscopeBegin p = .ok p') :
      Step p ks p' ks
  | fscopeEnd {p p' f rest bl bl' scopes ks upval} (hfs : p.fs = f :: rest) (hf : f.scopes = bl :: bl' :: scopes)
      (h : fscopeEnd p = .ok (upval, p')) : Step p (0 :: ks) p' (0 :: ks)
  | fsInit {p p' k ks} (h : fscopeBegin (fsInit p) = .ok p') : Step p (k :: ks) p' (0 :: k :: ks)
  | fsFinish {p p' f g rest bl k ks} (hfs : p.fs = f :: g :: rest) (hf : f.scopes = [bl]) (h : fsFinish p = .ok p') :
      Step p (0 :: k :: ks) p' (k :: ks)
  | varLookup {p p' k ks sid t} (h : varLookup sid p = .ok (t, p')) : Step p (k :: ks) p' (k :: ks)

/-- The states of the parser, from the beginning of the main function on. -/
inductive Reached : Parser → List ℕ → Prop
  | start {p} (h : fscopeBegin (fsInit ⟨[], fun _ => none, []⟩) = .ok p) : Reached p [0]
  | step {p p' ks ks'} (h : Reached p ks) (hs : Step p ks p' ks') : Reached p' ks'

section Run
variable {p p' : Parser} {f : FuncState} {rest : List FuncState} {ks ks' : List ℕ} {k : ℕ}

theorem Inv.start (h : Scope.fscopeBegin (Scope.fsInit ⟨[], fun _ => none, []⟩) = .ok p) : Inv p [0] := by
  obtain rfl := Except.ok.inj h
  refine ⟨.cons ⟨le_rfl, Nat.zero_le _, ?_, ?_, ?_, ?_⟩ .nil, fun b => .empty, ⟨rfl, rfl, ?_⟩, ?_, ?_, Nat.zero_le _⟩
  all_goals simp [Scope.fsInit, FuncState.new, FuncState.blocks, ChildrenRefer]

theorem Step.inv (hs : Step p ks p' ks') (h : Inv p ks) : Inv p' ks' := by
  cases hs with
  | emit pc linedefined hfs =>
    have hblocks := h.blocks
    rw [hfs, List.map_cons, List.forall_mem_cons] at hblocks
    exact h.head hfs ⟨rfl, rfl, rfl⟩ hblocks.1 rfl rfl
  | varNew hop => exact h.varNew.of_ok hop
  | parseLocal hop => exact h.parseLocal.of_ok hop
  | parseConst hop => exact h.parseConst.of_ok hop
  | localFunction hinfo hop =>
    refine (h.localFunction ?_).of_ok hop
    obtain rfl | rfl := hinfo <;> decide
  | varAdd hop => exact h.varAdd.of_ok hop
  | started i pc =>
    exact h.edit fun v hv => ⟨h.slots v (List.mem_of_getElem? hv), rfl, fun _ => ⟨rfl, rfl, rfl⟩⟩
  | assigned i =>
    refine h.edit fun v hv => ⟨h.slots v (List.mem_of_getElem? hv), ?_, fun _ => ⟨rfl, rfl, rfl⟩⟩
    simp [VarInfo.isGola, VSTACK_VAR_RW, VSTACK_GOTO, VSTACK_LABEL, show Nat.testBit 1 1 = false by decide,
      show Nat.testBit 1 2 = false by decide]
  | golaNew hop => exact h.golaNew.of_ok hop
  | golaEdit name slot hv hgola hslot =>
    refine h.edit fun v' hv' => ⟨hslot, rfl, fun ha => ?_⟩
    have := h.layout.active_var ha
    simp [hv, hgola] at this
  | fscopeBegin hfs hf hop => exact (h.fscopeBegin hfs fun hnil => absurd hnil hf).of_ok hop
  | fscopeEnd hfs hf hop => exact ((h.fscopeEnd hfs hf).of_ok hop).1
  | fsInit hop => exact h.fsInit.of_ok hop
  | fsFinish hfs hf hop => exact (h.fsFinish hfs hf).of_ok hop
  | varLookup hop => exact ((h.varLookup _).of_ok hop).2

theorem Reached.inv (h : Reached p ks) : Inv p ks := by
  induction h with
  | start h => exact .start h
  | step _ hs ih => exact hs.inv ih

theorem Reached.exists_cons (h : Reached p ks) : ∃ k ks', ks = k :: ks' := by
  induction h with
  | start h => exact ⟨_, _, rfl⟩
  | step _ hs ih => cases hs <;> first | exact ih | exact ⟨_, _, rfl⟩

/-- A name is resolved to the last active variable that bears it, else to a variable that is about to be declared around
the function, else to the global; a lookup fails at most with too many upvalues. -/
theorem lookup_lexical (h : Reached p ks) (sid : ℕ) :
    Ensures TooManyUpvalues (varLookup sid p) (Denotes p sid) := by
  obtain ⟨k, ks', rfl⟩ := h.exists_cons
  exact (h.inv.varLookup sid).mono fun r hr => hr.1

/-- `local x` and a function in its scope that mentions it. -/
theorem lookup_lexical_nested : ∃ p : Parser,
    Ensures TooManyUpvalues (varLookup 5 p) (Denotes p 5) ∧ (varLookup 5 p).map (·.1) = .ok (.upval 0 0) := by
  have h0 : Reached _ [0] := .start rfl
  have h1 : Reached _ [1] := h0.step (.parseLocal (show parseLocal [.str 5] _ = .ok _ from rfl))
  have h2 : Reached _ [0] := h1.step (.varAdd (n := 1) (k := 0) rfl)
  have h3 : Reached _ [0, 0] := h2.step (.fsInit rfl)
  exact ⟨_, lookup_lexical h3 5, rfl⟩

/-! ### Closures -/

theorem Upvals.length_le {top : ℕ} (h : Upvals top (f :: rest)) : f.uvs.length ≤ LJ_MAX_UPVAL := by
  cases rest with
  | nil => simp [h.1]
  | cons g rest => exact h.1.1

theorem Upvals.children {top : ℕ} (h : Upvals top (f :: rest)) : ChildrenRefer top f := by
  cases rest with
  | nil => exact h.2.2
  | cons g rest => exact h.2.1

theorem uvSource_slot {slot : ℕ} (hs : slot < 256) :
    uvSource (slot ||| PROTO_UV_LOCAL) = .stack slot false ∧
      uvSource (slot ||| PROTO_UV_LOCAL ||| PROTO_UV_IMMUTABLE) = .stack slot true := by
  have hmask : slot &&& 0xff = slot := by rw [Nat.and_two_pow_sub_one_eq_mod slot 8, Nat.mod_eq_of_lt hs]
  have hbit {j : ℕ} (hj : 8 ≤ j) : slot &&& 2 ^ j = 0 := by
    rw [Nat.and_two_pow, Nat.testBit_lt_two_pow (hs.trans_le (Nat.pow_le_pow_right Nat.two_pos hj))]
    simp
  have hlocal : slot &&& 0x8000 = 0 := hbit (show 8 ≤ 15 by decide)
  have himm : slot &&& 0x4000 = 0 := hbit (show 8 ≤ 14 by decide)
  simp [uvSource, PROTO_UV_LOCAL, PROTO_UV_IMMUTABLE, Nat.and_or_distrib_right, hmask, hlocal, himm]

/-- The creation of a closure finds the variables of its upvalues. The upvalues of the function that is being compiled
lead to their variables, and the references of the functions in it are those of their variables: the register that
holds the variable as long as it is active, immutable unless it was assigned to, or the upvalue for it. -/
theorem closure_upvalues (h : Reached p ks) (hfs : p.fs = f :: rest) :
    (∀ k r, f.uvs[k]? = some r → ∃ l, follow p.fs k = some (l + 1, r.vidx) ∧ DeclaredAt p.fs l r.vidx) ∧
      ∀ c ∈ f.children, ∀ r ∈ c,
        match uvSource (protoUv p.vstack r) with
        | .stack slot immutable => f.vbase ≤ r.vidx ∧ (f.isActive r.vidx = true → f.varmap slot = r.vidx) ∧
            p.vstack[r.vidx]?.map (fun v => (v.slot, !v.info.testBit VSTACK_VAR_RW)) = some (slot, immutable)
        | .inherited j => r.vidx < f.vbase ∧ f.uvs[j]?.map (·.vidx) = some r.vidx := by
  have hinv := h.inv
  refine ⟨fun k r hr => follow_spec hinv.upvals hfs hr, fun c hc r hr => ?_⟩
  have hup := hinv.upvals
  rw [hfs] at hup
  obtain ⟨hlt, hbound, ⟨hbase, htmp⟩ | ⟨hbase, j, htmp, hj⟩⟩ := hup.children c hc r hr
  · have hget : p.vstack[r.vidx]? = some p.vstack[r.vidx] := List.getElem?_eq_getElem hlt
    have hslot := uvSource_slot (hinv.slots _ (List.getElem_mem hlt))
    have hreg (ha : f.isActive r.vidx = true) : f.varmap p.vstack[r.vidx].slot = r.vidx := by
      obtain ⟨k, ks', rfl⟩ := h.exists_cons
      obtain ⟨hdecl, -⟩ := hinv.declared hfs
      obtain ⟨i, hi, hv⟩ := FuncState.isActive_iff.mp ha
      have := hdecl.slot i hi
      rw [hv, hget, Option.map_some] at this
      rw [Option.some.inj this, hv]
    rw [protoUv, htmp, if_neg (by omega), List.getD_eq_getElem?_getD, hget, Option.getD_some]
    by_cases hrw : p.vstack[r.vidx].info.testBit VSTACK_VAR_RW
    · rw [if_pos hrw, hslot.1]
      exact ⟨hbase, hreg, by simp [hrw]⟩
    · rw [if_neg hrw, hslot.2]
      exact ⟨hbase, hreg, by simp [hrw]⟩
  · have hlen : j < f.uvs.length := by
      by_contra hge
      simp [List.getElem?_eq_none (Nat.not_lt.mp hge)] at hj
    have hj256 : j < 256 := (hlen.trans_le hup.length_le).trans_le (by decide)
    have hmask : j &&& 0xff = j := by rw [Nat.and_two_pow_sub_one_eq_mod j 8, Nat.mod_eq_of_lt hj256]
    have hlocal : j &&& PROTO_UV_LOCAL = 0 := by
      rw [show PROTO_UV_LOCAL = 2 ^ 15 from rfl, Nat.and_two_pow, Nat.testBit_lt_two_pow (hj256.trans (by decide))]
      simp
    rw [protoUv, htmp, if_pos (Nat.le_add_right _ _), Nat.add_sub_cancel_left, uvSource, hlocal,
      if_neg (by simp), hmask]
    exact ⟨hbase, hj⟩

/-- The same function, finished: its upvalue is the first register, which is never assigned to. -/
theorem closure_upvalues_nested : ∃ (p : Parser) (f : FuncState), Reached p [0] ∧ p.fs = [f] ∧ f.children = [[⟨0, 0⟩]] ∧
    uvSource (protoUv p.vstack ⟨0, 0⟩) = .stack 0 true ∧ f.varmap 0 = 0 := by
  have h0 : Reached _ [0] := .start rfl
  have h1 : Reached _ [1] := h0.step (.parseLocal (show parseLocal [.str 5] _ = .ok _ from rfl))
  have h2 : Reached _ [0] := h1.step (.varAdd (n := 1) (k := 0) rfl)
  have h3 : Reached _ [0, 0] := h2.step (.fsInit rfl)
  have h4 : Reached _ [0, 0] := h3.step (.varLookup (show varLookup 5 _ = .ok (.upval 0 0, _) from rfl))
  have h5 : Reached _ [0] := h4.step (.fsFinish rfl rfl rfl)
  have h6 := (closure_upvalues h5 rfl).2 [⟨0, 0⟩] (List.mem_singleton_self _) ⟨0, 0⟩ (List.mem_singleton_self _)
  exact ⟨_, _, h5, rfl, rfl, rfl, h6.2.1 rfl⟩

end Run
end LuajitRs.Scope
