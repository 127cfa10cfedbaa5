import LuajitRs.Compiler.Scope

/-! The hash chains of the parser. Whatever names share a chain, each lists the active variables with its hash from the
last one down, and declaring, activating and deactivating keep it so. -/
namespace LuajitRs.Scope
open Lib Lib.Backlink

section Chains
variable {vs vs' : List VarInfo} {vhash : ℕ → Option ℕ} {fs fs' : List FuncState} {f g : FuncState} {i j v b n : ℕ}
  {test : VarInfo → Bool}

/-- The variables of a function, and of all functions that are being compiled, that are active. -/
def FuncState.isActive (f : FuncState) (i : ℕ) : Bool := (List.range f.nactvar).any fun j => f.varmap j = i

def active (fs : List FuncState) (i : ℕ) : Bool := fs.any (·.isActive i)

theorem FuncState.isActive_iff : f.isActive i = true ↔ ∃ j < f.nactvar, f.varmap j = i := by simp [isActive]

@[simp] theorem active_cons (f : FuncState) (fs : List FuncState) (i : ℕ) :
    active (f :: fs) i = (f.isActive i || active fs i) := rfl

def hashAt (vs : List VarInfo) (i : ℕ) : Option ℕ := vs[i]?.bind fun v => varHash v.name

def prevAt (vs : List VarInfo) (i : ℕ) : Option ℕ := vs[i]?.bind (·.prev)

/-- Every hash chain leads through the active variables with that hash, from the last one down. -/
def Chains (vs : List VarInfo) (vhash : ℕ → Option ℕ) (act : ℕ → Bool) : Prop :=
  ∀ b, Threaded id (fun i => act i && hashAt vs i = some b) (prevAt vs) vs.length (vhash b)

/-- A walk along a chain finds the first entry that passes a test. -/
theorem chainFind_walk {head : Option ℕ} {l : List ℕ} {fuel : ℕ}
    (h : Walk (fun o => o.bind fun i => vs[i]?.map (·.prev)) none head (l.map some)) (hf : l.length ≤ fuel) :
    chainFind vs test fuel head = .ok (l.find? fun i => vs[i]?.any test) := by
  induction l generalizing head fuel with
  | nil =>
    cases h
    cases fuel <;> rfl
  | cons i l ih =>
    obtain ⟨fuel, rfl⟩ : ∃ k, fuel = k + 1 := ⟨fuel - 1, by simp at hf; omega⟩
    cases h with
    | cons hr hn h =>
      rw [Option.bind_some] at hn
      cases hv : vs[i]? with
      | none => simp [hv] at hn
      | some v =>
        obtain rfl : v.prev = _ := by simpa [hv] using hn
        rw [chainFind, hv, List.find?_cons]
        cases ht : test v with
        | true => simp [hv, ht]
        | false => simp [hv, ht, ih h (by simpa using hf)]

theorem Chains.find {act : ℕ → Bool} (h : Chains vs vhash act) (test : VarInfo → Bool) (b : ℕ) :
    chainFind vs test (vs.length + 1) (vhash b) =
      .ok (latest (fun i => (act i && hashAt vs i = some b) && vs[i]?.any test) vs.length) := by
  have hwalk : Walk (fun o => o.bind fun i => vs[i]?.map (·.prev)) none (vhash b)
      ((places (fun i => act i && hashAt vs i = some b) vs.length).map some) :=
    (h b).walk rfl (fun i _ => nofun) fun i hi _ => by simp [prevAt, List.getElem?_eq_getElem hi]
  rw [chainFind_walk hwalk ((length_places_le _ _).trans (Nat.le_succ _)), find?_places]

/-- The chains only depend on the names and links of the active entries. -/
theorem Chains.congr {act act' : ℕ → Bool} (h : Chains vs vhash act) (hlen : vs'.length = vs.length)
    (hact : ∀ i, i < vs.length → act' i = act i)
    (hvs : ∀ i, act i = true → hashAt vs' i = hashAt vs i ∧ prevAt vs' i = prevAt vs i) : Chains vs' vhash act' := by
  intro b
  rw [hlen]
  refine (h b).congr (fun i hi => ?_) fun i hi hp => (hvs i (Bool.and_eq_true_iff.mp hp).1).2
  rw [hact i hi]
  cases ha : act i with
  | true => rw [(hvs i ha).1]
  | false => rfl

/-- New entries are not active. -/
theorem Chains.append {act act' : ℕ → Bool} (h : Chains vs vhash act) (e : VarInfo)
    (hact : ∀ i, i < vs.length → act' i = act i) (hnew : act' vs.length = false) :
    Chains (vs ++ [e]) vhash act' := by
  intro b
  rw [List.length_append, List.length_singleton]
  have hget {i : ℕ} (hi : i < vs.length) : (vs ++ [e])[i]? = vs[i]? := List.getElem?_append_left hi
  refine Threaded.pushOther ((h b).congr (fun i hi => ?_) fun i hi _ => ?_) (by rw [hnew]; rfl)
  · rw [hact i hi, hashAt, hashAt, hget hi]
  · rw [prevAt, prevAt, hget hi]

theorem latest_take {p : ℕ → Bool} {m : ℕ} (hm : m ≤ n) (h : ∀ i, p i = true → i < m) : latest p n = latest p m := by
  induction n with
  | zero => rw [Nat.le_zero.mp hm]
  | succ n ih =>
    obtain rfl | hlt := hm.eq_or_lt
    · rfl
    · have hn : p n = false := by
        by_contra hn
        have := h n (by simpa using hn)
        omega
      rw [latest_succ_of_not hn, ih (by omega)]

/-- Entries behind the last active one may be dropped. -/
theorem Chains.take {act act' : ℕ → Bool} {m : ℕ} (h : Chains vs vhash act) (hm : m ≤ vs.length)
    (hact : ∀ i, act i = true → i < m) (hact' : ∀ i, act' i = act i) : Chains (vs.take m) vhash act' := by
  intro b
  rw [List.length_take, Nat.min_eq_left hm]
  have hget {i : ℕ} (hi : i < m) : (vs.take m)[i]? = vs[i]? := List.getElem?_take_of_lt hi
  have hbelow := (h b).below hm
  rw [← latest_take hm fun i hi => hact i (Bool.and_eq_true_iff.mp hi).1, ← (h b).head_eq] at hbelow
  refine hbelow.congr (fun i hi => ?_) fun i hi _ => ?_
  · rw [hact' i, hashAt, hashAt, hget hi]
  · rw [prevAt, prevAt, hget hi]

theorem hashAt_set {e e' : VarInfo} (hv : vs[v]? = some e) (hname : e'.name = e.name) (i : ℕ) :
    hashAt (vs.set v e') i = hashAt vs i := by
  obtain rfl | hi := eq_or_ne i v
  · simp [hashAt, List.getElem?_set_self (List.getElem?_eq_some_iff.mp hv).1, hv, hname]
  · rw [hashAt, hashAt, List.getElem?_set_ne hi.symm]

/-- A change of an entry leaves the chains with other hashes. -/
theorem Chains.other {act act' : ℕ → Bool} {e e' : VarInfo} (h : Chains vs vhash act) (hv : vs[v]? = some e)
    (hname : e'.name = e.name) (hact : ∀ i, i ≠ v → act' i = act i) (hb : varHash e.name ≠ some b) :
    Threaded id (fun i => act' i && hashAt (vs.set v e') i = some b) (prevAt (vs.set v e')) (vs.set v e').length
      (vhash b) := by
  have hself : hashAt vs v ≠ some b := by simpa [hashAt, hv] using hb
  rw [List.length_set]
  refine (h b).congr (fun i _ => ?_) fun i _ hi => ?_
  · rw [hashAt_set hv hname]
    obtain rfl | hne := eq_or_ne i v
    · simp [hself]
    · rw [hact i hne]
  · have hne : i ≠ v := by
      rintro rfl
      simp [hself] at hi
    rw [prevAt, prevAt, List.getElem?_set_ne hne.symm]

/-- A variable behind all active ones is activated. -/
theorem Chains.activate {act act' : ℕ → Bool} {e : VarInfo} (h : Chains vs vhash act) (e' : VarInfo)
    (hv : vs[v]? = some e) (hlast : ∀ i, act i = true → i < v) (hact : ∀ i, act' i = (act i || i == v))
    (hname : e'.name = e.name) :
    (∀ b, varHash e.name = some b → e'.prev = vhash b → Chains (vs.set v e') (Function.update vhash b (some v)) act') ∧
      (varHash e.name = none → Chains (vs.set v e') vhash act') := by
  have hlt : v < vs.length := (List.getElem?_eq_some_iff.mp hv).1
  have hinact (i : ℕ) (hi : v ≤ i) : act i = false := by
    by_contra ha
    have := hlast i (by simpa using ha)
    omega
  have hsame (i : ℕ) (hi : i ≠ v) : act' i = act i := by simp [hact, hi]
  refine ⟨fun b hb he b' => ?_, fun hb b => h.other hv hname hsame (by simp [hb])⟩
  obtain rfl | hne := eq_or_ne b' b
  · rw [Function.update_self, List.length_set]
    refine (h b').activate hlt (fun i hi _ => by simp [hinact i hi]) (fun i _ => ?_) (fun i _ hi => ?_) ?_
    · rw [hact, hashAt_set hv hname]
      obtain rfl | hi := eq_or_ne i v
      · simp [hashAt, hv, hb]
      · rw [beq_false_of_ne hi, Bool.or_false, Bool.or_false]
    · have hne : i ≠ v := by
        rintro rfl
        simp [hinact i le_rfl] at hi
      rw [prevAt, prevAt, List.getElem?_set_ne hne.symm]
    · simp [prevAt, List.getElem?_set_self hlt, he]
  · rw [Function.update_of_ne hne]
    exact h.other hv hname hsame (by simp [hb, hne.symm])

/-- The last active variable is deactivated. -/
theorem Chains.deactivate {act act' : ℕ → Bool} {e : VarInfo} (h : Chains vs vhash act) (e' : VarInfo)
    (hv : vs[v]? = some e)
    (hlast : ∀ i, act i = true → i ≤ v) (hactive : act v = true) (hact : ∀ i, act' i = (act i && i != v))
    (hname : e'.name = e.name) (hlink : e'.prev = e.prev) :
    (∀ b, varHash e.name = some b → Chains (vs.set v e') (Function.update vhash b e.prev) act') ∧
      (varHash e.name = none → Chains (vs.set v e') vhash act') := by
  have hlt : v < vs.length := (List.getElem?_eq_some_iff.mp hv).1
  have hsame (i : ℕ) (hi : i ≠ v) : act' i = act i := by simp [hact, hi]
  refine ⟨fun b hb b' => ?_, fun hb b => h.other hv hname hsame (by simp [hb])⟩
  obtain rfl | hne := eq_or_ne b' b
  · have hprev : prevAt vs v = e.prev := by simp [prevAt, hv]
    rw [Function.update_self, List.length_set, ← hprev]
    refine (h b').deactivate (latest_eq_some hlt ?_ fun i h0 _ => ?_) (fun i _ => ?_) fun i _ _ => ?_
    · simp [hactive, hashAt, hv, hb]
    · have : act i = false := by
        by_contra ha
        have := hlast i (by simpa using ha)
        omega
      simp [this]
    · rw [hact, hashAt_set hv hname]
      cases act i <;> cases i != v <;> simp
    · obtain rfl | hi := eq_or_ne i v
      · simp [prevAt, List.getElem?_set_self hlt, hv, hlink]
      · rw [prevAt, prevAt, List.getElem?_set_ne hi.symm]
  · rw [Function.update_of_ne hne]
    exact h.other hv hname hsame (by simp [hb, hne.symm])

end Chains
end LuajitRs.Scope
