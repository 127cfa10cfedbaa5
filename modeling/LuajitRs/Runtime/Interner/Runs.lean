import LuajitRs.Runtime.Interner.Sweep

/-! Runs of the interner: interning, growth and sweeps in any order, with any marking of the
strings in between. The invariant of the id table holds as long as the 32-bit ids last; after
`2^32` strings a new one gets the id of a live one. -/
namespace LuajitRs
open Lib.Probe

/-- Give every object a new header. -/
def Pool.recolour {T : Type} (f : ℕ → GcHeader → GcHeader) (pool : Pool T) : Pool T :=
  { pool with heap := fun a => (pool.heap a).map fun box => { box with header := f a box.header } }

theorem Pool.get_recolour {T : Type} (f : ℕ → GcHeader → GcHeader) (pool : Pool T) :
    (pool.recolour f).get = pool.get := by
  funext a
  simp [recolour, get, Function.comp_def]

theorem Pool.Wf.recolour {T : Type} {pool : Pool T} (W : pool.Wf) (f : ℕ → GcHeader → GcHeader) :
    (pool.recolour f).Wf :=
  { W with mapped := by simpa [Pool.recolour] using W.mapped }

namespace Interner

/-- An operation on the interner. `recolour` stands for the marking that the mutator and the
collector do between the operations. -/
inductive Op
  | intern (s : List UInt8) (fresh : ℕ)
  | grow
  | sweep (currentWhite : UInt8)
  | updateCurrentWhite (cw : UInt8)
  | recolour (f : ℕ → GcHeader → GcHeader)

def step (it : Interner) : Op → Except Fault Interner
  | .intern s fresh => (it.intern s fresh).map Prod.fst
  | .grow => it.grow
  | .sweep cw => it.sweep cw
  | .updateCurrentWhite cw => .ok { it with pool := it.pool.updateCurrentWhite cw }
  | .recolour f => .ok { it with pool := it.pool.recolour f }

/-- The system allocator keeps its promise. -/
def Allocates (it : Interner) : Op → Prop
  | .intern _ fresh => it.pool.Available fresh
  | _ => True

/-- The operation needs no new id, or there is one left. -/
def HasId (it : Interner) : Op → Prop
  | .intern s _ => it.Contains s ∨ it.byId.length < 2^32
  | _ => True

/-- The states of the runs from an interner whose empty string is at `e`, by steps that satisfy
`ok`. -/
inductive Reached (ok : Interner → Op → Prop) (e : ℕ) : Interner → Prop
  | new {it : Interner} : Interner.new e = .ok it → Reached ok e it
  | step {it it' : Interner} (op : Op) : Reached ok e it → it.Allocates op → ok it op →
    it.step op = .ok it' → Reached ok e it'

/-- What the rest of the runtime relies on. -/
structure Sound (it : Interner) (e : ℕ) : Prop where
  /-- Ids of live strings are equal exactly when their bytes are, -/
  ids : ∀ a b s t, a ∈ it.pool.objects → b ∈ it.pool.objects → it.pool.get a = some s →
    it.pool.get b = some t → (s.sid = t.sid ↔ s.bytes = t.bytes)
  /-- and so are their addresses. -/
  pointers : ∀ a b s t, a ∈ it.pool.objects → b ∈ it.pool.objects → it.pool.get a = some s →
    it.pool.get b = some t → (a = b ↔ s.bytes = t.bytes)
  slot : ∀ a s, a ∈ it.pool.objects → it.pool.get a = some s → s.hash = strHash s.bytes ∧
    (∃! i : ℕ, it.slots[i]? = some (.occupied a)) ∧
    ∃ i : ℕ, it.slots[i]? = some (.occupied a) ∧ Reaches it.slots s.hash.toNat i
  occupied : ∀ a, .occupied a ∈ it.slots → a ∈ it.pool.objects
  byId : ∀ a s, a ∈ it.pool.objects → it.pool.get a = some s → it.tryLookup s.sid = some a
  lookup : ∀ id a, it.tryLookup id = some a →
    a ∈ it.pool.objects ∧ ∃ s, it.pool.get a = some s ∧ s.sid = id
  nuse : it.nuse = it.slots.countP Slot.isOccupied
  ndead : it.ndead = it.slots.countP Slot.isTombstone
  empty : .empty ∈ it.slots
  /-- The empty string is the object it was at the start, and has its id. -/
  pinned : e ∈ it.pool.objects ∧ it.pool.get e = some ⟨it.emptySid, strHash [], []⟩

/-- What holds in every run. -/
structure Inv (it : Interner) (e : ℕ) : Prop where
  wf : it.Wf
  mem : e ∈ it.pool.objects
  get : it.pool.get e = some ⟨0, strHash [], []⟩
  emptySid : it.emptySid = 0

variable {it it' : Interner} {e : ℕ}

theorem Inv.sound (I : it.Inv e) (D : it.Ids) : it.Sound e := by
  have W := I.wf
  have hby : ∀ a s, a ∈ it.pool.objects → it.pool.get a = some s → it.tryLookup s.sid = some a := by
    intro a s ha hs
    simp [tryLookup, D.byId a s ha hs]
  constructor
  · intro a b s t ha hb hs ht
    constructor
    · intro hsid
      have hab : a = b := Option.some.inj ((hby a s ha hs).symm.trans (hsid ▸ hby b t hb ht))
      subst hab
      rw [Option.some.inj (hs.symm.trans ht)]
    · intro hbytes
      have hab := W.distinct a b s t ha hb hs ht hbytes
      subst hab
      rw [Option.some.inj (hs.symm.trans ht)]
  · intro a b s t ha hb hs ht
    constructor
    · rintro rfl
      rw [Option.some.inj (hs.symm.trans ht)]
    · exact W.distinct a b s t ha hb hs ht
  · intro a s ha hs
    obtain ⟨i, hi⟩ := List.mem_iff_getElem?.mp ((W.live a).mpr ha)
    refine ⟨W.hashed a s ha hs, ⟨i, hi, fun j hj => W.placed.inj j i a hj hi⟩, i, hi, ?_⟩
    rw [← Wf.home_eq hs]
    exact W.placed.reaches i a hi
  · exact fun a ha => (W.live a).mp ha
  · exact hby
  · intro id a hid
    have hid' : it.byId[id.toNat]? = some (some a) := by
      simpa [tryLookup, Option.join_eq_some_iff] using hid
    obtain ⟨ha, s, hs, hsid⟩ := D.ofId _ a hid'
    exact ⟨ha, s, hs, UInt32.toNat_inj.mp hsid⟩
  · exact W.nuse
  · exact W.ndead
  · exact W.empty_mem
  · exact ⟨I.mem, by rw [I.emptySid]; exact I.get⟩

/-! ### The first state -/

theorem bare_objects : bare.pool.objects = [] := rfl

theorem bare_not_contains (s : List UInt8) : ¬ bare.Contains s := by
  simp [Contains, bare_objects]

theorem bare_wf : bare.Wf := by
  constructor
  · exact Pool.Wf.new
  · exact ⟨9, le_refl _, List.length_replicate⟩
  · exact .replicate_empty 512
  · intro a
    have hnone : .occupied a ∉ bare.slots := fun h => by cases List.eq_of_mem_replicate h
    simp [hnone, bare_objects]
  · simp [bare_objects]
  · simp [bare_objects]
  · exact (used_replicate_empty 512).symm
  · exact (dead_replicate_empty 512).symm
  · rw [show bare.slots.length = 512 from List.length_replicate]
    decide
  · rfl
  · simp [bare_objects]

theorem bare_ids : bare.Ids := ⟨by simp [bare_objects], by simp [show bare.byId = [] from rfl]⟩

/-- The first state: the empty string, with id zero, and nothing else. -/
theorem new_spec (he : Pool.InRange e) :
    ∃ it, Interner.new e = .ok it ∧ it.Inv e ∧ it.Ids ∧ it.pool.objects = [e] ∧ it.byId.length = 1 := by
  have hfree : bare.pool.Available e := fun _ => ⟨he, by simp [bare_objects]⟩
  obtain ⟨it, sid, hrun, W, I⟩ := bare_wf.intern_new (bare_not_contains []) hfree
  have hsid : sid = 0 := I.sid_eq
  have haddr : bare.pool.nextAddr e = e := rfl
  have hobj : it.pool.objects = [e] := by simpa [haddr, bare_objects] using I.objects
  have D : it.Ids := bare_ids.inserted bare_wf hfree I (by decide)
  refine ⟨{ it with emptySid := sid }, by simp [Interner.new, hrun, Except.map], ?_, ?_, hobj, I.length_byId⟩
  · exact ⟨⟨W.1, W.2, W.3, W.4, W.5, W.6, W.7, W.8, W.9, W.10, W.11⟩, by simp [hobj],
      hsid ▸ I.get_self, hsid⟩
  · exact ⟨D.1, D.2⟩

/-! ### Steps -/

/-- What an operation changes: no string at all, one more string, or the strings that a sweep frees. -/
inductive Change (it : Interner) : Op → Interner → Prop
  | same {op : Op} {it' : Interner} : it'.pool.objects = it.pool.objects → it'.pool.get = it.pool.get →
      it'.byId = it.byId → it'.emptySid = it.emptySid → Change it op it'
  | added {s : List UInt8} {fresh : ℕ} {sid : UInt32} {it' : Interner} : it.pool.Available fresh →
      ¬ it.Contains s → Inserted it it' s fresh sid → Change it (.intern s fresh) it'
  | swept {cw : UInt8} {it' : Interner} : Swept it it' cw → Change it (.sweep cw) it'

/-- Every operation returns and keeps the table part of the invariant. -/
theorem Wf.step (W : it.Wf) (op : Op) (ha : it.Allocates op) :
    ∃ it', it.step op = .ok it' ∧ it'.Wf ∧ Change it op it' := by
  cases op with
  | intern s fresh =>
    by_cases hs : it.Contains s
    · obtain ⟨a, hmem, str, hstr, rfl⟩ := hs
      obtain ⟨it', hrun, W', rfl⟩ := W.intern_hit hmem hstr fresh
      refine ⟨_, by simp only [Interner.step, hrun, Except.map], W', ?_⟩
      exact .same rfl (Pool.get_modifyHeader _ _ _) rfl rfl
    · obtain ⟨it', sid, hrun, W', h⟩ := W.intern_new hs ha
      exact ⟨it', by simp [Interner.step, hrun, Except.map], W', .added ha hs h⟩
  | grow =>
    obtain ⟨it', hrun, G⟩ := W.grow
    refine ⟨it', hrun, G.wf, .same ?_ ?_ ?_ ?_⟩ <;> rw [G.eq]
  | sweep cw =>
    obtain ⟨it', hrun, W', h⟩ := W.sweep cw
    exact ⟨it', hrun, W', .swept h⟩
  | updateCurrentWhite cw =>
    have Wp := W.pool
    exact ⟨_, rfl, W.withPool ⟨Wp.1, Wp.2, Wp.3, Wp.4, Wp.5, Wp.6⟩ rfl rfl, .same rfl rfl rfl rfl⟩
  | recolour f =>
    have hget := it.pool.get_recolour f
    exact ⟨_, rfl, W.withPool (W.pool.recolour f) rfl hget, .same rfl hget rfl rfl⟩

/-- The empty string stays where it is. -/
theorem Change.inv {op : Op} (c : Change it op it') (I : it.Inv e) (W' : it'.Wf) : it'.Inv e := by
  cases c with
  | same hobj hget _ hsid => exact ⟨W', hobj ▸ I.mem, hget ▸ I.get, hsid.trans I.emptySid⟩
  | added hf _ h =>
    exact ⟨W', h.mem_objects.mpr (.inl I.mem), by rw [h.get_of_mem I.wf.pool hf I.mem, I.get],
      by rw [h.emptySid, I.emptySid]⟩
  | swept h =>
    obtain ⟨box, hbox⟩ := I.wf.pool.exists_box I.mem
    have hdata : box.data = ⟨0, strHash [], []⟩ := by simpa [Pool.get, hbox] using I.get
    have hmem : e ∈ it'.pool.objects := (h.mem e).mpr ⟨I.mem, box, hbox, .inl (by rw [hdata])⟩
    exact ⟨W', hmem, by rw [h.get e hmem, I.get], by rw [h.emptySid, I.emptySid]⟩

/-- The id table stays right unless the ids are exhausted. -/
theorem Change.ids {op : Op} (c : Change it op it') (W : it.Wf) (D : it.Ids) (hid : it.HasId op) :
    it'.Ids := by
  cases c with
  | same hobj hget hby _ =>
    exact ⟨by simpa only [hobj, hget, hby] using D.byId, by simpa only [hobj, hget, hby] using D.ofId⟩
  | added hf hs h => exact D.inserted W hf h (hid.resolve_left hs)
  | swept h => exact h.ids D

/-- Every operation returns and keeps the invariant, and the ids too unless they are exhausted. -/
theorem Inv.step (I : it.Inv e) (op : Op) (ha : it.Allocates op) :
    ∃ it', it.step op = .ok it' ∧ it'.Inv e ∧ (it.Ids → it.HasId op → it'.Ids) := by
  obtain ⟨it', hrun, W', c⟩ := I.wf.step op ha
  exact ⟨it', hrun, c.inv I W', fun D hid => c.ids I.wf D hid⟩

theorem Reached.inv {ok : Interner → Op → Prop} (he : Pool.InRange e) (h : Reached ok e it) : it.Inv e := by
  induction h with
  | new hnew =>
    obtain ⟨it₀, hrun, I, _⟩ := new_spec he
    exact Except.ok.inj (hrun.symm.trans hnew) ▸ I
  | step op _ ha _ hstep ih =>
    obtain ⟨it₁, hrun, I, _⟩ := ih.step op ha
    exact Except.ok.inj (hrun.symm.trans hstep) ▸ I

theorem Reached.ids (he : Pool.InRange e) (h : Reached HasId e it) : it.Ids := by
  induction h with
  | new hnew =>
    obtain ⟨it₀, hrun, _, D, _⟩ := new_spec he
    exact Except.ok.inj (hrun.symm.trans hnew) ▸ D
  | step op hreach ha hid hstep ih =>
    obtain ⟨it₁, hrun, _, D⟩ := (hreach.inv he).step op ha
    exact Except.ok.inj (hrun.symm.trans hstep) ▸ D ih hid

/-- What `intern` answers: a live string with the given bytes, under the id it returns. -/
def Answers (it : Interner) (s : List UInt8) (fresh : ℕ) : Prop :=
  ∃ it' sid a str, it.intern s fresh = .ok (it', sid) ∧ a ∈ it'.pool.objects ∧
    it'.pool.get a = some str ∧ str.bytes = s ∧ str.sid = sid

theorem Inv.answers (I : it.Inv e) {fresh : ℕ} (s : List UInt8) (hf : it.pool.Available fresh) :
    it.Answers s fresh := by
  by_cases hs : it.Contains s
  · obtain ⟨a, hmem, str, hstr, rfl⟩ := hs
    obtain ⟨it', hrun, _, rfl⟩ := I.wf.intern_hit hmem hstr fresh
    exact ⟨_, _, a, str, hrun, hmem, by simpa using hstr, rfl, rfl⟩
  · obtain ⟨it', sid, hrun, _, h⟩ := I.wf.intern_new hs hf
    exact ⟨it', sid, _, _, hrun, h.mem_objects.mpr (.inr rfl), h.get_self, rfl, rfl⟩

/-- As long as every new string finds an id below `2^32`, every state of every run is sound, no
operation fails or loops, and `intern` answers with the string it was given. -/
theorem reached_sound (he : Pool.InRange e) (h : Reached HasId e it) :
    it.Sound e ∧ (∀ op, it.Allocates op → ∃ it', it.step op = .ok it') ∧
      ∀ s fresh, it.pool.Available fresh → it.Answers s fresh := by
  have I := h.inv he
  refine ⟨I.sound (h.ids he), ?_, fun s fresh hf => I.answers s hf⟩
  intro op ha
  obtain ⟨it', hrun, _⟩ := I.step op ha
  exact ⟨it', hrun⟩

/-- The run that interns one string and sweeps. -/
theorem reached_sound_sweep : ∃ it₀ it₁ it₂, Interner.new 8192 = .ok it₀ ∧
    it₀.step (.intern [97] 12288) = .ok it₁ ∧ it₁.step (.sweep 1) = .ok it₂ ∧ it₂.Sound 8192 := by
  have he : Pool.InRange 8192 := by simp [Pool.InRange, ADDR_MAX]
  obtain ⟨it₀, hnew, _, _, hobj, hlen⟩ := new_spec he
  have R₀ : Reached HasId 8192 it₀ := .new hnew
  have ha₀ : it₀.Allocates (.intern [97] 12288) := by
    simp [Allocates, Pool.Available, hobj, Pool.InRange, ADDR_MAX]
  obtain ⟨it₁, h₁⟩ := (reached_sound he R₀).2.1 _ ha₀
  have R₁ : Reached HasId 8192 it₁ := .step _ R₀ ha₀ (.inr (by omega)) h₁
  obtain ⟨it₂, h₂⟩ := (reached_sound he R₁).2.1 (.sweep 1) trivial
  exact ⟨it₀, it₁, it₂, hnew, h₁, h₂, (reached_sound he (.step (.sweep 1) R₁ trivial trivial h₂)).1⟩

/-! ### Exhausting the ids -/

/-- When only the empty string is live, no other string is. -/
theorem Inv.not_contains (I : it.Inv e) (hobj : it.pool.objects ⊆ [e]) {s : List UInt8} (hs : s ≠ []) :
    ¬ it.Contains s := by
  rintro ⟨a, ha, str, hstr, rfl⟩
  obtain rfl : a = e := by simpa using hobj ha
  obtain rfl : ⟨0, strHash [], []⟩ = str := by simpa [I.get] using hstr
  exact hs rfl

/-- Interning a string and collecting it again leaves one more hole in `byId`, whatever the
allocator does. -/
theorem churn (he : Pool.InRange e) {fresh : ℕ} (hf : Pool.InRange fresh) (hne : fresh ≠ e) (n : ℕ) :
    ∃ it, Reached (fun _ _ => True) e it ∧ it.pool.objects ⊆ [e] ∧ it.byId.length = n + 1 := by
  induction n with
  | zero =>
    obtain ⟨it, hrun, _, _, hobj, hlen⟩ := new_spec he
    exact ⟨it, .new hrun, by simp [hobj], hlen⟩
  | succ n ih =>
    obtain ⟨it, R, hobj, hlen⟩ := ih
    have I := R.inv he
    have havail : it.pool.Available fresh := fun _ => ⟨hf, fun h => hne (by simpa using hobj h)⟩
    have hnone := I.not_contains hobj (List.cons_ne_nil 97 [])
    obtain ⟨it₁, sid, hrun, W₁, h⟩ := I.wf.intern_new hnone havail
    have R₁ : Reached (fun _ _ => True) e it₁ :=
      .step (.intern [97] fresh) R havail trivial (by simp [Interner.step, hrun, Except.map])
    let kill : ℕ → GcHeader → GcHeader := fun _ _ => ⟨false, BIT_WHITE1⟩
    obtain ⟨it₂, h₂, I₂, _⟩ := (R₁.inv he).step (.recolour kill) trivial
    obtain ⟨it₃, h₃, W₃, S⟩ := I₂.wf.sweep 0
    have heq : it₂ = { it₁ with pool := it₁.pool.recolour kill } := (Except.ok.inj h₂).symm
    refine ⟨it₃, .step (.sweep 0) (.step (.recolour kill) R₁ trivial trivial h₂) trivial trivial h₃, ?_, ?_⟩
    · intro a ha
      obtain ⟨hmem, box, hbox, hkeep⟩ := (S.mem a).mp ha
      have hmem₁ : a ∈ it₁.pool.objects := by rw [heq] at hmem; exact hmem
      rcases h.mem_objects.mp hmem₁ with hold | rfl
      · exact hobj hold
      · exfalso
        have hbox₁ : it₁.pool.heap (it.pool.nextAddr fresh) = some ⟨GcHeader.new it.pool.currentWhite,
            ⟨sid, strHash [97], [97]⟩⟩ := by rw [h.pool, Pool.heap_alloc, Function.update_self]
        obtain rfl : ⟨⟨false, BIT_WHITE1⟩, ⟨sid, strHash [97], [97]⟩⟩ = box := by
          simpa [heq, Pool.recolour, hbox₁] using hbox
        simp [GcHeader.alive, GcHeader.isDead, BIT_WHITE1] at hkeep
    · rw [S.length_byId, heq, h.length_byId, hlen]

/-- After `2^32` strings the next one gets id zero, which the live empty string has. -/
theorem ids_exhausted : ¬ ∀ it, Reached (fun _ _ => True) 8192 it → it.Sound 8192 := by
  intro hsound
  have he : Pool.InRange 8192 := by simp [Pool.InRange, ADDR_MAX]
  have hf : Pool.InRange 12288 := by simp [Pool.InRange, ADDR_MAX]
  obtain ⟨it, R, hobj, hlen⟩ := churn he hf (by decide) (2^32 - 1)
  have I := R.inv he
  have havail : it.pool.Available 12288 := fun _ => ⟨hf, fun h => absurd (hobj h) (by decide)⟩
  have hnone := I.not_contains hobj (List.cons_ne_nil 97 [])
  obtain ⟨it', sid, hrun, _, h⟩ := I.wf.intern_new hnone havail
  have R' : Reached (fun _ _ => True) 8192 it' :=
    .step (.intern [97] 12288) R havail trivial (by simp [Interner.step, hrun, Except.map])
  have hsid : sid = 0 := by
    rw [h.sid_eq, hlen]
    rfl
  have hids := (hsound it' R').ids _ _ _ _ (h.mem_objects.mpr (.inl I.mem))
    (h.mem_objects.mpr (.inr rfl)) ((h.get_of_mem I.wf.pool havail I.mem).trans I.get) h.get_self
  simp [hsid] at hids

end Interner
end LuajitRs
