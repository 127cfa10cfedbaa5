import LuajitRs.Runtime.Interner.Invariant

/-! Sweeping keeps the representation invariant. A freed string leaves a tombstone and a hole in
`byId`; the strings that were marked, that have a live colour, or that are empty survive. -/
namespace LuajitRs
open Lib.Probe

namespace Interner
variable {it : Interner} {pool pool' : Pool LuaString} {cw : UInt8}

/-! ### Pinning the empty string -/

/-- What pinning changes: the headers of the empty strings in the slots, which become alive. -/
structure Pinned (cw : UInt8) (todo : List (Slot ℕ)) (pool pool' : Pool LuaString) : Prop where
  wf : pool.Wf → pool'.Wf
  objects : pool'.objects = pool.objects
  get : pool'.get = pool.get
  alive : ∀ a box, pool.heap a = some box → ∃ box', pool'.heap a = some box' ∧
    (box'.header.alive cw ↔ (.occupied a ∈ todo ∧ box.data.bytes = []) ∨ box.header.alive cw)

theorem Pinned.refl {c : Slot ℕ} (h : ∀ a, c ≠ .occupied a) : Pinned cw [c] pool pool :=
  ⟨id, rfl, rfl, fun a box hbox => ⟨box, hbox, by simp [(h a).symm]⟩⟩

theorem Pinned.trans {c : Slot ℕ} {todo : List (Slot ℕ)} {pool₁ : Pool LuaString}
    (h : Pinned cw [c] pool pool₁) (k : Pinned cw todo pool₁ pool') :
    Pinned cw (c :: todo) pool pool' := by
  refine ⟨fun W => k.wf (h.wf W), k.objects.trans h.objects, k.get.trans h.get, ?_⟩
  intro a box hbox
  obtain ⟨box₁, hbox₁, halive₁⟩ := h.alive a box hbox
  obtain ⟨box', hbox', halive'⟩ := k.alive a box₁ hbox₁
  have hdata : box₁.data = box.data := by
    have := congrFun h.get a
    simpa [Pool.get, hbox, hbox₁] using this
  refine ⟨box', hbox', ?_⟩
  rw [halive', halive₁, hdata]
  simp only [List.mem_cons, List.not_mem_nil, or_false]
  tauto

theorem pinned_occupied {p : ℕ} {s : LuaString} (hs : pool.get p = some s) : Pinned cw [.occupied p] pool
    (if s.bytes = [] then pool.modifyHeader p GcHeader.setMarked else pool) := by
  have hdata : ∀ box, pool.heap p = some box → box.data = s := by
    intro box hbox
    simpa [Pool.get, hbox] using hs
  split_ifs with hempty
  · refine ⟨fun W => W.modifyHeader _ _, rfl, Pool.get_modifyHeader _ _ _, ?_⟩
    intro a box hbox
    by_cases hap : a = p
    · subst hap
      refine ⟨{ box with header := box.header.setMarked }, by simp [Pool.modifyHeader, hbox], ?_⟩
      simp [GcHeader.alive_setMarked, hdata box hbox, hempty]
    · exact ⟨box, by rw [Pool.heap_modifyHeader_of_ne hap, hbox], by simp [hap]⟩
  · refine ⟨id, rfl, rfl, ?_⟩
    intro a box hbox
    refine ⟨box, hbox, ?_⟩
    constructor
    · exact .inr
    · rintro (⟨ha, hb⟩ | h)
      · obtain rfl : a = p := by simpa using ha
        exact absurd (hdata box hbox ▸ hb) hempty
      · exact h

theorem pinEmpty_spec (cw : UInt8) {todo : List (Slot ℕ)}
    (h : ∀ a, .occupied a ∈ todo → ∃ s, pool.get a = some s) :
    ∃ pool', pinEmpty todo pool = .ok pool' ∧ Pinned cw todo pool pool' := by
  induction todo generalizing pool with
  | nil => exact ⟨pool, rfl, id, rfl, rfl, fun a box hbox => ⟨box, hbox, by simp⟩⟩
  | cons c todo ih =>
    have htodo : ∀ a, .occupied a ∈ todo → ∃ s, pool.get a = some s :=
      fun a ha => h a (List.mem_cons_of_mem c ha)
    cases c with
    | empty =>
      obtain ⟨pool', hrun, hpin⟩ := ih htodo
      exact ⟨pool', hrun, (Pinned.refl (by simp)).trans hpin⟩
    | tombstone =>
      obtain ⟨pool', hrun, hpin⟩ := ih htodo
      exact ⟨pool', hrun, (Pinned.refl (by simp)).trans hpin⟩
    | occupied p =>
      obtain ⟨s, hs⟩ := h p (by simp)
      have hstep : Pinned cw [.occupied p] pool _ := pinned_occupied hs
      obtain ⟨pool', hrun, hpin⟩ := ih (by rw [hstep.get]; exact htodo)
      exact ⟨pool', by simpa [pinEmpty, hs] using hrun, hstep.trans hpin⟩

/-! ### Forgetting a freed string -/

/-- The tables after the string in slot `i` was freed. -/
def forget (it : Interner) (i : ℕ) (sid : UInt32) : Interner :=
  { it with
    slots := it.slots.set i .tombstone, nuse := it.nuse - 1, ndead := it.ndead + 1,
    byId := it.byId.set sid.toNat none }

section Forget
variable {a i : ℕ} {s : LuaString} {swept rest : List ℕ}

/-- The callback finds the slot of a live string and clears it. -/
theorem onFree_spec (W : ({ it with pool := pool } : Interner).Wf) (ha : a ∈ pool.objects)
    (hs : pool.get a = some s) :
    ∃ i, it.slots[i]? = some (.occupied a) ∧ onFree pool.heap s it = .ok (it.forget i s.sid) := by
  obtain ⟨i, hi, hfirst⟩ := W.firstStop ha hs
  obtain ⟨k, _, hk⟩ := W.sized
  have hadv := advance_firstStop hk hfirst
  have hlt := W.sid_lt a s ha hs
  simp only at hi hadv hlt
  refine ⟨i, hi, ?_⟩
  simp only [onFree, hadv, hi, bind, Except.bind, pure, Except.pure]
  rw [if_pos hlt]
  rfl

theorem Wf.forget (W : ({ it with pool := pool } : Interner).Wf) (ho : pool.objects = swept ++ a :: rest)
    (hi : it.slots[i]? = some (.occupied a)) :
    ({ it.forget i s.sid with pool := pool.release LuaString.size swept.length a } : Interner).Wf := by
  obtain ⟨k, h9, hk⟩ := W.sized
  have hmem : ∀ b, b ∈ (pool.release LuaString.size swept.length a).objects ↔ b ∈ pool.objects ∧ b ≠ a :=
    fun b => Pool.mem_objects_release W.pool ho _
  have hget : ∀ b, b ≠ a → (pool.release LuaString.size swept.length a).get b = pool.get b :=
    fun b hb => Pool.get_release_of_ne hb
  have herase : ∀ b, .occupied b ∈ it.slots.set i .tombstone ↔ .occupied b ∈ it.slots ∧ b ≠ a :=
    fun b => W.placed.occupied_mem_erase hi
  have hnuse : it.nuse = used it.slots := W.nuse
  have hndead : it.ndead = dead it.slots := W.ndead
  have hpos := used_pos hi
  constructor
  · exact W.pool.release ho _
  · exact ⟨k, h9, by simpa [Interner.forget] using hk⟩
  · apply Placed.congr (Placed.erase W.placed)
    intro b hb
    simp only [home, hget b ((herase b).mp hb).2]
  · intro b
    have hl : .occupied b ∈ it.slots ↔ b ∈ pool.objects := W.live b
    rw [hmem, ← hl]
    exact herase b
  · intro b t hb ht
    obtain ⟨hb, hne⟩ := (hmem b).mp hb
    exact W.hashed b t hb (hget b hne ▸ ht)
  · intro b c t u hb hc ht hu
    obtain ⟨hb, hbne⟩ := (hmem b).mp hb
    obtain ⟨hc, hcne⟩ := (hmem c).mp hc
    exact W.distinct b c t u hb hc (hget b hbne ▸ ht) (hget c hcne ▸ hu)
  · simp only [Interner.forget, used_erase hi, hnuse]
  · simp only [Interner.forget, dead_erase hi, hndead]
  · have hload : (it.nuse + it.ndead) * MAX_LOAD_DEN <
        it.slots.length * MAX_LOAD_NUM + MAX_LOAD_DEN := W.load
    have hsum : it.nuse - 1 + (it.ndead + 1) = it.nuse + it.ndead := by omega
    simpa only [Interner.forget, List.length_set, hsum] using hload
  · exact W.freeIds
  · intro b t hb ht
    obtain ⟨hb, hne⟩ := (hmem b).mp hb
    simpa [Interner.forget] using W.sid_lt b t hb (hget b hne ▸ ht)

theorem Ids.forget (D : ({ it with pool := pool } : Interner).Ids) (W : pool.Wf)
    (ho : pool.objects = swept ++ a :: rest) (hs : pool.get a = some s) :
    ({ it.forget i s.sid with pool := pool.release LuaString.size swept.length a } : Interner).Ids := by
  have hmem : ∀ b, b ∈ (pool.release LuaString.size swept.length a).objects ↔ b ∈ pool.objects ∧ b ≠ a :=
    fun b => Pool.mem_objects_release W ho _
  have hget : ∀ b, b ≠ a → (pool.release LuaString.size swept.length a).get b = pool.get b :=
    fun b hb => Pool.get_release_of_ne hb
  have ha : a ∈ pool.objects := by simp [ho]
  have hself : it.byId[s.sid.toNat]? = some (some a) := D.byId a s ha hs
  constructor
  · intro b t hb ht
    obtain ⟨hb, hne⟩ := (hmem b).mp hb
    have hold : it.byId[t.sid.toNat]? = some (some b) := D.byId b t hb (hget b hne ▸ ht)
    have hsid : s.sid.toNat ≠ t.sid.toNat := by
      intro h
      rw [← h, hself] at hold
      exact hne (by simpa using hold.symm)
    simpa only [Interner.forget, List.getElem?_set_ne hsid] using hold
  · intro j b hj
    simp only [Interner.forget, List.getElem?_set] at hj
    split_ifs at hj with hsid hlt
    · simp at hj
    · obtain ⟨hb, t, ht, htj⟩ := D.ofId j b hj
      have hne : b ≠ a := by
        rintro rfl
        obtain rfl : s = t := Option.some.inj (hs.symm.trans ht)
        exact hsid htj
      exact ⟨(hmem b).mpr ⟨hb, hne⟩, t, (hget b hne).trans ht, htj⟩

end Forget

/-! ### The sweep -/

/-- The strings that a sweep keeps. -/
def Survives (it : Interner) (cw : UInt8) (a : ℕ) : Prop :=
  ∃ box, it.pool.heap a = some box ∧ (box.data.bytes = [] ∨ box.header.alive cw)

/-- What a sweep leaves: the surviving strings, unchanged, and the same number of ids. -/
structure Swept (it it' : Interner) (cw : UInt8) : Prop where
  mem : ∀ a, a ∈ it'.pool.objects ↔ a ∈ it.pool.objects ∧ it.Survives cw a
  get : ∀ a ∈ it'.pool.objects, it'.pool.get a = it.pool.get a
  ids : it.Ids → it'.Ids
  length_byId : it'.byId.length = it.byId.length
  emptySid : it'.emptySid = it.emptySid

/-- The state of the sweep loop, against the pool `pool₀` and the interner `it` that it began with. -/
structure Sweeping (it : Interner) (pool₀ : Pool LuaString) (cw : UInt8) (swept rest : List ℕ)
    (pool : Pool LuaString) (acc : Interner) : Prop where
  wf : ({ acc with pool := pool } : Interner).Wf
  objects : pool.objects = swept ++ rest
  unvisited : ∀ a ∈ rest, pool.heap a = pool₀.heap a
  get : ∀ a ∈ pool.objects, pool.get a = pool₀.get a
  sub : ∀ a ∈ pool.objects, a ∈ pool₀.objects
  kept : ∀ a ∈ swept, ∃ box, pool₀.heap a = some box ∧ box.header.alive cw
  freed : ∀ a ∈ pool₀.objects, a ∉ pool.objects →
    ∃ box, pool₀.heap a = some box ∧ ¬ box.header.alive cw
  ids : ({ it with pool := pool₀ } : Interner).Ids → ({ acc with pool := pool } : Interner).Ids
  length_byId : acc.byId.length = it.byId.length
  emptySid : acc.emptySid = it.emptySid

theorem sweeping_rule (it : Interner) (pool₀ : Pool LuaString) (cw : UInt8) :
    Pool.SweepRule LuaString.size cw onFree (Sweeping it pool₀ cw) where
  wf S := ⟨S.wf.pool, S.objects⟩
  keep := by
    intro swept a rest pool acc box S hbox halive
    have hnodup : a ∉ rest := by
      have := S.objects ▸ S.wf.pool.objects_nodup
      exact (List.nodup_cons.mp (List.nodup_append.mp this).2.1).1
    constructor
    · exact S.wf.withPool (S.wf.pool.modifyHeader _ _) rfl (Pool.get_modifyHeader _ _ _)
    · simpa [Pool.modifyHeader] using S.objects
    · intro b hb
      have hne : b ≠ a := fun h => hnodup (h ▸ hb)
      rw [Pool.heap_modifyHeader_of_ne hne, S.unvisited b (List.mem_cons_of_mem a hb)]
    · intro b hb
      rw [Pool.get_modifyHeader]
      exact S.get b hb
    · exact S.sub
    · intro b hb
      rcases List.mem_append.mp hb with hb | hb
      · exact S.kept b hb
      · obtain rfl : b = a := by simpa using hb
        exact ⟨box, by rw [← S.unvisited b (by simp), hbox], halive⟩
    · exact S.freed
    · intro D
      exact (S.ids D).withPool rfl (Pool.get_modifyHeader _ _ _)
    · exact S.length_byId
    · exact S.emptySid
  free := by
    intro swept a rest pool acc box S hbox hdead
    have ha : a ∈ pool.objects := by simp [S.objects]
    have hs : pool.get a = some box.data := by simp [Pool.get, hbox]
    obtain ⟨i, hi, hrun⟩ := onFree_spec S.wf ha hs
    refine ⟨_, hrun, ?_⟩
    intro rest' hperm hobj
    have hmem : ∀ b, b ∈ (pool.release LuaString.size swept.length a).objects ↔
        b ∈ pool.objects ∧ b ≠ a := fun b => Pool.mem_objects_release S.wf.pool S.objects _
    have hnodup : a ∉ rest := by
      have := S.objects ▸ S.wf.pool.objects_nodup
      exact (List.nodup_cons.mp (List.nodup_append.mp this).2.1).1
    constructor
    · exact S.wf.forget S.objects hi
    · exact hobj
    · intro b hb
      have hb' : b ∈ rest := hperm.subset hb
      have hne : b ≠ a := fun h => hnodup (h ▸ hb')
      rw [Pool.heap_release, Function.update_of_ne hne, S.unvisited b (List.mem_cons_of_mem a hb')]
    · intro b hb
      obtain ⟨hb, hne⟩ := (hmem b).mp hb
      rw [Pool.get_release_of_ne hne, S.get b hb]
    · intro b hb
      exact S.sub b ((hmem b).mp hb).1
    · exact S.kept
    · intro b hb hnot
      by_cases hba : b = a
      · subst hba
        exact ⟨box, by rw [← S.unvisited b (by simp), hbox], hdead⟩
      · exact S.freed b hb fun h => hnot ((hmem b).mpr ⟨h, hba⟩)
    · intro D
      exact (S.ids D).forget S.wf.pool S.objects hs
    · simpa [Interner.forget] using S.length_byId
    · exact S.emptySid

theorem Wf.sweep (W : it.Wf) (cw : UInt8) : ∃ it', it.sweep cw = .ok it' ∧ it'.Wf ∧ Swept it it' cw := by
  obtain ⟨pool₀, hpin, P⟩ := pinEmpty_spec cw
    fun a (ha : .occupied a ∈ it.slots) => W.exists_get ((W.live a).mp ha)
  have W₀ : ({ it with pool := pool₀ } : Interner).Wf := W.withPool (P.wf W.pool) P.objects P.get
  have S₀ : Sweeping it pool₀ cw [] pool₀.objects pool₀ it := by
    constructor
    · exact W₀
    · rfl
    · exact fun a _ => rfl
    · exact fun a _ => rfl
    · exact fun a ha => ha
    · simp
    · exact fun a ha hnot => absurd ha hnot
    · exact id
    · rfl
    · rfl
  obtain ⟨pool', acc, kept, hrun, S⟩ := (sweeping_rule it pool₀ cw).sweepTricolor S₀
  have halive : ∀ a ∈ it.pool.objects, it.Survives cw a ↔
      ∃ box, pool₀.heap a = some box ∧ box.header.alive cw := by
    intro a ha
    obtain ⟨box, hbox⟩ := W.pool.exists_box ha
    obtain ⟨box', hbox', hiff⟩ := P.alive a box hbox
    have hslot : .occupied a ∈ it.slots := (W.live a).mpr ha
    simp [Survives, hbox, hbox', hiff, hslot]
  refine ⟨_, by simp [Interner.sweep, hpin, hrun, bind, Except.bind, pure, Except.pure]; rfl, ?_, ?_⟩
  · exact S.wf.withPool
      ⟨S.wf.pool.1, S.wf.pool.2, S.wf.pool.3, S.wf.pool.4, S.wf.pool.5, S.wf.pool.6⟩ rfl rfl
  · have hobj : pool'.objects = kept := by simpa using S.objects
    constructor
    · intro a
      constructor
      · intro ha
        have ha₀ : a ∈ it.pool.objects := P.objects ▸ S.sub a ha
        exact ⟨ha₀, (halive a ha₀).mpr (S.kept a (hobj ▸ ha))⟩
      · rintro ⟨ha, hsurv⟩
        obtain ⟨box, hbox, hal⟩ := (halive a ha).mp hsurv
        by_contra hnot
        obtain ⟨box', hbox', hdead⟩ := S.freed a (P.objects ▸ ha) hnot
        exact hdead (Option.some.inj (hbox.symm.trans hbox') ▸ hal)
    · intro a ha
      exact (S.get a ha).trans (congrFun P.get a)
    · intro D
      have D' := S.ids (D.withPool P.objects P.get)
      exact D'.withPool rfl rfl
    · exact S.length_byId
    · exact S.emptySid

end Interner
end LuajitRs
