import LuajitRs.Runtime.Table

/-! Setting a key leaves the metatable of a table alone, through every rehash and for every key, also one
that the table should not get, and it keeps or clears the negative metamethod cache. -/
namespace LuajitRs
namespace LuaTable

/-- A table operation that leaves the metatable alone whenever it returns. -/
def KeepsMeta (t : LuaTable) (r : Except Fault LuaTable) : Prop :=
  ∀ t', r = .ok t' → t'.metatable = t.metatable

/-- The metatable is the same, and so is the cache unless it is cleared. -/
structure SameHeader (t t' : LuaTable) : Prop where
  metatable : t'.metatable = t.metatable
  nomm : t'.nomm = t.nomm ∨ t'.nomm = 0

theorem SameHeader.refl (t : LuaTable) : t.SameHeader t := ⟨rfl, .inl rfl⟩

theorem SameHeader.cleared (t : LuaTable) : t.SameHeader { t with nomm := 0 } := ⟨rfl, .inr rfl⟩

theorem SameHeader.trans {t t' t'' : LuaTable} (h : t.SameHeader t') (h' : t'.SameHeader t'') : t.SameHeader t'' := by
  refine ⟨h'.metatable.trans h.metatable, ?_⟩
  obtain h' | h' := h'.nomm
  · rw [h']
    exact h.nomm
  · exact .inr h'

theorem SameHeader.nomm_zero {t t' : LuaTable} (h : t.SameHeader t') (h0 : t.nomm = 0) : t'.nomm = 0 := by
  obtain h | h := h.nomm
  · exact h.trans h0
  · exact h

/-- A table operation that leaves the header alone whenever it returns. -/
def Frames (t : LuaTable) (r : Except Fault LuaTable) : Prop := ∀ t', r = .ok t' → t.SameHeader t'

theorem Frames.keepsMeta {t : LuaTable} {r : Except Fault LuaTable} (h : t.Frames r) : t.KeepsMeta r :=
  fun t' h' => (h t' h').metatable

section Meta
variable {h : LuaValue → UInt32} {setf : Setter} {t : LuaTable}

theorem bind_ok {α β : Type} {x : Except Fault α} {f : α → Except Fault β} {b : β} (hx : x >>= f = .ok b) :
    ∃ a, x = .ok a ∧ f a = .ok b := by
  cases x with
  | error e => cases hx
  | ok a => exact ⟨a, rfl, hx⟩

/-- What a turn of `set` does. -/
theorem setTurn_inv {k v : LuaValue} {t' : LuaTable} (hs : t.setTurn h setf k v = .ok t') :
    (∃ i, t.setArray i v = .ok t') ∨ (∃ n, t.findKey h k = .ok (some n) ∧ t.setVal n v = .ok t') ∨
      (∃ t₁ slot, t.tryNewKey h setf k = .ok (t₁, some slot) ∧ t₁.setVal slot v = .ok t') ∨
      ∃ t₁, t.tryNewKey h setf k = .ok (t₁, none) ∧ setf t₁ k v = .ok t' := by
  rw [setTurn] at hs
  split at hs
  · exact .inl ⟨_, hs⟩
  split at hs
  · obtain ⟨_ | n, hfound, hs⟩ := bind_ok hs
    · obtain ⟨⟨t₁, _ | slot⟩, hnew, hs⟩ := bind_ok hs
      · exact .inr (.inr (.inr ⟨t₁, hnew, hs⟩))
      · exact .inr (.inr (.inl ⟨t₁, slot, hnew, hs⟩))
    · exact .inr (.inl ⟨n, hfound, hs⟩)
  · obtain ⟨_ | n, hfound, hs⟩ := bind_ok hs
    · obtain ⟨⟨t₁, _ | slot⟩, hnew, hs⟩ := bind_ok hs
      · exact .inr (.inr (.inr ⟨t₁, hnew, hs⟩))
      · exact .inr (.inr (.inl ⟨t₁, slot, hnew, hs⟩))
    · cases hfound

theorem frames_modifyNode (i : ℕ) (f : Node → Node) : t.Frames (t.modifyNode i f) := by
  intro t' h'
  rw [modifyNode] at h'
  split at h' <;> cases h'
  exact ⟨rfl, .inl rfl⟩

theorem frames_setArray (i : ℕ) (v : LuaValue) : t.Frames (t.setArray i v) := by
  intro t' h'
  rw [setArray] at h'
  split at h' <;> cases h'
  exact ⟨rfl, .inl rfl⟩

theorem Frames.bind {x : Except Fault LuaTable} {f : LuaTable → Except Fault LuaTable} (hx : t.Frames x)
    (hf : ∀ s : LuaTable, s.Frames (f s)) : t.Frames (x >>= f) := by
  intro t' h'
  obtain ⟨s, hs, h'⟩ := bind_ok h'
  exact (hx s hs).trans (hf s t' h')

theorem frames_newHpart (b : ℕ) : t.Frames (t.newHpart b) := by
  intro t' h'
  rw [newHpart] at h'
  split at h' <;> cases h'
  exact ⟨rfl, .inl rfl⟩

theorem frames_resizeHpart (b : ℕ) : t.Frames (t.resizeHpart b) := by
  intro t' h'
  rw [resizeHpart] at h'
  split at h'
  · exact frames_newHpart b t' h'
  · split at h' <;> cases h' <;> exact ⟨rfl, .inl rfl⟩

theorem sameHeader_growArray (a : ℕ) : t.SameHeader (t.growArray a) := by
  rw [growArray]
  split <;> exact ⟨rfl, .inl rfl⟩

theorem sameHeader_clearNomm (k : LuaValue) : t.SameHeader (t.clearNomm k) := by
  rw [clearNomm]
  split
  · exact .cleared t
  · exact .refl t

theorem frames_collide {k : LuaValue} {n : ℕ} {nd : Node} {free : ℕ} {p : LuaTable × Option ℕ}
    (hp : t.collide h k n nd free = .ok p) : t.SameHeader p.1 := by
  simp only [collide] at hp
  split at hp
  · obtain ⟨pred, -, hp⟩ := bind_ok hp
    obtain ⟨s, hs, hp⟩ := bind_ok hp
    obtain ⟨s', hs', hp⟩ := bind_ok hp
    obtain ⟨s'', hs'', hp⟩ := bind_ok hp
    cases hp
    exact ((frames_modifyNode _ _ _ hs).trans (frames_modifyNode _ _ _ hs')).trans (frames_modifyNode _ _ _ hs'')
  · obtain ⟨s, hs, hp⟩ := bind_ok hp
    obtain ⟨s', hs', hp⟩ := bind_ok hp
    obtain ⟨s'', hs'', hp⟩ := bind_ok hp
    cases hp
    exact ((frames_modifyNode _ _ _ hs).trans (frames_modifyNode _ _ _ hs')).trans (frames_modifyNode _ _ _ hs'')

variable (hset : ∀ s k v, Frames s (setf s k v))
include hset

theorem frames_setAll (es : List (LuaValue × LuaValue)) : t.Frames (setAll setf t es) := by
  induction es generalizing t with
  | nil =>
    intro t' h'
    cases h'
    exact .refl t
  | cons e es ih =>
    rw [setAll, List.foldlM_cons]
    exact (hset t e.1 e.2).bind fun s => ih

theorem frames_resizeWith (a b : ℕ) : t.Frames (resizeWith setf t a b) := by
  intro t' h'
  rw [resizeWith] at h'
  split at h'
  · cases h'
  obtain ⟨s, hs, h'⟩ := bind_ok h'
  obtain ⟨s', hs', h'⟩ := bind_ok h'
  have hshrink : s.SameHeader s' := by
    rw [shrinkArray] at hs'
    split at hs'
    · have hall := frames_setAll hset _ s' hs'
      exact ⟨hall.metatable, hall.nomm⟩
    · cases hs'
      exact .refl s
  exact (((sameHeader_growArray a).trans (frames_resizeHpart b s hs)).trans hshrink).trans (frames_setAll hset _ t' h')

theorem frames_rehashWith (k : LuaValue) : t.Frames (rehashWith setf t k) := by
  intro t' h'
  simp only [rehashWith] at h'
  obtain ⟨p, -, h'⟩ := bind_ok h'
  exact frames_resizeWith hset _ _ t' h'

/-- An insertion clears the cache. -/
theorem nomm_tryNewKey (k : LuaValue) {p : LuaTable × Option ℕ} (hp : t.tryNewKey h setf k = .ok p) :
    p.1.metatable = t.metatable ∧ p.1.nomm = 0 := by
  rw [tryNewKey] at hp
  suffices hs : ({ t with nomm := 0 } : LuaTable).SameHeader p.1 from ⟨hs.metatable, hs.nomm_zero rfl⟩
  generalize ({ t with nomm := 0 } : LuaTable) = t at hp ⊢
  split at hp
  · obtain ⟨s, hs, hp⟩ := bind_ok hp
    cases hp
    exact frames_rehashWith hset k s hs
  obtain ⟨nd, -, hp⟩ := bind_ok hp
  split at hp
  · obtain ⟨s, hs, hp⟩ := bind_ok hp
    cases hp
    exact frames_modifyNode _ _ s hs
  obtain ⟨o, -, hp⟩ := bind_ok hp
  cases o with
  | none =>
    obtain ⟨s, hs, hp⟩ := bind_ok hp
    cases hp
    exact frames_rehashWith hset k s hs
  | some free =>
    have hc := frames_collide hp
    exact ⟨hc.metatable, hc.nomm⟩

/-- A turn of `set` stores into the array part or into the node of the key, or it clears the cache. -/
theorem setTurn_cases {k v : LuaValue} {t' : LuaTable} (hs : t.setTurn h setf k v = .ok t') :
    (∃ i, t.setArray i v = .ok t') ∨ (∃ n, t.findKey h k = .ok (some n) ∧ t.setVal n v = .ok t') ∨
      t'.metatable = t.metatable ∧ t'.nomm = 0 := by
  have hinsert : ∀ {t₁ : LuaTable} {slot : Option ℕ}, t.tryNewKey h setf k = .ok (t₁, slot) → t₁.SameHeader t' →
      t'.metatable = t.metatable ∧ t'.nomm = 0 := by
    intro t₁ slot hnew hframe
    obtain ⟨hmeta, hnomm⟩ := nomm_tryNewKey hset k hnew
    exact ⟨hframe.metatable.trans hmeta, hframe.nomm_zero hnomm⟩
  obtain ⟨i, hs⟩ | ⟨n, hfound, hs⟩ | ⟨t₁, slot, hnew, hs⟩ | ⟨t₁, hnew, hs⟩ := setTurn_inv hs
  · exact .inl ⟨i, hs⟩
  · exact .inr (.inl ⟨n, hfound, hs⟩)
  · exact .inr (.inr (hinsert hnew (frames_modifyNode _ _ t' hs)))
  · exact .inr (.inr (hinsert hnew (hset t₁ k v t' hs)))

theorem frames_setTurn (k v : LuaValue) : t.Frames (t.setTurn h setf k v) := by
  intro t' h'
  obtain ⟨i, hs⟩ | ⟨n, -, hs⟩ | hs := setTurn_cases hset h'
  · exact frames_setArray i v t' hs
  · exact frames_modifyNode _ _ t' hs
  · exact ⟨hs.1, .inr hs.2⟩

omit hset

/-- No setter touches the metatable, whatever the key and the state of the table are. -/
theorem frames_setD (d : ℕ) (k v : LuaValue) : t.Frames (setD h d t k v) := by
  induction d generalizing t k v with
  | zero =>
    intro t' h'
    cases h'
  | succ d ih =>
    intro t' h'
    exact (sameHeader_clearNomm k).trans (frames_setTurn (fun s k v => ih k v) k v t' h')

theorem frames_set (k v : LuaValue) : t.Frames (t.set h k v) := frames_setD _ k v

theorem keepsMeta_set (k v : LuaValue) : t.KeepsMeta (t.set h k v) := (frames_set k v).keepsMeta

/-- A string store clears the cache, also one that reuses a node. -/
theorem frames_setStr (k v : LuaValue) : Frames { t with nomm := 0 } (t.setStr h k v) := by
  intro t' h'
  rw [setStr] at h'
  generalize ({ t with nomm := 0 } : LuaTable) = t at h' ⊢
  split at h'
  · exact frames_set k v t' h'
  obtain ⟨o, -, h'⟩ := bind_ok h'
  cases o with
  | some n => exact frames_modifyNode _ _ t' h'
  | none => exact frames_set k v t' h'

theorem keepsMeta_setStr (k v : LuaValue) : t.KeepsMeta (t.setStr h k v) := (frames_setStr k v).keepsMeta

theorem frames_setInt (k : ℤ) (v : LuaValue) : t.Frames (t.setInt h k v) := by
  rw [setInt]
  split
  · exact frames_setArray _ v
  split
  · exact Frames.bind (frames_resizeWith (fun s k v => frames_set k v) _ _) fun s => frames_setArray _ v
  · exact frames_set _ v

theorem keepsMeta_setInt (k : ℤ) (v : LuaValue) : t.KeepsMeta (t.setInt h k v) := (frames_setInt k v).keepsMeta

end Meta
end LuaTable
end LuajitRs
