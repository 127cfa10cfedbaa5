import LuajitRs.Jit.Exec
import LuajitRs.Runtime.Table.Links

/-! Metamethods and their negative cache. A set bit of `nomm` in a metatable stands for a lookup that found nothing;
the cache is coherent when no such lookup would find a value now. Every write of a string key and every insertion
clears the cache, and no other write changes what is found under the name of a metamethod. -/
namespace LuajitRs

/-- Metamethods, in the order of their names and cache bits. -/
inductive MM
  | index | newindex | gc | mode | eq | len
  | lt | le | concat | call
  | add | sub | mul | div | mod | pow | unm
  | metatable | tostring
  | pairs | ipairs
  deriving DecidableEq, Repr

/-- Last negative-cached metamethod. -/
def MM_FAST : ℕ := MM.len.ctorIdx

/-- The interned names of the metamethods. The collector never frees them, so each keeps its address and its id. -/
structure MmNames where
  mmname : MM → ℕ
  sid : MM → UInt32
  inj : Function.Injective mmname

namespace MmNames

def key (N : MmNames) (mm : MM) : LuaValue := .str (N.mmname mm)

theorem key_ne_nil (N : MmNames) (mm : MM) : N.key mm ≠ .nil := fun hn => nomatch hn

/-- A hash under which the names have their ids; the ids of other strings come and go. -/
def Fits (N : MmNames) (h : LuaValue → UInt32) : Prop := ∀ mm, h (N.key mm) = N.sid mm

end MmNames

section Lookup
variable (N : MmNames) (h : LuaValue → UInt32)

/-- Negative-cached lookup of a fast metamethod in a metatable, which records a miss. -/
def metaFast (mt : LuaTable) (mm : MM) : Except Fault (LuaTable × Option LuaValue) :=
  if mt.nomm.testBit mm.ctorIdx then .ok (mt, none)
  else do
    let mo ← mt.getStr h (N.key mm)
    if mo.isNil then pure ({ mt with nomm := mt.nomm ||| 2^mm.ctorIdx }, none) else pure (mt, some mo)

/-- The base metatable of the strings: its cache has every bit but that of `__index`. -/
def stringMetatable (strtab : LuaValue) : Except Fault LuaTable := do
  let mt ← LuaTable.new 0 1
  let mt ← mt.setStr h (N.key .index) strtab
  pure { mt with nomm := 255 - 2^MM.index.ctorIdx }

end Lookup

namespace LuaTable
variable {h : LuaValue → UInt32} {t t' : LuaTable} {key k v : LuaValue} {i n : ℕ}

/-! ### Lookups that find nothing -/

/-- Every node is the end of its chain and has another key. -/
def Lone (key : LuaValue) (t : LuaTable) : Prop :=
  ∀ i ≤ t.hmask, ∃ nd, t.nodeSlot i = .ok nd ∧ nd.key ≠ key ∧ nd.next = NIL_NODE

theorem Lone.findKey (hl : Lone key t) : t.findKey h key = .ok none := by
  obtain ⟨nd, hnd, hkey, hnext⟩ := hl (t.hashSlot h key) Nat.and_le_right
  rw [LuaTable.findKey, walk, hnd, bind, Except.instMonad]
  dsimp only [Except.bind]
  rw [if_neg hkey, if_pos hnext]
  rfl

theorem Lone.getStr (hl : Lone key t) : t.getStr h key = .ok .nil := by
  rw [LuaTable.getStr, getChain, hl.findKey]
  rfl

/-- A table whose hash part, if it has one, is fresh. -/
def Blank (t : LuaTable) : Prop := t.hmask = 0 ∨ t.node = .replicate (t.hmask + 1) .EMPTY

theorem Blank.nodeSlot (hb : Blank t) (hi : i ≤ t.hmask) : t.nodeSlot i = .ok .EMPTY := by
  rw [LuaTable.nodeSlot]
  obtain hm | hn := hb
  · rw [if_neg (by omega)]
  · split
    · rw [hn, List.getElem?_replicate, if_pos (by omega)]
    · rfl

theorem Blank.lone (hb : Blank t) (hk : key ≠ .nil) : Lone key t :=
  fun _ hi => ⟨_, hb.nodeSlot hi, hk.symm, rfl⟩

theorem blank_newHpart {b : ℕ} (hr : t.newHpart b = .ok t') : Blank t' := by
  rw [newHpart] at hr
  split at hr <;> cases hr
  exact .inr (by rw [Nat.sub_add_cancel Nat.one_le_two_pow])

theorem blank_resizeHpart {b : ℕ} (hr : t.resizeHpart b = .ok t') : Blank t' := by
  rw [resizeHpart] at hr
  split at hr
  · exact blank_newHpart hr
  · split at hr <;> cases hr
    · exact .inl rfl
    · next hm => exact .inl (not_not.mp hm)

theorem blank_new {asize hbits : ℕ} (hn : LuaTable.new asize hbits = .ok t) : Blank t := by
  rw [LuaTable.new] at hn
  split at hn
  · cases hn
  split at hn
  · cases hn
  dsimp only at hn
  split at hn
  · exact blank_newHpart hn
  · cases hn
    exact .inl rfl

/-- The nodes agree, but for values that are not under the key or that become nil. -/
structure Quiet (key : LuaValue) (t t' : LuaTable) : Prop where
  hmask : t'.hmask = t.hmask
  length : t'.node.length = t.node.length
  node : ∀ i nd, t.nodeSlot i = .ok nd → ∃ nd', t'.nodeSlot i = .ok nd' ∧ nd'.key = nd.key ∧ nd'.next = nd.next ∧
    (nd.key = key → nd.val = .nil → nd'.val = .nil)

theorem Quiet.walk (q : Quiet key t t') (fuel i : ℕ) {r : Option ℕ} (hw : t.walk key fuel i = .ok r) :
    t'.walk key fuel i = .ok r := by
  induction fuel generalizing i with
  | zero => cases hw
  | succ fuel ih =>
    rw [LuaTable.walk] at hw
    obtain ⟨nd, hnd, hw⟩ := bind_ok hw
    obtain ⟨nd', hnd', hkey, hnext, -⟩ := q.node i nd hnd
    rw [LuaTable.walk, hnd', ← hw]
    simp only [bind, Except.bind, hkey, hnext]
    split_ifs with hk hn
    · rfl
    · rfl
    · rw [if_neg hk, if_neg hn] at hw
      rw [hw]
      exact ih _ hw

theorem Quiet.getStr (q : Quiet key t t') (hg : t.getStr h key = .ok .nil) : t'.getStr h key = .ok .nil := by
  rw [LuaTable.getStr, getChain] at hg
  obtain ⟨r, hr, hg⟩ := bind_ok hg
  have hr' : t'.findKey h key = .ok r := by
    rw [LuaTable.findKey, hashSlot, q.hmask, q.length]
    exact q.walk _ _ hr
  rw [LuaTable.getStr, getChain, hr']
  cases r with
  | none => rfl
  | some n =>
    obtain ⟨nd, hnd, hkey⟩ := nodeSlot_of_walk _ _ hr
    obtain ⟨nd', hnd', -, -, hval⟩ := q.node n nd hnd
    dsimp only at hg
    rw [hnd] at hg
    have hnil : nd'.val = .nil := hval hkey (Except.ok.inj hg)
    simp only [bind, Except.bind, hnd', hnil]
    rfl

theorem quiet_setArray (hs : t.setArray i v = .ok t') : t'.nomm = t.nomm ∧ ∀ key, Quiet key t t' := by
  rw [setArray] at hs
  split at hs <;> cases hs
  exact ⟨rfl, fun key => ⟨rfl, rfl, fun i nd hnd => ⟨nd, hnd, rfl, rfl, fun _ h => h⟩⟩⟩

/-- A store into a node of another key. -/
theorem quiet_setVal {nd : Node} (hnd : t.nodeSlot n = .ok nd) (hs : t.setVal n v = .ok t') :
    t'.nomm = t.nomm ∧ ∀ key, nd.key ≠ key → Quiet key t t' := by
  rw [setVal, modifyNode] at hs
  split at hs <;> cases hs
  refine ⟨rfl, fun key hne => ⟨rfl, List.length_modify .., fun i nd' hi => ?_⟩⟩
  by_cases hin : i = n
  · subst hin
    rw [hi] at hnd
    cases hnd
    rw [nodeSlot] at hi ⊢
    dsimp only
    split_ifs at hi ⊢ with hm
    · rw [List.getElem?_modify_eq]
      cases hn : t.node[i]? with
      | none =>
        rw [hn] at hi
        cases hi
      | some a =>
        rw [hn] at hi
        cases hi
        exact ⟨_, rfl, rfl, rfl, fun h => absurd h hne⟩
    · cases hi
      exact ⟨_, rfl, rfl, rfl, fun _ _ => rfl⟩
  · refine ⟨nd', ?_, rfl, rfl, fun _ h => h⟩
    rw [nodeSlot] at hi ⊢
    dsimp only
    rwa [List.getElem?_modify_ne _ _ (Ne.symm hin)]

theorem quiet_clearWeakEntries (weakkey weakval : Bool) (mayClear : LuaValue → Bool → Bool) :
    Quiet key t (t.clearWeakEntries weakkey weakval mayClear) := by
  have hnode : ∃ g : Node → Node,
      (∀ nd, (g nd).key = nd.key ∧ (g nd).next = nd.next ∧ (nd.val = .nil → (g nd).val = .nil)) ∧
      (t.clearWeakEntries weakkey weakval mayClear).node = t.node.map g := by
    cases hw : weakkey || weakval with
    | false => exact ⟨id, fun nd => ⟨rfl, rfl, id⟩, by simp [clearWeakEntries, hw]⟩
    | true =>
      refine ⟨_, fun nd => ?_, by rw [clearWeakEntries, hw]; rfl⟩
      split_ifs with hn
      · exact ⟨rfl, rfl, id⟩
      · exact ⟨rfl, rfl, fun _ => rfl⟩
      · exact ⟨rfl, rfl, id⟩
  obtain ⟨g, hg, hnode⟩ := hnode
  refine ⟨rfl, by rw [hnode, List.length_map], fun i nd hi => ?_⟩
  rw [nodeSlot] at hi ⊢
  rw [hnode, List.getElem?_map]
  change (∃ nd', (if 0 < t.hmask then _ else _) = _ ∧ _)
  split_ifs at hi ⊢ with hm
  · cases hn : t.node[i]? with
    | none =>
      rw [hn] at hi
      cases hi
    | some a =>
      rw [hn] at hi
      cases hi
      exact ⟨_, rfl, (hg nd).1, (hg nd).2.1, fun _ => (hg nd).2.2⟩
  · cases hi
    exact ⟨_, rfl, rfl, rfl, fun _ => id⟩

/-! ### The cache -/

variable (N : MmNames)

/-- A set bit of the cache tells the truth. -/
def Coherent (t : LuaTable) : Prop :=
  ∀ mm : MM, t.nomm.testBit mm.ctorIdx = true → ∀ h, N.Fits h → t.getStr h (N.key mm) = .ok .nil

variable {N}

theorem coherent_zero (h0 : t.nomm = 0) : t.Coherent N := by
  intro mm hbit
  rw [h0, Nat.zero_testBit] at hbit
  cases hbit

theorem Blank.coherent (hb : t.Blank) : t.Coherent N := fun mm _ _ _ => (hb.lone (N.key_ne_nil mm)).getStr

theorem Coherent.quiet (c : t.Coherent N) (hq : t'.nomm = t.nomm ∧ ∀ mm, Quiet (N.key mm) t t') : t'.Coherent N := by
  intro mm hbit h hfit
  rw [hq.1] at hbit
  exact (hq.2 mm).getStr (c mm hbit h hfit)

theorem Coherent.setArray (c : t.Coherent N) (hs : t.setArray i v = .ok t') : t'.Coherent N :=
  c.quiet ⟨(quiet_setArray hs).1, fun _ => (quiet_setArray hs).2 _⟩

section Setter
variable {setf : Setter} (hframe : ∀ s k v, Frames s (setf s k v))
  (hset : ∀ s k v s', s.Coherent N → setf s k v = .ok s' → s'.Coherent N)

include hframe in
/-- A turn of `set` with a key that is no string. -/
theorem Coherent.setTurn (c : t.Coherent N) (hk : k.isString = false) (hs : t.setTurn h setf k v = .ok t') :
    t'.Coherent N := by
  obtain ⟨i, hs⟩ | ⟨n, hn, hs⟩ | hcleared := setTurn_cases hframe hs
  · exact c.setArray hs
  · obtain ⟨nd, hnd, hkey⟩ := nodeSlot_of_walk _ _ hn
    have hne : ∀ mm, nd.key ≠ N.key mm := by
      intro mm he
      rw [← hkey, he] at hk
      cases hk
    exact c.quiet ⟨(quiet_setVal hnd hs).1, fun mm => (quiet_setVal hnd hs).2 _ (hne mm)⟩
  · exact coherent_zero hcleared.2

include hset

theorem Coherent.setAll (es : List (LuaValue × LuaValue)) (c : t.Coherent N) (hs : setAll setf t es = .ok t') :
    t'.Coherent N := by
  induction es generalizing t with
  | nil =>
    cases hs
    exact c
  | cons e es ih =>
    rw [LuaTable.setAll, List.foldlM_cons] at hs
    obtain ⟨s, hs', hs⟩ := bind_ok hs
    exact ih (hset _ _ _ _ c hs') hs

/-- A resize starts from a fresh hash part. -/
theorem coherent_resizeWith {asize hbits : ℕ} (hs : resizeWith setf t asize hbits = .ok t') : t'.Coherent N := by
  rw [resizeWith] at hs
  split at hs
  · cases hs
  obtain ⟨s, hs', hs⟩ := bind_ok hs
  obtain ⟨s', hs'', hs⟩ := bind_ok hs
  have hb : s.Blank := blank_resizeHpart hs'
  refine Coherent.setAll hset _ ?_ hs
  rw [shrinkArray] at hs''
  split at hs''
  · have hshrunk : Blank { s with asize := asize, array := s.array.take asize } := hb
    exact Coherent.setAll hset _ hshrunk.coherent hs''
  · cases hs''
    exact hb.coherent

end Setter

theorem Coherent.setD (d : ℕ) (c : t.Coherent N) (hs : setD h d t k v = .ok t') : t'.Coherent N := by
  induction d generalizing t k v t' with
  | zero => cases hs
  | succ d ih =>
    cases hk : k.isString with
    | true =>
      refine coherent_zero ((frames_setTurn (fun s k v => frames_setD d k v) k v t' hs).nomm_zero ?_)
      rw [clearNomm, if_pos hk]
    | false =>
      have hclear : t.clearNomm k = t := by rw [clearNomm, hk]; rfl
      rw [LuaTable.setD, hclear] at hs
      exact c.setTurn (fun s k v => frames_setD d k v) hk hs

theorem Coherent.setStr (hs : t.setStr h k v = .ok t') : t'.Coherent N :=
  coherent_zero ((frames_setStr k v t' hs).nomm_zero rfl)

theorem Coherent.setInt (c : t.Coherent N) {k : ℤ} (hs : t.setInt h k v = .ok t') : t'.Coherent N := by
  rw [LuaTable.setInt] at hs
  split at hs
  · exact c.setArray hs
  split at hs
  · obtain ⟨s, hs', hs⟩ := bind_ok hs
    exact (coherent_resizeWith (fun s k v s' c => c.setD _) hs').setArray hs
  · exact c.setD _ hs

/-- What is found under a name depends on its id only. -/
theorem getStr_fits {h' : LuaValue → UInt32} (hfit : N.Fits h) (hfit' : N.Fits h') (mm : MM) :
    t.getStr h (N.key mm) = t.getStr h' (N.key mm) := by
  simp only [getStr, getChain, LuaTable.findKey, hashSlot, hfit mm, hfit' mm]

/-- A lookup records a miss only where there is one. -/
theorem Coherent.metaFast (c : t.Coherent N) (hfit : N.Fits h) {mm : MM} {r : Option LuaValue}
    (hm : metaFast N h t mm = .ok (t', r)) : t'.Coherent N := by
  rw [LuajitRs.metaFast] at hm
  split at hm
  · cases hm
    exact c
  obtain ⟨mo, hmo, hm⟩ := bind_ok hm
  split at hm
  · next hnil =>
    cases hm
    have hq : ∀ key, Quiet key t { t with nomm := t.nomm ||| 2^mm.ctorIdx } := fun key =>
      ⟨rfl, rfl, fun i nd hi => ⟨nd, hi, rfl, rfl, fun _ => id⟩⟩
    intro mm' hbit h' hfit'
    refine (hq _).getStr ?_
    rw [Nat.testBit_or, Nat.testBit_two_pow, Bool.or_eq_true, decide_eq_true_eq] at hbit
    obtain hbit | hbit := hbit
    · exact c mm' hbit h' hfit'
    · have heq : mm = mm' := by rw [← MM.ofNat_ctorIdx mm, hbit, MM.ofNat_ctorIdx]
      rw [← heq, getStr_fits hfit' hfit, hmo, of_decide_eq_true hnil]
  · cases hm
    exact c

/-- The first string key of a table with two nodes. -/
theorem setStr_two_nodes (a m : ℕ) : (⟨[], [.EMPTY, .EMPTY], none, 0, 1, 2, m⟩ : LuaTable).setStr h (.str a) v =
    .ok ⟨[], [.EMPTY, .EMPTY].modify ((h (.str a)).toNat &&& 1) fun _ => ⟨v, .str a, NIL_NODE⟩, none, 0, 1, 2, 0⟩ := by
  have hslot : (h (.str a)).toNat &&& 1 = 0 ∨ (h (.str a)).toNat &&& 1 = 1 := by
    rw [Nat.and_one_is_mod]
    omega
  obtain h0 | h0 := hslot <;>
    simp [LuaTable.setStr, set, setDepth, LuaTable.setD, LuaTable.setTurn, hasHpart, findKey, walk, nodeSlot, hashSlot,
      h0, bind, Except.bind, pure, Except.pure, clearNomm, LuaValue.isString, arrayIdx, arrayKey,
      LuaValue.asInt32Exact, tryNewKey, setKey, setVal, modifyNode, Node.EMPTY, LuaValue.isNil,
      LuaValue.normalizeKey, NIL_NODE]

/-- The base metatable of the strings has no name but `__index`. -/
theorem coherent_stringMetatable (hs : stringMetatable N h v = .ok t) : t.Coherent N := by
  have hlone : ∀ i ≤ 1, ∀ key nd : LuaValue, nd ≠ key → key ≠ .nil → ∀ m,
      Lone key ⟨[], [.EMPTY, .EMPTY].modify i fun _ => ⟨v, nd, NIL_NODE⟩, none, 0, 1, 2, m⟩ := by
    intro i hi key k hne hnil m j hj
    change j ≤ 1 at hj
    obtain rfl | rfl : i = 0 ∨ i = 1 := by omega
    all_goals obtain rfl | rfl : j = 0 ∨ j = 1 := by omega
    · exact ⟨_, rfl, hne, rfl⟩
    · exact ⟨_, rfl, hnil.symm, rfl⟩
    · exact ⟨_, rfl, hnil.symm, rfl⟩
    · exact ⟨_, rfl, hne, rfl⟩
  have hnew : LuaTable.new 0 1 = .ok ⟨[], [.EMPTY, .EMPTY], none, 0, 1, 2, 255⟩ := rfl
  rw [stringMetatable] at hs
  obtain ⟨s₀, hs₀, hs⟩ := bind_ok hs
  obtain rfl := Except.ok.inj (hnew.symm.trans hs₀)
  obtain ⟨s, hs', hs⟩ := bind_ok hs
  cases hs
  obtain rfl := Except.ok.inj ((setStr_two_nodes _ _).symm.trans hs')
  intro mm hbit h' _
  have hclear : (255 - 2^MM.index.ctorIdx).testBit MM.index.ctorIdx = false := by decide
  have hne : mm ≠ .index := by
    rintro rfl
    exact Bool.false_ne_true (hclear.symm.trans hbit)
  exact (hlone _ Nat.and_le_right _ _ (fun he => hne (N.inj (LuaValue.str.inj he)).symm) (N.key_ne_nil mm) _).getStr

end LuaTable

/-! ### The metatables of a program -/

open LuaTable

/-- The tables of a program with the operations that write a metatable or its cache: creation, the setters of the
interpreter and the libraries, the stores of compiled traces, a resize, a new metatable, the clearing of weak
entries, duplication, and lookups. The hash of a step is arbitrary but for the names. -/
inductive MetaReached (N : MmNames) : LuaTable → Prop
  | new {asize hbits : ℕ} {t : LuaTable} : LuaTable.new asize hbits = .ok t → MetaReached N t
  | stringMetatable {h : LuaValue → UInt32} {strtab : LuaValue} {t : LuaTable} :
      stringMetatable N h strtab = .ok t → MetaReached N t
  | set {h : LuaValue → UInt32} {d : ℕ} {key v : LuaValue} {t t' : LuaTable} : MetaReached N t →
      setD h d t key v = .ok t' → MetaReached N t'
  | setStr {h : LuaValue → UInt32} {key v : LuaValue} {t t' : LuaTable} : MetaReached N t →
      t.setStr h key v = .ok t' → MetaReached N t'
  | setInt {h : LuaValue → UInt32} {k : ℤ} {v : LuaValue} {t t' : LuaTable} : MetaReached N t →
      t.setInt h k v = .ok t' → MetaReached N t'
  | arrayStore {i : ℕ} {v : LuaValue} {t t' : LuaTable} : MetaReached N t → t.setArray i v = .ok t' → MetaReached N t'
  | hashStore {h : LuaValue → UInt32} {key v : LuaValue} {t t' : LuaTable} : MetaReached N t →
      Ir.tset h t key v = some t' → MetaReached N t'
  | resize {h : LuaValue → UInt32} {d asize hbits : ℕ} {t t' : LuaTable} : MetaReached N t →
      resizeWith (setD h d) t asize hbits = .ok t' → MetaReached N t'
  | rehash {h : LuaValue → UInt32} {d : ℕ} {key : LuaValue} {t t' : LuaTable} : MetaReached N t →
      rehashWith (setD h d) t key = .ok t' → MetaReached N t'
  | setmetatable {t : LuaTable} (metatable : Option ℕ) : MetaReached N t →
      MetaReached N { t with metatable := metatable }
  | clearWeakEntries {t : LuaTable} (weakkey weakval : Bool) (mayClear : LuaValue → Bool → Bool) :
      MetaReached N t → MetaReached N (t.clearWeakEntries weakkey weakval mayClear)
  | dup {t : LuaTable} : MetaReached N t → MetaReached N t.dup
  | metaFast {h : LuaValue → UInt32} {mm : MM} {r : Option LuaValue} {t t' : LuaTable} : MetaReached N t →
      N.Fits h → mm.ctorIdx ≤ MM_FAST → metaFast N h t mm = .ok (t', r) → MetaReached N t'

variable {N : MmNames} {h : LuaValue → UInt32} {t t' : LuaTable} {k v : LuaValue}

theorem LuaTable.Coherent.tset (c : t.Coherent N) (hs : Ir.tset h t k v = some t') : t'.Coherent N := by
  have hok : ∀ r : Except Fault LuaTable, r.toOption = some t' → r = .ok t' := by
    intro r hr
    cases r with
    | error _ => cases hr
    | ok s => exact congrArg _ (Option.some.inj hr)
  rw [Ir.tset] at hs
  have hs := hok _ hs
  split at hs
  · exact Coherent.setStr hs
  split at hs
  · split at hs
    · exact c.setInt hs
    · exact c.setD _ hs
  · exact c.setD _ hs

theorem MetaReached.coherent (hr : MetaReached N t) : t.Coherent N := by
  have hset : ∀ (h : LuaValue → UInt32) (d : ℕ) (s : LuaTable) (k v : LuaValue) (s' : LuaTable),
      s.Coherent N → setD h d s k v = .ok s' → s'.Coherent N := fun h d s k v s' c => c.setD d
  have hsame : ∀ (s s' : LuaTable), s.Coherent N → s'.nomm = s.nomm → s'.hmask = s.hmask → s'.node = s.node →
      s'.Coherent N := by
    intro s s' c hnomm hmask hnode
    refine c.quiet ⟨hnomm, fun mm => ⟨hmask, by rw [hnode], fun i nd hi => ⟨nd, ?_, rfl, rfl, fun _ => id⟩⟩⟩
    rwa [nodeSlot, hmask, hnode]
  induction hr with
  | new hnew => exact (blank_new hnew).coherent
  | stringMetatable hs => exact coherent_stringMetatable hs
  | set _ hs ih => exact ih.setD _ hs
  | setStr _ hs ih => exact Coherent.setStr hs
  | setInt _ hs ih => exact ih.setInt hs
  | arrayStore _ hs ih => exact ih.setArray hs
  | hashStore _ hs ih => exact ih.tset hs
  | resize _ hs ih => exact coherent_resizeWith (hset _ _) hs
  | rehash _ hs ih =>
    rw [rehashWith] at hs
    obtain ⟨p, -, hs⟩ := bind_ok hs
    exact coherent_resizeWith (hset _ _) hs
  | setmetatable metatable _ ih => exact hsame _ _ ih rfl rfl rfl
  | clearWeakEntries weakkey weakval mayClear _ ih =>
    exact ih.quiet ⟨rfl, fun mm => quiet_clearWeakEntries weakkey weakval mayClear⟩
  | dup _ ih => exact coherent_zero rfl
  | metaFast _ hfit _ hm ih => exact ih.metaFast hfit hm

/-- In every metatable a set cache bit stands for a name without a value, and the cached lookup of a metamethod is the
direct one. -/
theorem metaFast_agrees (hr : MetaReached N t) : (∀ mm : MM, t.nomm.testBit mm.ctorIdx = true →
      ∀ h, N.Fits h → t.getStr h (N.key mm) = .ok .nil) ∧
    ∀ h, N.Fits h → ∀ mm : MM, mm.ctorIdx ≤ MM_FAST → ∀ v, t.getStr h (N.key mm) = .ok v ↔
      ∃ t', metaFast N h t mm = .ok (t', if v.isNil then none else some v) := by
  refine ⟨hr.coherent, fun h hfit mm _ v => ?_⟩
  rw [metaFast]
  split
  · next hbit =>
    rw [hr.coherent mm hbit h hfit]
    constructor
    · intro hv
      cases hv
      exact ⟨t, rfl⟩
    · rintro ⟨t', ht⟩
      have hnone : none = if v.isNil then none else some v := congrArg Prod.snd (Except.ok.inj ht)
      split at hnone
      · next hnil => rw [of_decide_eq_true hnil]
      · cases hnone
  · constructor
    · intro hv
      rw [hv]
      cases hnil : v.isNil with
      | true => exact ⟨_, by simp only [bind, Except.bind, hnil, if_pos]; rfl⟩
      | false => exact ⟨t, by simp only [bind, Except.bind, hnil]; rfl⟩
    · rintro ⟨t', ht⟩
      obtain ⟨mo, hmo, ht⟩ := bind_ok ht
      rw [hmo]
      split at ht
      · next hmo =>
        have hnone : none = if v.isNil then none else some v := congrArg Prod.snd (Except.ok.inj ht)
        split at hnone
        · next hnil => rw [of_decide_eq_true hnil, of_decide_eq_true hmo]
        · cases hnone
      · have hsome : some mo = if v.isNil then none else some v := congrArg Prod.snd (Except.ok.inj ht)
        split at hsome
        · cases hsome
        · rw [Option.some.inj hsome]

/-- Names interned at their ordinals. -/
def MmNames.ordinal : MmNames where
  mmname := MM.ctorIdx
  sid mm := mm.ctorIdx.toUInt32
  inj a b hab := by rw [← MM.ofNat_ctorIdx a, hab, MM.ofNat_ctorIdx]

/-- A hash of strings by address. -/
def LuaValue.addrHash : LuaValue → UInt32
  | .str a => a.toUInt32
  | _ => 0

/-- A metamethod that is added to a fresh metatable, whose cache denies every one, is found. -/
theorem metaFast_agrees_added : ∃ (N : MmNames) (h : LuaValue → UInt32) (t t' : LuaTable),
    (LuaTable.new 0 1 >>= fun t => t.setStr h (N.key .index) (.bool true)) = .ok t ∧
      metaFast N h t .index = .ok (t', some (.bool true)) := by
  have hset := setStr_two_nodes (h := LuaValue.addrHash) (v := .bool true) (MmNames.ordinal.mmname .index) 255
  have hr : MetaReached MmNames.ordinal _ := .setStr (.new (show LuaTable.new 0 1 = .ok _ from rfl)) hset
  obtain ⟨t', ht'⟩ :=
    ((metaFast_agrees hr).2 LuaValue.addrHash (fun _ => rfl) .index (by decide) (.bool true)).mp (by decide)
  exact ⟨.ordinal, LuaValue.addrHash, _, t', hset, ht'⟩

end LuajitRs
