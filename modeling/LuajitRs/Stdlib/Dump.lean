import LuajitRs.Runtime.Table.Len
import LuajitRs.Util.Chars

/-! `string.dump` keeps the function in a cache table of the registry and returns its index; `load` reads the
index back. The cache is filled from its length, which stays 0: the key 0 does not count. -/
namespace LuajitRs

/-- The registry and the heap of tables; `top` is the next address of the allocator. -/
structure GlobalState where
  registry : LuaTable
  tables : ℕ → Option LuaTable
  top : ℕ

/-- The first bytes of a binary chunk, `\x1bLJ`. -/
def DUMP_MAGIC : List UInt8 := [27, ch 'L', ch 'J']

/-! ### Decimal indices -/

/-- `format!("{}", n)` of a `u32`. -/
def decimal (n : ℕ) : List UInt8 := decimalUpTo 10 n

/-- One digit of `parse::<u32>`. -/
def pushDigit (n : ℕ) (c : UInt8) : Option ℕ :=
  if Ascii.isDigit c ∧ 10 * n + (c - ch '0').toNat < 2^32 then some (10 * n + (c - ch '0').toNat) else none

/-- `parse::<u32>`; bytes that are no digit, in a valid character or not, make it fail. -/
def parseU32 (s : List UInt8) : Option ℕ :=
  let digits := if s.head? = some (ch '+') then s.drop 1 else s
  if digits.isEmpty then none else digits.foldlM pushDigit 0

section Dump
variable (h : LuaValue → UInt32) (key : LuaValue)

/-- The cache table under its registry key, `__LUARS_DUMP_CACHE`, created on first use. -/
def dumpCache (g : GlobalState) : Except Fault (ℕ × GlobalState) := do
  match ← g.registry.get h key with
  | .tab a => pure (a, g)
  | _ =>
    let t ← LuaTable.new 0 0
    let registry ← g.registry.set h key (.tab g.top)
    pure (g.top, { registry, tables := Function.update g.tables g.top (some t), top := g.top + 1 })

/-- `string.dump`. -/
def strDump (fv : LuaValue) (g : GlobalState) : Except Fault (Except BadArg (List UInt8) × GlobalState) :=
  match fv with
  | .func _ => do
    let (a, g) ← dumpCache h key g
    match g.tables a with
    | none => .error .dangling
    | some cache => do
      let idx ← cache.len h
      let cache ← cache.setInt h (u32AsI32 idx) fv
      pure (.ok (DUMP_MAGIC ++ decimal idx), { g with tables := Function.update g.tables a (some cache) })
  | _ => pure (.error ⟨1, "string.dump", "function", typeName fv⟩, g)

/-- The entry of the cache under an index, if it is a function. -/
def cached (idx : ℕ) (g : GlobalState) : Except Fault (Option LuaValue) := do
  match ← g.registry.get h key with
  | .tab a =>
    match g.tables a with
    | none => .error .dangling
    | some t => do
      match ← t.getInt h (u32AsI32 idx) with
      | .func f => pure (some (.func f))
      | _ => pure none
  | _ => pure none

/-- `load`; a serialized prototype and a source text are left to `other`. -/
def loadChunk (other : List UInt8 → Except String LuaValue) (src : List UInt8) (g : GlobalState) :
    Except Fault (Except String LuaValue) :=
  -- A decimal digit in byte 3 means the cache form.
  if src.take 3 = DUMP_MAGIC ∧ (src[3]?).any Ascii.isDigit then
    match parseU32 (src.drop 3) with
    | some idx => do
      match ← cached h key idx g with
      | some fv => pure (.ok fv)
      | none => pure (.error "corrupted dump cache")
    | none => pure (.error "corrupted dump cache")
  else pure (other src)

/-- Dumping functions one after another. -/
def dumps : List ℕ → GlobalState → Except Fault (List (Except BadArg (List UInt8)) × GlobalState)
  | [], g => pure ([], g)
  | f :: fs, g => do
    let (s, g) ← strDump h key (.func f) g
    let (ss, g) ← dumps fs g
    pure (s :: ss, g)

end Dump

/-! ### An index is read back -/

theorem foldlM_decimalUpTo (k : ℕ) {n : ℕ} (hn : n < 10^k) (h32 : n < 2^32) :
    (decimalUpTo k n).foldlM pushDigit 0 = some n := by
  induction k generalizing n with
  | zero =>
    have h0 : n = 0 := by simpa using hn
    rw [h0]
    rfl
  | succ k ih =>
    rw [decimalUpTo]
    split
    next hlt =>
      obtain ⟨hd, hv⟩ := toNat_digit hlt
      rw [List.foldlM_cons, pushDigit, hd, hv, if_pos ⟨rfl, by omega⟩, Nat.mul_zero, Nat.zero_add]
      rfl
    next hge =>
      obtain ⟨hd, hv⟩ := toNat_digit (Nat.mod_lt n (by decide : 0 < 10))
      have hdiv : n / 10 < 10^k := by
        rw [Nat.pow_succ] at hn
        omega
      have hsum : 10 * (n / 10) + n % 10 = n := Nat.div_add_mod n 10
      rw [List.foldlM_append, ih hdiv (by omega), Option.bind_eq_bind, Option.bind_some, List.foldlM_cons, pushDigit,
        hd, hv, hsum, if_pos ⟨rfl, h32⟩]
      rfl

/-- `load` finds the index that `string.dump` has written. -/
theorem loadChunk_dump (h : LuaValue → UInt32) (key : LuaValue) (other : List UInt8 → Except String LuaValue) {idx : ℕ}
    (hidx : idx < 2^32) (g : GlobalState) :
    loadChunk h key other (DUMP_MAGIC ++ decimal idx) g = (do
      match ← cached h key idx g with
      | some fv => pure (.ok fv)
      | none => pure (.error "corrupted dump cache")) := by
  have hparse : (decimal idx).foldlM pushDigit 0 = some idx := foldlM_decimalUpTo 10 (by omega) hidx
  obtain ⟨c, rest, hcons⟩ : ∃ c rest, decimal idx = c :: rest := by
    rw [decimal, decimalUpTo]
    split
    · exact ⟨_, _, rfl⟩
    · exact List.exists_cons_of_ne_nil (by simp)
  have hdigit : Ascii.isDigit c = true := isDigit_decimalUpTo 10 idx c (by rw [← decimal, hcons]; exact List.mem_cons_self)
  have hplus : c ≠ ch '+' := by
    rintro rfl
    cases hdigit
  have hnum : parseU32 (decimal idx) = some idx := by
    have hhead : ¬(decimal idx).head? = some (ch '+') := by
      rw [hcons]
      exact fun he => hplus (Option.some.inj he)
    have hne : (decimal idx).isEmpty = false := by rw [hcons, List.isEmpty_cons]
    rw [parseU32, if_neg hhead]
    simp only [hne, Bool.false_eq_true, if_false, hparse]
  have htake : (DUMP_MAGIC ++ decimal idx).take 3 = DUMP_MAGIC := rfl
  have hdrop : (DUMP_MAGIC ++ decimal idx).drop 3 = decimal idx := rfl
  have hthird : (DUMP_MAGIC ++ decimal idx)[3]? = some c := by
    rw [hcons]
    rfl
  rw [loadChunk, htake, hdrop, hthird, hnum, if_pos ⟨rfl, hdigit⟩]

/-! ### The cache -/

section Cache
variable {h : LuaValue → UInt32} {key : LuaValue} {g g' : GlobalState}

/-- A cache table with one entry, under the key 0. -/
def cacheOf (v : LuaValue) : LuaTable := ⟨[v, .nil, .nil], [], none, 3, 0, 0, 0⟩

theorem len_cacheOf (v : LuaValue) : (cacheOf v).len h = .ok 0 := by
  have htop : ∀ i, i = 1 ∨ i = 2 → ((cacheOf v).arrayAt i).map LuaValue.isNil = .ok true := by
    intro i hi
    obtain rfl | rfl := hi <;> rfl
  have hasize : (cacheOf v).asize - 1 = 2 := rfl
  rw [LuaTable.len, hasize, if_pos (by decide), htop 2 (.inr rfl)]
  simp only [bind, Except.bind, if_true]
  rw [LuaTable.bisect, LuaTable.subU32_eq (by decide), LuaTable.addU32_eq (by decide)]
  simp only [bind, Except.bind]
  rw [if_pos (by decide), htop _ (.inl rfl)]
  rfl

theorem setInt_cacheOf (v w : LuaValue) : (cacheOf v).setInt h (u32AsI32 0) w = .ok (cacheOf w) := rfl

/-- The registry holds a cache with the function `f`. -/
def Caches (h : LuaValue → UInt32) (key : LuaValue) (g : GlobalState) (f : ℕ) : Prop :=
  ∃ a, g.registry.get h key = .ok (.tab a) ∧ g.tables a = some (cacheOf (.func f))

/-- What every dump returns. -/
def indexZero : List UInt8 := DUMP_MAGIC ++ decimal 0

/-- The state of a runtime that has dumped nothing: the registry is a table with room, without a cache. -/
structure Undumped (h : LuaValue → UInt32) (key : LuaValue) (g : GlobalState) : Prop where
  registry : g.registry.Chained h
  room : g.registry.liveCount < 2^LJ_MAX_HBITS
  empty : g.registry.get h key = .ok .nil

/-- The first dump creates the cache and stores the function under the key 0. -/
theorem strDump_first (hk : key.ValidKey) (hg : Undumped h key g) (f : ℕ) :
    ∃ g', strDump h key (.func f) g = .ok (.ok indexZero, g') ∧ Caches h key g' f := by
  obtain ⟨ch, hroom, hempty⟩ := hg
  have hset := LuaTable.set_spec ch.toWf ch.findable hk (ch.noStrand key) (.tab g.top)
  cases hs : g.registry.set h key (.tab g.top) with
  | error e =>
    rw [hs] at hset
    exact absurd hset.2 (Nat.not_le.mpr hroom)
  | ok registry =>
    rw [hs] at hset
    have st : g.registry.Stored h registry key (.tab g.top) := hset
    have hget : registry.get h key = .ok (.tab g.top) := by
      rw [LuaTable.get_spec st.wf st.findable, st.puts key hk.normal, if_pos rfl]
    obtain ⟨t, hnew, hlen, hstore⟩ : ∃ t, LuaTable.new 0 0 = .ok t ∧ t.len h = .ok 0 ∧
        t.setInt h (u32AsI32 0) (.func f) = .ok (cacheOf (.func f)) := ⟨_, rfl, rfl, rfl⟩
    refine ⟨⟨registry, Function.update g.tables g.top (some (cacheOf (.func f))), g.top + 1⟩, ?_, g.top, hget,
      Function.update_self _ _ _⟩
    simp only [strDump, dumpCache, hempty, hs, hnew, bind, Except.bind, pure, Except.pure, Function.update_self, hlen,
      hstore, Function.update_idem]
    rfl

/-- Every other dump replaces it: the length of the cache is still 0. -/
theorem strDump_next {f f' : ℕ} (hc : Caches h key g f) :
    ∃ g', strDump h key (.func f') g = .ok (.ok indexZero, g') ∧ Caches h key g' f' := by
  obtain ⟨a, hget, htab⟩ := hc
  refine ⟨{ g with tables := Function.update g.tables a (some (cacheOf (.func f'))) }, ?_, a, hget,
    Function.update_self _ _ _⟩
  simp only [strDump, dumpCache, hget, bind, Except.bind, pure, Except.pure, htab, len_cacheOf, setInt_cacheOf]
  rfl

theorem loadChunk_cached {other : List UInt8 → Except String LuaValue} {f : ℕ} (hc : Caches h key g f) :
    loadChunk h key other indexZero g = .ok (.ok (.func f)) := by
  obtain ⟨a, hget, htab⟩ := hc
  rw [indexZero, loadChunk_dump h key other (by decide)]
  simp only [cached, hget, bind, Except.bind, htab]
  rfl

/-- After a dump the cache holds the function that was dumped last. -/
theorem dumps_caches {f : ℕ} (hc : Caches h key g f) (fs : List ℕ) :
    ∃ g', dumps h key fs g = .ok (fs.map fun _ => .ok indexZero, g') ∧ Caches h key g' (fs.getLastD f) := by
  induction fs generalizing g f with
  | nil => exact ⟨g, rfl, hc⟩
  | cons f' fs ih =>
    obtain ⟨g₁, hd, hc₁⟩ := @strDump_next h key g f f' hc
    obtain ⟨g₂, hds, hc₂⟩ := ih hc₁
    refine ⟨g₂, ?_, by rwa [List.getLastD_cons]⟩
    simp only [dumps, hd, hds, bind, Except.bind, pure, Except.pure, List.map_cons]

/-- All dumps return the same index, and loading it yields the function that was dumped last. -/
theorem dumps_undumped (hk : key.ValidKey) (hg : Undumped h key g) (f : ℕ) (fs : List ℕ) :
    ∃ g', dumps h key (f :: fs) g = .ok ((f :: fs).map fun _ => .ok indexZero, g') ∧
      Caches h key g' (fs.getLastD f) := by
  obtain ⟨g₁, hd, hc₁⟩ := strDump_first hk hg f
  obtain ⟨g₂, hds, hc₂⟩ := dumps_caches hc₁ fs
  refine ⟨g₂, ?_, hc₂⟩
  simp only [dumps, hd, hds, bind, Except.bind, pure, Except.pure, List.map_cons]

/-- The `k`-th dump is loaded as a function with the prototype of the `k`-th function. -/
def LoadsBack {P : Type} (h : LuaValue → UInt32) (key : LuaValue) (other : List UInt8 → Except String LuaValue)
    (proto : ℕ → P) (fs : List ℕ) (strs : List (Except BadArg (List UInt8))) (g : GlobalState) (k : ℕ) : Prop :=
  ∃ s f f', strs[k]? = some (.ok s) ∧ fs[k]? = some f ∧ loadChunk h key other s g = .ok (.ok (.func f')) ∧
    proto f' = proto f

/-- A sequence of dumps succeeds, and the `k`-th string is loaded back exactly if the function that was dumped
last has the prototype of the `k`-th. -/
theorem dumps_loadsBack_iff {P : Type} (proto : ℕ → P) (other : List UInt8 → Except String LuaValue)
    (hk : key.ValidKey) (hg : Undumped h key g) (fs : List ℕ) :
    ∃ strs g', dumps h key fs g = .ok (strs, g') ∧ ∀ k f last, fs[k]? = some f → fs.getLast? = some last →
      (LoadsBack h key other proto fs strs g' k ↔ proto last = proto f) := by
  cases fs with
  | nil => exact ⟨[], g, rfl, by simp⟩
  | cons f₀ fs =>
    obtain ⟨g', hd, hc⟩ := dumps_undumped hk hg f₀ fs
    refine ⟨_, g', hd, ?_⟩
    intro k f last hf hlast
    have hlast' : fs.getLastD f₀ = last := by
      rw [List.getLast?_cons, Option.some.injEq] at hlast
      rw [← hlast, List.getLastD_eq_getLast?]
    have hstr : ((f₀ :: fs).map fun _ => Except.ok (ε := BadArg) indexZero)[k]? = some (.ok indexZero) := by
      rw [List.getElem?_map, hf, Option.map_some]
    rw [hlast'] at hc
    have hload := @loadChunk_cached h key g' other last hc
    constructor
    · intro hback
      obtain ⟨s, f₁, f', hs, hf₁, hl, hp⟩ := hback
      rw [hstr, Option.some.injEq, Except.ok.injEq] at hs
      rw [hf, Option.some.injEq] at hf₁
      rw [← hs, hload] at hl
      cases hl
      rw [hp, hf₁]
    · exact fun hp => ⟨indexZero, f, last, hstr, hf, hload, hp⟩

end Cache

/-! ### Two dumps -/

/-- A fresh state: the registry has room for one entry. -/
def freshState : GlobalState :=
  ⟨⟨[], [.EMPTY, .EMPTY], none, 0, 1, 2, 255⟩, fun _ => none, 0⟩

theorem freshState_undumped : Undumped (fun _ => 0) (.str 1) freshState := by
  have hnew := @LuaTable.new_spec (fun _ => 0) 0 1
  have hout : LuaTable.new 0 1 = .ok freshState.registry := rfl
  rw [hout] at hnew
  obtain ⟨ch, -, hlive⟩ := hnew
  exact ⟨ch, by rw [hlive]; decide, rfl⟩

/-- After the functions 5 and 6 have been dumped, the first string is loaded as the function 6. -/
theorem dump_overwritten : ∃ strs g', dumps (fun _ => 0) (.str 1) [5, 6] freshState = .ok (strs, g') ∧
    ¬ LoadsBack (fun _ => 0) (.str 1) (fun _ => .error "") id [5, 6] strs g' 0 := by
  obtain ⟨g', hd, hc⟩ := dumps_undumped (LuaValue.validKey_str 1) freshState_undumped 5 [6]
  refine ⟨_, g', hd, ?_⟩
  intro hback
  obtain ⟨s, f, f', hs, hf, hl, hp⟩ := hback
  obtain rfl : indexZero = s := Except.ok.inj (Option.some.inj hs)
  obtain rfl : 5 = f := Option.some.inj hf
  rw [loadChunk_cached hc] at hl
  cases hl
  cases hp

/-- The second string is loaded as the second function. -/
theorem dumps_loadsBack_iff_last : ∃ strs g', dumps (fun _ => 0) (.str 1) [5, 6] freshState = .ok (strs, g') ∧
    LoadsBack (fun _ => 0) (.str 1) (fun _ => .error "") id [5, 6] strs g' 1 := by
  obtain ⟨strs, g', hd, hall⟩ :=
    dumps_loadsBack_iff id (fun _ => .error "") (LuaValue.validKey_str 1) freshState_undumped [5, 6]
  exact ⟨strs, g', hd, (hall 1 6 6 rfl rfl).mpr rfl⟩

end LuajitRs
