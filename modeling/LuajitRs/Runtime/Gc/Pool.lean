import LuajitRs.Runtime.Value
import Mathlib.Data.List.Perm.Basic
import Mathlib.Data.Finset.Card

/-! The object pool of the collector: allocation from a stack of reclaimed blocks, and the
tri-colour sweep. A pointer is an address, and the memory that the pool's pointers see is part of
the model. The system allocator enters as the address of a block that is handed out when no
reclaimed block is left. -/
namespace LuajitRs

/-- Maximum address for a valid GC pointer on 64-bit hosts. -/
def ADDR_MAX : ℕ := 2^47

def BIT_WHITE0 : UInt8 := 0b00001000
def BIT_WHITE1 : UInt8 := 0b00010000
def BIT_BLACK : UInt8 := 0b00100000
def COLOR_MASK : UInt8 := BIT_WHITE0 ||| BIT_WHITE1 ||| BIT_BLACK

/-- The header fields that marking and sweeping use. -/
structure GcHeader where
  marked : Bool
  bits : UInt8
  deriving DecidableEq, Repr

namespace GcHeader

def new (currentWhite : UInt8) : GcHeader :=
  ⟨false, if currentWhite = 0 then BIT_WHITE0 else BIT_WHITE1⟩

def isBlack (h : GcHeader) : Bool := h.bits &&& BIT_BLACK != 0

def changeWhite (h : GcHeader) : GcHeader :=
  if h.bits &&& BIT_WHITE0 != 0 then { h with bits := (h.bits &&& ~~~COLOR_MASK) ||| BIT_WHITE1 }
  else { h with bits := (h.bits &&& ~~~COLOR_MASK) ||| BIT_WHITE0 }

def nw2black (h : GcHeader) : GcHeader := { h with bits := (h.bits &&& ~~~COLOR_MASK) ||| BIT_BLACK }

def isDead (h : GcHeader) (currentWhite : UInt8) : Bool :=
  if currentWhite = 0 then h.bits &&& BIT_WHITE1 != 0 else h.bits &&& BIT_WHITE0 != 0

def setMarked (h : GcHeader) : GcHeader := { h with marked := true }.nw2black

/-- The sweep keeps what was marked in this cycle or has a non-dead colour. -/
def alive (h : GcHeader) (currentWhite : UInt8) : Bool :=
  h.marked || (!h.isDead currentWhite && !h.isBlack)

/-- What the sweep does to the header of a survivor. -/
def survive (h : GcHeader) : GcHeader :=
  { (if h.marked then h.changeWhite else h) with marked := false }

theorem alive_setMarked (h : GcHeader) (cw : UInt8) : h.setMarked.alive cw := by
  simp [alive, setMarked, nw2black]

end GcHeader

/-- A block of the heap: the header and the object behind it. -/
structure GcBox (T : Type) where
  header : GcHeader
  data : T

/-- Free-list trim threshold. -/
def DEFAULT_TRIM_THRESHOLD : ℕ := 2 * 1024 * 1024

structure Pool (T : Type) where
  /-- The memory behind the pool's pointers. -/
  heap : ℕ → Option (GcBox T)
  objects : List ℕ
  live : ℕ
  currentWhite : UInt8
  /-- Reclaimed blocks, the last one pushed first. -/
  freelist : List ℕ
  freeBytes : ℕ
  trimCheck : ℕ

/-- `Vec::swap_remove`: the last element takes the place of the removed one. -/
def swapRemove {α : Type} (xs : List α) (i : ℕ) : List α :=
  match xs.getLast? with
  | some x => (xs.set i x).dropLast
  | none => xs

namespace Pool
variable {T σ : Type}

def new : Pool T := ⟨fun _ => none, [], 0, 0, [], 0, DEFAULT_TRIM_THRESHOLD⟩

/-- The object at an address. -/
def get (pool : Pool T) (a : ℕ) : Option T := (pool.heap a).map GcBox.data

def headerAt (pool : Pool T) (a : ℕ) : Option GcHeader := (pool.heap a).map GcBox.header

def modifyHeader (pool : Pool T) (a : ℕ) (f : GcHeader → GcHeader) : Pool T :=
  { pool with heap := fun b =>
      if b = a then (pool.heap a).map fun x => { x with header := f x.header } else pool.heap b }

/-- Store `v` in a reclaimed block of `size` bytes, or at `fresh` when there is none. -/
def alloc (size : ℕ) (pool : Pool T) (v : T) (fresh : ℕ) : Pool T × ℕ :=
  let box : GcBox T := ⟨GcHeader.new pool.currentWhite, v⟩
  match pool.freelist with
  | raw :: rest =>
    ({ pool with
        heap := Function.update pool.heap raw (some box), objects := pool.objects ++ [raw],
        live := pool.live + 1, freelist := rest, freeBytes := pool.freeBytes - size }, raw)
  | [] =>
    ({ pool with
        heap := Function.update pool.heap fresh (some box), objects := pool.objects ++ [fresh],
        live := pool.live + 1 }, fresh)

/-- Hand blocks back to the system until at most `reserve` bytes are free. -/
def trim (size reserve : ℕ) : List ℕ → ℕ → List ℕ × ℕ
  | [], free => ([], free)
  | raw :: rest, free => if reserve < free then trim size reserve rest (free - size) else (raw :: rest, free)

def retire (size : ℕ) (pool : Pool T) (a : ℕ) : Pool T :=
  let pool := { pool with freelist := a :: pool.freelist, freeBytes := pool.freeBytes + size }
  if pool.trimCheck < pool.freeBytes then
    let r := trim size (pool.trimCheck / 2) pool.freelist pool.freeBytes
    { pool with freelist := r.1, freeBytes := r.2 }
  else pool

/-- `drop_in_place` and `retire` of the object at position `i`, and its removal. -/
def release (size : ℕ) (pool : Pool T) (i a : ℕ) : Pool T :=
  let pool := retire size { pool with heap := Function.update pool.heap a none } a
  { pool with objects := swapRemove pool.objects i }

/-- Sweep at most `limit` objects from position `i` on. `onFree` gets the memory, the object that
is freed and what the callback mutates. -/
def sweepLimited (size : ℕ) (currentWhite : UInt8)
    (onFree : (ℕ → Option (GcBox T)) → T → σ → Except Fault σ) :
    ℕ → ℕ → Pool T → σ → Except Fault (Pool T × σ × Bool × ℕ)
  | 0, i, pool, acc =>
    .ok ({ pool with live := pool.objects.length }, acc, pool.objects.length ≤ i, i)
  | limit+1, i, pool, acc =>
    match pool.objects[i]? with
    | none => .ok ({ pool with live := pool.objects.length }, acc, pool.objects.length ≤ i, i)
    | some ptr =>
      if ptr ≤ 0x1000 ∨ ADDR_MAX ≤ ptr then
        sweepLimited size currentWhite onFree limit i
          { pool with objects := swapRemove pool.objects i } acc
      else
        match pool.heap ptr with
        | none => .error .dangling
        | some box =>
          if box.header.alive currentWhite then
            sweepLimited size currentWhite onFree limit (i + 1)
              (pool.modifyHeader ptr GcHeader.survive) acc
          else
            match onFree pool.heap box.data acc with
            | .error e => .error e
            | .ok acc => sweepLimited size currentWhite onFree limit i (pool.release size i ptr) acc

/-- `sweep_tricolor`, a sweep without a limit (`usize::MAX`). -/
def sweepTricolor (size : ℕ) (currentWhite : UInt8)
    (onFree : (ℕ → Option (GcBox T)) → T → σ → Except Fault σ) (pool : Pool T) (acc : σ) :
    Except Fault (Pool T × σ) :=
  (sweepLimited size currentWhite onFree (2^64 - 1) 0 pool acc).map fun r => (r.1, r.2.1)

def updateCurrentWhite (pool : Pool T) (cw : UInt8) : Pool T := { pool with currentWhite := cw }

/-! ### What the allocator promises -/

/-- Addresses that the collector takes for objects. -/
def InRange (a : ℕ) : Prop := 0x1000 < a ∧ a < ADDR_MAX

/-- The live objects and the reclaimed blocks are disjoint lists of valid addresses. -/
structure Wf (pool : Pool T) : Prop where
  objects_nodup : pool.objects.Nodup
  freelist_nodup : pool.freelist.Nodup
  disjoint : ∀ a ∈ pool.freelist, a ∉ pool.objects
  objects_range : ∀ a ∈ pool.objects, InRange a
  freelist_range : ∀ a ∈ pool.freelist, InRange a
  mapped : ∀ a ∈ pool.objects, (pool.heap a).isSome

/-- The system allocator, asked when no reclaimed block is left, hands out a valid address that no
object has. -/
def Available (pool : Pool T) (a : ℕ) : Prop :=
  pool.freelist = [] → InRange a ∧ a ∉ pool.objects

theorem Wf.new : (new : Pool T).Wf := ⟨by simp [Pool.new], by simp [Pool.new], by simp [Pool.new],
  by simp [Pool.new], by simp [Pool.new], by simp [Pool.new]⟩

theorem Wf.exists_box {pool : Pool T} (W : pool.Wf) {a : ℕ} (ha : a ∈ pool.objects) :
    ∃ box, pool.heap a = some box :=
  Option.isSome_iff_exists.mp (W.mapped a ha)

theorem Wf.exists_get {pool : Pool T} (W : pool.Wf) {a : ℕ} (ha : a ∈ pool.objects) :
    ∃ v, pool.get a = some v := by
  obtain ⟨box, hbox⟩ := W.exists_box ha
  exact ⟨box.data, by simp [get, hbox]⟩

/-- There are fewer objects than addresses, so `usize::MAX` never limits a sweep. -/
theorem Wf.length_le {pool : Pool T} (W : pool.Wf) : pool.objects.length ≤ 2^64 - 1 := by
  have hsub : pool.objects.toFinset ⊆ Finset.range ADDR_MAX := by
    intro a ha
    exact Finset.mem_range.mpr (W.objects_range a (List.mem_toFinset.mp ha)).2
  have hcard := Finset.card_le_card hsub
  rw [List.toFinset_card_of_nodup W.objects_nodup, Finset.card_range] at hcard
  exact hcard.trans (by norm_num [ADDR_MAX])

@[simp] theorem get_modifyHeader (pool : Pool T) (a : ℕ) (f : GcHeader → GcHeader) :
    (pool.modifyHeader a f).get = pool.get := by
  funext b
  by_cases h : b = a <;> simp [modifyHeader, get, h, Function.comp_def]

theorem heap_modifyHeader_of_ne {pool : Pool T} {a b : ℕ} {f : GcHeader → GcHeader} (h : b ≠ a) :
    (pool.modifyHeader a f).heap b = pool.heap b := by simp [modifyHeader, h]

theorem Wf.modifyHeader {pool : Pool T} (W : pool.Wf) (a : ℕ) (f : GcHeader → GcHeader) :
    (pool.modifyHeader a f).Wf :=
  { W with
    mapped := by
      intro b hb
      have h := W.mapped b hb
      by_cases hba : b = a <;> simp_all [Pool.modifyHeader] }

/-! ### Allocation -/

/-- The address that an allocation uses. -/
def nextAddr (pool : Pool T) (fresh : ℕ) : ℕ := pool.freelist.headD fresh

theorem nextAddr_range {pool : Pool T} (W : pool.Wf) {fresh : ℕ} (hf : pool.Available fresh) :
    InRange (pool.nextAddr fresh) := by
  cases h : pool.freelist with
  | nil => simpa [nextAddr, h] using (hf h).1
  | cons raw rest => simpa [nextAddr, h] using W.freelist_range raw (by simp [h])

/-- An allocation never returns the address of a live object. -/
theorem nextAddr_not_mem {pool : Pool T} (W : pool.Wf) {fresh : ℕ} (hf : pool.Available fresh) :
    pool.nextAddr fresh ∉ pool.objects := by
  cases h : pool.freelist with
  | nil => simpa [nextAddr, h] using (hf h).2
  | cons raw rest => simpa [nextAddr, h] using W.disjoint raw (by simp [h])

theorem alloc_snd (size : ℕ) (pool : Pool T) (v : T) (fresh : ℕ) :
    (pool.alloc size v fresh).2 = pool.nextAddr fresh := by
  cases h : pool.freelist <;> simp [alloc, nextAddr, h]

theorem objects_alloc (size : ℕ) (pool : Pool T) (v : T) (fresh : ℕ) :
    (pool.alloc size v fresh).1.objects = pool.objects ++ [pool.nextAddr fresh] := by
  cases h : pool.freelist <;> simp [alloc, nextAddr, h]

theorem heap_alloc (size : ℕ) (pool : Pool T) (v : T) (fresh : ℕ) :
    (pool.alloc size v fresh).1.heap = Function.update pool.heap (pool.nextAddr fresh)
      (some ⟨GcHeader.new pool.currentWhite, v⟩) := by
  cases h : pool.freelist <;> simp [alloc, nextAddr, h]

theorem freelist_alloc (size : ℕ) (pool : Pool T) (v : T) (fresh : ℕ) :
    (pool.alloc size v fresh).1.freelist = pool.freelist.tail := by
  cases h : pool.freelist <;> simp [alloc, h]

theorem currentWhite_alloc (size : ℕ) (pool : Pool T) (v : T) (fresh : ℕ) :
    (pool.alloc size v fresh).1.currentWhite = pool.currentWhite := by
  cases h : pool.freelist <;> simp [alloc, h]

theorem get_alloc_self (size : ℕ) (pool : Pool T) (v : T) (fresh : ℕ) :
    (pool.alloc size v fresh).1.get (pool.nextAddr fresh) = some v := by
  simp [get, heap_alloc]

theorem get_alloc_of_ne {size : ℕ} {pool : Pool T} {v : T} {fresh a : ℕ}
    (ha : a ≠ pool.nextAddr fresh) : (pool.alloc size v fresh).1.get a = pool.get a := by
  simp [get, heap_alloc, ha]

theorem Wf.alloc {pool : Pool T} (W : pool.Wf) {fresh : ℕ} (hf : pool.Available fresh) (size : ℕ)
    (v : T) : (pool.alloc size v fresh).1.Wf := by
  have hnot := nextAddr_not_mem W hf
  have hhead : pool.nextAddr fresh ∉ pool.freelist.tail := by
    cases h : pool.freelist with
    | nil => simp
    | cons raw rest => simpa [nextAddr, h] using (List.nodup_cons.mp (h ▸ W.freelist_nodup)).1
  constructor
  · rw [objects_alloc, List.nodup_append]
    refine ⟨W.objects_nodup, by simp, ?_⟩
    rintro a ha b hb rfl
    exact hnot (by simpa [List.mem_singleton.mp hb] using ha)
  · rw [freelist_alloc]
    exact W.freelist_nodup.sublist (List.tail_sublist _)
  · intro a ha
    rw [freelist_alloc] at ha
    rw [objects_alloc, List.mem_append, List.mem_singleton]
    rintro (h | rfl)
    · exact W.disjoint a (List.mem_of_mem_tail ha) h
    · exact hhead ha
  · intro a ha
    rw [objects_alloc, List.mem_append, List.mem_singleton] at ha
    rcases ha with ha | rfl
    · exact W.objects_range a ha
    · exact nextAddr_range W hf
  · intro a ha
    rw [freelist_alloc] at ha
    exact W.freelist_range a (List.mem_of_mem_tail ha)
  · intro a ha
    rw [objects_alloc, List.mem_append, List.mem_singleton] at ha
    by_cases h : a = pool.nextAddr fresh
    · simp [heap_alloc, h]
    · simpa [heap_alloc, h] using W.mapped a (ha.resolve_right h)

/-! ### Release -/

theorem trim_suffix (size reserve : ℕ) (xs : List ℕ) (free : ℕ) :
    (trim size reserve xs free).1 <:+ xs := by
  induction xs generalizing free with
  | nil => simp [trim]
  | cons raw rest ih =>
    rw [trim]
    split_ifs
    · exact (ih _).trans (List.suffix_cons raw rest)
    · exact List.suffix_rfl

theorem freelist_retire (size : ℕ) (pool : Pool T) (a : ℕ) :
    (pool.retire size a).freelist <:+ a :: pool.freelist := by
  rw [retire]
  split_ifs
  · exact trim_suffix _ _ _ _
  · exact List.suffix_rfl

@[simp] theorem objects_retire (size : ℕ) (pool : Pool T) (a : ℕ) :
    (pool.retire size a).objects = pool.objects := by
  rw [retire]
  split_ifs <;> rfl

@[simp] theorem heap_retire (size : ℕ) (pool : Pool T) (a : ℕ) :
    (pool.retire size a).heap = pool.heap := by
  rw [retire]
  split_ifs <;> rfl

theorem currentWhite_release (size : ℕ) (pool : Pool T) (i a : ℕ) :
    (pool.release size i a).currentWhite = pool.currentWhite := by
  rw [release, retire]
  split_ifs <;> rfl

theorem objects_release (size : ℕ) (pool : Pool T) (i a : ℕ) :
    (pool.release size i a).objects = swapRemove pool.objects i := by simp [release]

theorem heap_release (size : ℕ) (pool : Pool T) (i a : ℕ) :
    (pool.release size i a).heap = Function.update pool.heap a none := by simp [release]

theorem freelist_release (size : ℕ) (pool : Pool T) (i a : ℕ) :
    (pool.release size i a).freelist <:+ a :: pool.freelist := freelist_retire _ _ _

/-- Removing the first of the unswept objects permutes the others. -/
theorem swapRemove_append {α : Type} (xs : List α) (a : α) (rest : List α) :
    ∃ rest', rest'.Perm rest ∧ swapRemove (xs ++ a :: rest) xs.length = xs ++ rest' := by
  rcases List.eq_nil_or_concat rest with rfl | ⟨ys, y, rfl⟩
  · exact ⟨[], .refl _, by simp [swapRemove]⟩
  · refine ⟨y :: ys, ?_, ?_⟩
    · rw [List.concat_eq_append]
      exact (List.perm_append_singleton y ys).symm
    · have hsplit : xs ++ a :: ys.concat y = (xs ++ a :: ys) ++ [y] := by simp
      have hset : (xs ++ a :: ys ++ [y]).set xs.length y = xs ++ y :: ys ++ [y] := by
        simp [List.set_append_right]
      rw [swapRemove, hsplit, List.getLast?_concat]
      simp only [hset, List.dropLast_concat]

/-- The released object is gone and every other one stays. -/
theorem release_perm {pool : Pool T} {xs rest : List ℕ} {a : ℕ} (ho : pool.objects = xs ++ a :: rest)
    (size : ℕ) : (a :: (pool.release size xs.length a).objects).Perm pool.objects := by
  obtain ⟨rest', hp, hs⟩ := swapRemove_append xs a rest
  rw [objects_release, ho, hs]
  exact (List.perm_middle.symm).trans ((hp.cons a).append_left xs)

theorem mem_objects_release {pool : Pool T} (W : pool.Wf) {xs rest : List ℕ} {a b : ℕ}
    (ho : pool.objects = xs ++ a :: rest) (size : ℕ) :
    b ∈ (pool.release size xs.length a).objects ↔ b ∈ pool.objects ∧ b ≠ a := by
  have hperm := release_perm ho size
  have hnodup := List.nodup_cons.mp (hperm.nodup_iff.mpr W.objects_nodup)
  rw [← hperm.mem_iff, List.mem_cons]
  constructor
  · intro hb
    exact ⟨.inr hb, fun h => hnodup.1 (h ▸ hb)⟩
  · rintro ⟨hb, hne⟩
    exact hb.resolve_left hne

theorem get_release_of_ne {pool : Pool T} {size i a b : ℕ} (h : b ≠ a) :
    (pool.release size i a).get b = pool.get b := by simp [get, heap_release, h]

theorem Wf.release {pool : Pool T} (W : pool.Wf) {xs rest : List ℕ} {a : ℕ}
    (ho : pool.objects = xs ++ a :: rest) (size : ℕ) : (pool.release size xs.length a).Wf := by
  have hfree := freelist_release size pool xs.length a
  have hperm := release_perm ho size
  have hnodup := List.nodup_cons.mp (hperm.nodup_iff.mpr W.objects_nodup)
  have hmem : a ∈ pool.objects := hperm.subset (by simp)
  constructor
  · exact hnodup.2
  · exact (List.nodup_cons.mpr ⟨fun h => W.disjoint a h hmem, W.freelist_nodup⟩).sublist hfree.sublist
  · intro b hb hbo
    rcases List.mem_cons.mp (hfree.subset hb) with rfl | hb'
    · exact hnodup.1 hbo
    · exact W.disjoint b hb' (hperm.subset (List.mem_cons_of_mem a hbo))
  · intro b hb
    exact W.objects_range b (hperm.subset (List.mem_cons_of_mem a hb))
  · intro b hb
    rcases List.mem_cons.mp (hfree.subset hb) with rfl | hb'
    · exact W.objects_range b hmem
    · exact W.freelist_range b hb'
  · intro b hb
    have hne : b ≠ a := fun h => hnodup.1 (h ▸ hb)
    simpa [heap_release, hne] using W.mapped b (hperm.subset (List.mem_cons_of_mem a hb))

/-! ### The sweep loop -/

/-- A state of the loop: `swept` are the survivors so far, `rest` the objects still to visit. -/
structure SweepRule (size : ℕ) (cw : UInt8)
    (onFree : (ℕ → Option (GcBox T)) → T → σ → Except Fault σ)
    (I : List ℕ → List ℕ → Pool T → σ → Prop) : Prop where
  wf : ∀ {swept rest pool acc}, I swept rest pool acc → pool.Wf ∧ pool.objects = swept ++ rest
  keep : ∀ {swept a rest pool acc box}, I swept (a :: rest) pool acc → pool.heap a = some box →
    box.header.alive cw → I (swept ++ [a]) rest (pool.modifyHeader a GcHeader.survive) acc
  free : ∀ {swept a rest pool acc box}, I swept (a :: rest) pool acc → pool.heap a = some box →
    ¬ box.header.alive cw → ∃ acc', onFree pool.heap box.data acc = .ok acc' ∧
      ∀ rest', rest'.Perm rest →
        (pool.release size swept.length a).objects = swept ++ rest' →
        I swept rest' (pool.release size swept.length a) acc'

/-- The loop stops at its limit and at the end of the pool. -/
theorem sweepLimited_stop {size : ℕ} {cw : UInt8}
    {onFree : (ℕ → Option (GcBox T)) → T → σ → Except Fault σ} {pool : Pool T} {acc : σ}
    {swept rest : List ℕ} {limit : ℕ} (ho : pool.objects = swept ++ rest) (h : limit = 0 ∨ rest = []) :
    sweepLimited size cw onFree limit swept.length pool acc =
      .ok ({ pool with live := pool.objects.length }, acc, decide (rest = []), swept.length) := by
  have hdone : decide (pool.objects.length ≤ swept.length) = decide (rest = []) := by
    simp [ho, ← List.length_eq_zero_iff]
  rcases h with rfl | rfl
  · rw [sweepLimited, hdone]
  · cases limit <;> simp [sweepLimited, ho]

/-- Past the end of the pool nothing is left to sweep. -/
theorem sweepLimited_of_length_le {size : ℕ} {cw : UInt8}
    {onFree : (ℕ → Option (GcBox T)) → T → σ → Except Fault σ} {pool : Pool T} {acc : σ} {i : ℕ}
    (h : pool.objects.length ≤ i) (limit : ℕ) : sweepLimited size cw onFree limit i pool acc =
      .ok ({ pool with live := pool.objects.length }, acc, true, i) := by
  cases limit <;> simp [sweepLimited, h]

/-- A sweep step visits as many objects as its limit allows and keeps what each visit keeps. -/
theorem SweepRule.advance {size : ℕ} {cw : UInt8}
    {onFree : (ℕ → Option (GcBox T)) → T → σ → Except Fault σ}
    {I : List ℕ → List ℕ → Pool T → σ → Prop} (R : SweepRule size cw onFree I) (limit : ℕ)
    {swept rest : List ℕ} {pool : Pool T} {acc : σ} (hI : I swept rest pool acc) :
    ∃ pool' acc' kept rest', sweepLimited size cw onFree limit swept.length pool acc =
      .ok ({ pool' with live := pool'.objects.length }, acc', decide (rest' = []), kept.length) ∧
      I kept rest' pool' acc' ∧ rest'.length = rest.length - limit := by
  induction limit generalizing swept rest pool acc with
  | zero => exact ⟨pool, acc, swept, rest, sweepLimited_stop (R.wf hI).2 (.inl rfl), hI, by simp⟩
  | succ limit ih =>
    obtain ⟨W, ho⟩ := R.wf hI
    cases rest with
    | nil => exact ⟨pool, acc, swept, [], sweepLimited_stop ho (.inr rfl), hI, by simp⟩
    | cons a rest =>
      have hget : pool.objects[swept.length]? = some a := by simp [ho]
      have hmem : a ∈ pool.objects := by simp [ho]
      have hrange : ¬ (a ≤ 0x1000 ∨ ADDR_MAX ≤ a) := by
        have := W.objects_range a hmem
        simp only [InRange] at this
        omega
      obtain ⟨box, hbox⟩ := W.exists_box hmem
      cases halive : box.header.alive cw with
      | true =>
        have hkeep := R.keep hI hbox halive
        obtain ⟨pool', acc', kept, rest', hrun, hI', hlen⟩ := ih hkeep
        refine ⟨pool', acc', kept, rest', ?_, hI', by simpa using hlen⟩
        rw [sweepLimited]
        simpa [hget, hrange, hbox, halive] using hrun
      | false =>
        obtain ⟨acc₁, hfree, hnext⟩ := R.free hI hbox (by simp [halive])
        obtain ⟨rest₁, hp, hs⟩ := swapRemove_append swept a rest
        have hobj : (pool.release size swept.length a).objects = swept ++ rest₁ := by
          rw [objects_release, ho, hs]
        obtain ⟨pool', acc', kept, rest', hrun, hI', hlen⟩ := ih (hnext rest₁ hp hobj)
        refine ⟨pool', acc', kept, rest', ?_, hI', by simpa [hp.length_eq] using hlen⟩
        rw [sweepLimited]
        simpa [hget, hrange, hbox, halive, hfree] using hrun

/-- A sweep with a large enough limit visits every object once and keeps what each visit keeps. -/
theorem SweepRule.run {size : ℕ} {cw : UInt8}
    {onFree : (ℕ → Option (GcBox T)) → T → σ → Except Fault σ}
    {I : List ℕ → List ℕ → Pool T → σ → Prop} (R : SweepRule size cw onFree I)
    {limit : ℕ} {swept rest : List ℕ} {pool : Pool T} {acc : σ} (hI : I swept rest pool acc)
    (hl : rest.length ≤ limit) :
    ∃ pool' acc' kept, sweepLimited size cw onFree limit swept.length pool acc =
      .ok ({ pool' with live := pool'.objects.length }, acc', true, kept.length) ∧
      I kept [] pool' acc' := by
  obtain ⟨pool', acc', kept, rest', hrun, hI', hlen⟩ := R.advance limit hI
  obtain rfl : rest' = [] := List.eq_nil_of_length_eq_zero (by omega)
  exact ⟨pool', acc', kept, by simpa using hrun, hI'⟩

theorem SweepRule.sweepTricolor {size : ℕ} {cw : UInt8}
    {onFree : (ℕ → Option (GcBox T)) → T → σ → Except Fault σ}
    {I : List ℕ → List ℕ → Pool T → σ → Prop} (R : SweepRule size cw onFree I)
    {pool : Pool T} {acc : σ} (hI : I [] pool.objects pool acc) :
    ∃ pool' acc' kept, sweepTricolor size cw onFree pool acc =
      .ok ({ pool' with live := pool'.objects.length }, acc') ∧ I kept [] pool' acc' := by
  obtain ⟨pool', acc', kept, hrun, hI'⟩ := R.run hI (R.wf hI).1.length_le
  refine ⟨pool', acc', kept, ?_, hI'⟩
  rw [Pool.sweepTricolor, show (0 : ℕ) = ([] : List ℕ).length from rfl, hrun]
  rfl

end Pool
end LuajitRs
