import Mathlib.Algebra.Order.BigOperators.Group.List
import Mathlib.Algebra.Order.Group.Nat
import Mathlib.Data.List.Basic
import Mathlib.Data.Nat.Init
import Mathlib.Data.UInt
import Mathlib.Tactic.Common

/-! Decoders of binary formats that fail abruptly. A decoder consumes a list of tokens and keeps the
sizes of the allocations it asked for, also when it fails. A `Format` says which token strings a
piece of data has and what they mean; `Decodes` says that a decoder returns on the strings of the
format and on no others. -/
namespace LuajitRs.Lib.Decoder

/-- The tokens that are left, and the sizes of the allocations requested so far. -/
structure Input (τ : Type*) where
  rest : List τ
  requests : List ℕ
  deriving DecidableEq, Repr

abbrev Dec (τ ε : Type) (α : Type) := EStateM ε (Input τ) α

/-- The written forms of a type of data: the wire form `ω` carries what the tokens determine and the
value may forget. -/
structure Format (τ ω α : Type) where
  Fits : ω → Prop
  tokens : ω → List τ
  value : ω → α
  /-- What a decoder requests on the way. -/
  requests : ω → List ℕ

variable {τ ε ω ω' α β : Type} {m : Dec τ ε α} {f : α → Dec τ ε β} {F : Format τ ω α}

/-- The decoder turns exactly the tokens `ts` into `a`, whatever follows them. -/
def Yields (m : Dec τ ε α) (ts : List τ) (a : α) (log : List ℕ) : Prop :=
  ∀ tail reqs, m ⟨ts ++ tail, reqs⟩ = .ok a ⟨tail, reqs ++ log⟩

/-- The decoder accepts the format and nothing else. -/
structure Decodes (m : Dec τ ε α) (F : Format τ ω α) : Prop where
  complete : ∀ w, F.Fits w → Yields m (F.tokens w) (F.value w) (F.requests w)
  sound : ∀ {i a j}, m i = .ok a j → ∃ w, F.Fits w ∧ F.value w = a ∧ i.rest = F.tokens w ++ j.rest

/-! ### Sequencing -/

theorem ok_bind {i j : Input τ} {b : β} (h : (m >>= f) i = .ok b j) :
    ∃ a k, m i = .ok a k ∧ f a k = .ok b j := by
  simp only [bind, EStateM.bind] at h
  cases hm : m i with
  | ok a k => exact ⟨a, k, rfl, by simpa only [hm] using h⟩
  | error e k => simp [hm] at h

theorem bind_ok {i j : Input τ} {a : α} (h : m i = .ok a j) : (m >>= f) i = f a j := by
  simp only [bind, EStateM.bind, h]

theorem yields_pure (a : α) : Yields (pure a : Dec τ ε α) [] a [] := by
  intro tail reqs
  simp [Pure.pure, EStateM.pure]

theorem Yields.bind {ts us : List τ} {a : α} {b : β} {log log' : List ℕ} (hm : Yields m ts a log)
    (hf : Yields (f a) us b log') : Yields (m >>= f) (ts ++ us) b (log ++ log') := by
  intro tail reqs
  rw [List.append_assoc, bind_ok (hm (us ++ tail) reqs), hf tail (reqs ++ log), List.append_assoc]

theorem Yields.cast {ts us : List τ} {a b : α} {log log' : List ℕ} (h : Yields m ts a log)
    (ht : ts = us) (ha : a = b) (hl : log = log') : Yields m us b log' := ht ▸ ha ▸ hl ▸ h

theorem Yields.map {ts : List τ} {a : α} {log : List ℕ} (hm : Yields m ts a log) (g : α → β) :
    Yields (do let a ← m; pure (g a)) ts (g a) log := by
  have h := hm.bind (f := fun a => (pure (g a) : Dec τ ε β)) (yields_pure (g a))
  exact h.cast (List.append_nil ts) rfl (List.append_nil log)

/-- What an accepting run read first, and the run that followed. -/
theorem Decodes.ok_bind (h : Decodes m F) {i j : Input τ} {b : β} (hi : (m >>= f) i = .ok b j) :
    ∃ w k, F.Fits w ∧ i.rest = F.tokens w ++ k.rest ∧ f (F.value w) k = .ok b j := by
  obtain ⟨a, k, hm, hf⟩ := Decoder.ok_bind hi
  obtain ⟨w, hw, rfl, hr⟩ := h.sound hm
  exact ⟨w, k, hw, hr, hf⟩

/-- Read through a function of the value. -/
def Format.map (F : Format τ ω α) (g : α → β) : Format τ ω β := { F with value := g ∘ F.value }

theorem Decodes.map (h : Decodes m F) (g : α → β) : Decodes (do let a ← m; pure (g a)) (F.map g) where
  complete w hw := (h.complete w hw).map g
  sound hi := by
    obtain ⟨w, k, hw, hr, hp⟩ := h.ok_bind hi
    cases hp
    exact ⟨w, hw, rfl, hr⟩

/-- Ask for `size` units of memory. -/
def request (size : ℕ) : Dec τ ε Unit :=
  fun i => .ok () { i with requests := i.requests ++ [size] }

theorem request_yields (size : ℕ) : Yields (request size : Dec τ ε Unit) [] () [size] :=
  fun _ _ => rfl

/-! ### Slices -/

/-- The next `n` tokens, or the failure `e` when fewer are left. -/
def slice (e : ε) (n : ℕ) : Dec τ ε (List τ) := fun i =>
  if n ≤ i.rest.length then .ok (i.rest.take n) { i with rest := i.rest.drop n } else .error e i

/-- Strings of a given length, as they are. -/
def Format.raw (n : ℕ) : Format τ (List τ) (List τ) := ⟨fun w => w.length = n, id, id, fun _ => []⟩

theorem slice_decodes (e : ε) (n : ℕ) : Decodes (slice e n) (Format.raw n : Format τ _ _) where
  complete w hw := by
    subst hw
    intro tail reqs
    simp [slice, Format.raw]
  sound {i a j} h := by
    unfold slice at h
    split at h
    · next hn =>
      cases h
      exact ⟨i.rest.take n, by simp [Format.raw, hn], rfl, (List.take_append_drop ..).symm⟩
    · cases h

/-! ### Sequences -/

/-- `n` times the decoder. -/
def times : ℕ → Dec τ ε α → Dec τ ε (List α)
  | 0, _ => pure []
  | n + 1, m => do
    let a ← m
    let as ← times n m
    pure (a :: as)

def Format.times (n : ℕ) (F : Format τ ω α) : Format τ (List ω) (List α) where
  Fits ws := ws.length = n ∧ ∀ w ∈ ws, F.Fits w
  tokens ws := ws.flatMap F.tokens
  value ws := ws.map F.value
  requests ws := ws.flatMap F.requests

theorem Decodes.times (h : Decodes m F) (n : ℕ) : Decodes (Decoder.times n m) (F.times n) where
  complete ws := by
    induction ws generalizing n with
    | nil =>
      rintro ⟨rfl, -⟩
      exact yields_pure []
    | cons w ws ih =>
      rintro ⟨rfl, hall⟩
      have hw := h.complete w (hall w (by simp))
      have hws := ih ws.length ⟨rfl, fun v hv => hall v (by simp [hv])⟩
      exact hw.bind (hws.map fun as => F.value w :: as)
  sound := by
    induction n with
    | zero =>
      intro i a j hi
      cases hi
      exact ⟨[], ⟨rfl, by simp⟩, rfl, rfl⟩
    | succ n ih =>
      intro i a j hi
      obtain ⟨w, k, hw, hr, hi⟩ := h.ok_bind hi
      obtain ⟨bs, l, hbs, hi⟩ := Decoder.ok_bind hi
      obtain ⟨ws, ⟨rfl, hall⟩, rfl, hr'⟩ := ih hbs
      cases hi
      refine ⟨w :: ws, ⟨rfl, ?_⟩, rfl, by simp [Format.times, hr, hr']⟩
      intro v hv
      cases hv with
      | head => exact hw
      | tail _ hv => exact hall v hv

/-- A vector with room for `n` elements of `size` units, filled by `n` reads. -/
def vec (size n : ℕ) (m : Dec τ ε α) : Dec τ ε (List α) := do
  request (size * n)
  times n m

def Format.vec (size n : ℕ) (F : Format τ ω α) : Format τ (List ω) (List α) :=
  { F.times n with requests := fun ws => size * n :: ws.flatMap F.requests }

theorem Decodes.vec (h : Decodes m F) (size n : ℕ) :
    Decodes (Decoder.vec size n m) (F.vec size n) where
  complete ws hws := by
    apply ((request_yields (size * n)).bind ((h.times n).complete ws hws)).cast <;> rfl
  sound hi := by
    obtain ⟨_, k, hk, hi⟩ := Decoder.ok_bind hi
    cases hk
    have hs := (h.times n).sound hi
    exact hs

/-! ### Memory -/

/-- No single request on the way exceeds `c` units for each token of the written form. -/
def Format.Frugal (c : ℕ) (F : Format τ ω α) : Prop :=
  ∀ w, F.Fits w → ∀ r ∈ F.requests w, r ≤ c * (F.tokens w).length

theorem length_le_flatMap {ws : List ω} {w : ω} (g : ω → List τ) (hw : w ∈ ws) :
    (g w).length ≤ (ws.flatMap g).length := by
  rw [List.length_flatMap]
  exact List.le_sum_of_mem (List.mem_map_of_mem hw)

theorem mul_length_le_flatMap {ws : List ω} {k : ℕ} (g : ω → List τ) (hk : ∀ w ∈ ws, k ≤ (g w).length) :
    k * ws.length ≤ (ws.flatMap g).length := by
  induction ws with
  | nil => simp
  | cons w ws ih =>
    have hw := hk w (by simp)
    have hws := ih fun v hv => hk v (by simp [hv])
    simp only [List.length_cons, List.flatMap_cons, List.length_append, Nat.mul_add]
    omega

/-- Room for elements is paid for by the tokens of the elements. -/
theorem Format.Frugal.vec {c k size n : ℕ} (hF : F.Frugal c) (hk : ∀ w, F.Fits w → k ≤ (F.tokens w).length)
    (hs : size ≤ c * k) : (F.vec size n).Frugal c := by
  rintro ws ⟨rfl, hall⟩ r hr
  cases hr with
  | head =>
    have hlen := mul_length_le_flatMap F.tokens fun w hw => hk w (hall w hw)
    calc size * ws.length ≤ c * k * ws.length := Nat.mul_le_mul_right _ hs
      _ = c * (k * ws.length) := Nat.mul_assoc ..
      _ ≤ c * (ws.flatMap F.tokens).length := Nat.mul_le_mul_left _ hlen
  | tail _ hr =>
    obtain ⟨w, hw, hr⟩ := List.mem_flatMap.mp hr
    calc r ≤ c * (F.tokens w).length := hF w (hall w hw) r hr
      _ ≤ c * (ws.flatMap F.tokens).length := Nat.mul_le_mul_left _ (length_le_flatMap _ hw)

/-! ### Little-endian numbers -/

/-- The `k` low bytes of a number, least significant first. -/
def le : ℕ → ℕ → List UInt8
  | 0, _ => []
  | k + 1, v => UInt8.ofNat v :: le k (v / 256)

def ofLe : List UInt8 → ℕ
  | [] => 0
  | b :: bs => b.toNat + 256 * ofLe bs

@[simp] theorem length_le (k v : ℕ) : (le k v).length = k := by
  induction k generalizing v with
  | zero => rfl
  | succ k ih => simp [le, ih]

theorem ofLe_le (k v : ℕ) : ofLe (le k v) = v % 256^k := by
  induction k generalizing v with
  | zero => simp [le, ofLe, Nat.mod_one]
  | succ k ih =>
    rw [le, ofLe, ih, Nat.pow_succ', Nat.mod_mul (a := 256), UInt8.toNat_ofNat']

theorem ofLe_lt (bs : List UInt8) : ofLe bs < 256^bs.length := by
  induction bs with
  | nil => simp [ofLe]
  | cons b bs ih =>
    have hb := b.toNat_lt
    rw [ofLe, List.length_cons, Nat.pow_succ']
    omega

theorem le_ofLe (bs : List UInt8) : le bs.length (ofLe bs) = bs := by
  induction bs with
  | nil => rfl
  | cons b bs ih =>
    have hb := b.toNat_lt
    have hdiv : (b.toNat + 256 * ofLe bs) / 256 = ofLe bs := by omega
    have hhead : UInt8.ofNat (b.toNat + 256 * ofLe bs) = b := by
      rw [← UInt8.toNat_inj, UInt8.toNat_ofNat']
      omega
    rw [ofLe, List.length_cons, le, hdiv, hhead, ih]

/-- Numbers in `k` bytes. -/
def Format.leNat (k : ℕ) : Format UInt8 ℕ ℕ := ⟨fun v => v < 256^k, le k, id, fun _ => []⟩

theorem leNat_decodes (e : ε) (k : ℕ) :
    Decodes (do let bs ← slice e k; pure (ofLe bs)) (Format.leNat k) where
  complete v hv := by
    have hs := (slice_decodes e k).complete (le k v) (length_le k v)
    exact (hs.map ofLe).cast rfl ((ofLe_le k v).trans (Nat.mod_eq_of_lt hv)) rfl
  sound hi := by
    obtain ⟨w, hw, rfl, hr⟩ := ((slice_decodes e k).map ofLe).sound hi
    subst hw
    exact ⟨ofLe w, ofLe_lt w, rfl, hr.trans (congrArg (· ++ _) (le_ofLe w).symm)⟩

/-- The bytes of a fixed width determine what follows them. -/
theorem le_append_inj {k u v : ℕ} {xs ys : List UInt8} (hu : u < 256^k) (hv : v < 256^k)
    (h : le k u ++ xs = le k v ++ ys) : u = v ∧ xs = ys := by
  obtain ⟨hle, hrest⟩ := List.append_inj h (by simp)
  refine ⟨?_, hrest⟩
  have := congrArg ofLe hle
  rwa [ofLe_le, ofLe_le, Nat.mod_eq_of_lt hu, Nat.mod_eq_of_lt hv] at this

end LuajitRs.Lib.Decoder
