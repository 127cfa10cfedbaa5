import Mathlib.Data.Nat.Log
import Mathlib.Tactic.Common
import Mathlib.Tactic.Ring
import Mathlib.Data.List.Basic
import Mathlib.Order.Basic
import Mathlib.Data.Nat.Init
import Mathlib.Tactic.Linarith
import Mathlib.Tactic.Positivity
import Mathlib.Algebra.Order.Ring.Int

/-! Numbers in little-endian bytes, and the window of a byte string that a store replaces. -/
namespace LuajitRs.Lib.Bytes

/-- The `w` low bytes of a number, least significant first. -/
def toLE : ℕ → ℕ → List UInt8
  | 0, _ => []
  | w + 1, n => UInt8.ofNat n :: toLE w (n / 256)

def ofLE : List UInt8 → ℕ
  | [] => 0
  | b :: bs => b.toNat + 256 * ofLE bs

@[simp] theorem length_toLE (w n : ℕ) : (toLE w n).length = w := by
  induction w generalizing n with
  | zero => rfl
  | succ w ih => rw [toLE, List.length_cons, ih]

@[simp] theorem ofLE_toLE (w n : ℕ) : ofLE (toLE w n) = n % 256^w := by
  induction w generalizing n with
  | zero => rw [toLE, ofLE, pow_zero, Nat.mod_one]
  | succ w ih =>
    have hmod : n % 256^(w + 1) = n % 256 + 256 * (n / 256 % 256^w) := by rw [pow_succ', Nat.mod_mul]
    rw [toLE, ofLE, ih, UInt8.toNat_ofNat', hmod]

/-- Only the number modulo the width counts. -/
theorem toLE_mod (w n : ℕ) : toLE w (n % 256^w) = toLE w n := by
  induction w generalizing n with
  | zero => rfl
  | succ w ih =>
    have hhead : UInt8.ofNat (n % 256^(w + 1)) = UInt8.ofNat n := by
      apply UInt8.toNat_inj.mp
      rw [UInt8.toNat_ofNat', UInt8.toNat_ofNat', pow_succ']
      exact Nat.mod_mul_right_mod n 256 (256^w)
    have htail : n % 256^(w + 1) / 256 = n / 256 % 256^w := by
      rw [pow_succ', Nat.mod_mul_right_div_self]
    rw [toLE, toLE, hhead, htail, ih]

theorem toLE_inj {w m n : ℕ} : toLE w m = toLE w n ↔ m % 256^w = n % 256^w := by
  constructor
  · intro h
    rw [← ofLE_toLE w m, ← ofLE_toLE w n, h]
  · intro h
    rw [← toLE_mod w m, ← toLE_mod w n, h]

theorem toLE_zero (w : ℕ) : toLE w 0 = List.replicate w 0 := by
  induction w with
  | zero => rfl
  | succ w ih => rw [toLE, Nat.zero_div, ih, List.replicate_succ]; rfl

theorem toLE_add (v w n : ℕ) : toLE (v + w) n = toLE v n ++ toLE w (n / 256^v) := by
  induction v generalizing n with
  | zero => rw [Nat.zero_add, pow_zero, Nat.div_one]; rfl
  | succ v ih =>
    rw [Nat.add_right_comm, toLE, toLE, ih, List.cons_append, Nat.div_div_eq_div_mul, ← pow_succ']

/-! ### Windows -/

section Window
variable (d b : List UInt8) {a n k : ℕ}

/-- The `n` bytes from position `a` on. -/
def window (d : List UInt8) (a n : ℕ) : List UInt8 := (d.drop a).take n

/-- The bytes `b` stored at position `a`. -/
def splice (d : List UInt8) (a : ℕ) (b : List UInt8) : List UInt8 := d.take a ++ b ++ d.drop (a + b.length)

variable {d b}

theorem length_window (h : a + n ≤ d.length) : (window d a n).length = n := by
  rw [window, List.length_take, List.length_drop]
  omega

theorem length_splice (h : a + b.length ≤ d.length) : (splice d a b).length = d.length := by
  rw [splice, List.length_append, List.length_append, List.length_take, List.length_drop]
  omega

theorem window_splice (h : a + b.length ≤ d.length) : window (splice d a b) a b.length = b := by
  have ha : (d.take a).length = a := List.length_take_of_le (by omega)
  rw [window, splice, List.append_assoc, List.drop_append_of_le_length ha.ge, List.drop_of_length_le ha.le,
    List.nil_append, List.take_left]

/-- A byte outside of the window stays. -/
theorem getElem?_splice (h : a + b.length ≤ d.length) (hk : k < a ∨ a + b.length ≤ k) :
    (splice d a b)[k]? = d[k]? := by
  have ha : (d.take a).length = a := List.length_take_of_le (by omega)
  rw [splice, List.append_assoc]
  cases hk with
  | inl hk => rw [List.getElem?_append_left (by omega), List.getElem?_take_of_lt hk]
  | inr hk =>
    rw [List.getElem?_append_right (by omega), List.getElem?_append_right (by omega), List.getElem?_drop]
    congr 1
    omega

end Window

end LuajitRs.Lib.Bytes

/-! UTF-8 with lossy decoding. Each maximal part of a broken sequence becomes one replacement
character, so the characters before the first broken sequence are kept and the rest grows by a
bounded amount only. -/
namespace LuajitRs.Lib.Utf8

def encode (cs : List Char) : List UInt8 := cs.flatMap String.utf8EncodeChar

/-- The character that the bytes begin with. -/
def decode? (bs : List UInt8) : Option Char := bs.toByteArray.utf8DecodeChar? 0

def isContinuation (b : UInt8) : Bool := 0x80 ≤ b ∧ b ≤ 0xBF

/-- A second byte of a sequence of three or four bytes that some character has. -/
def isSecond (b c : UInt8) : Bool :=
  if b = 0xE0 then 0xA0 ≤ c ∧ c ≤ 0xBF
  else if b = 0xED then 0x80 ≤ c ∧ c ≤ 0x9F
  else if b = 0xF0 then 0x90 ≤ c ∧ c ≤ 0xBF
  else if b = 0xF4 then 0x80 ≤ c ∧ c ≤ 0x8F
  else 0xE1 ≤ b ∧ b ≤ 0xF3 ∧ isContinuation c

/-- How many bytes one replacement character stands for. -/
def brokenLength : List UInt8 → ℕ
  | b :: c :: ds =>
    if isSecond b c then if 0xF0 ≤ b ∧ ds.head?.any isContinuation then 3 else 2 else 1
  | _ => 1

/-- The decoding, with the number of bytes that belong to the character before. -/
def lossy : ℕ → List UInt8 → List Char
  | _, [] => []
  | n + 1, _ :: bs => lossy n bs
  | 0, b :: bs =>
    match decode? (b :: bs) with
    | some c => c :: lossy (c.utf8Size - 1) bs
    | none => '\uFFFD' :: lossy (brokenLength (b :: bs) - 1) bs

example : lossy 0 [0x61, 0xE2, 0x82, 0x62, 0xC3, 0xA9] = ['a', '\uFFFD', 'b', 'é'] := by decide

theorem lossy_skip (n : ℕ) (bs : List UInt8) : lossy n bs = lossy 0 (bs.drop n) := by
  induction bs generalizing n with
  | nil => simp [lossy]
  | cons b bs ih =>
    cases n with
    | zero => rfl
    | succ n => exact ih n

theorem decode?_append (c : Char) (bs : List UInt8) :
    decode? (String.utf8EncodeChar c ++ bs) = some c := by
  rw [decode?, List.toByteArray_append]
  exact ByteArray.utf8DecodeChar?_utf8EncodeChar_append

theorem lossy_append (c : Char) (bs : List UInt8) :
    lossy 0 (String.utf8EncodeChar c ++ bs) = c :: lossy 0 bs := by
  have hlen := String.length_utf8EncodeChar c
  have hdec := decode?_append c bs
  cases henc : String.utf8EncodeChar c with
  | nil =>
    rw [henc] at hlen
    exact absurd hlen (Nat.ne_of_lt c.utf8Size_pos)
  | cons b cs =>
    rw [henc, List.length_cons] at hlen
    rw [henc, List.cons_append] at hdec
    rw [List.cons_append, lossy, hdec]
    simp only
    rw [lossy_skip, List.drop_append_of_le_length (by omega), List.drop_eq_nil_of_le (by omega),
      List.nil_append]

/-- What was encoded is read back. -/
theorem lossy_encode (cs : List Char) : lossy 0 (encode cs) = cs := by
  induction cs with
  | nil => rfl
  | cons c cs ih =>
    rw [encode, List.flatMap_cons, lossy_append]
    exact congrArg (c :: ·) ih

theorem length_encode_le (cs : List Char) : (encode cs).length ≤ 4 * cs.length := by
  induction cs with
  | nil => exact Nat.le_refl 0
  | cons c cs ih =>
    have hc := c.utf8Size_le_four
    simp only [encode, List.flatMap_cons, List.length_append, String.length_utf8EncodeChar,
      List.length_cons] at ih ⊢
    omega

theorem length_lossy_le (n : ℕ) (bs : List UInt8) : (lossy n bs).length ≤ bs.length := by
  induction bs generalizing n with
  | nil => simp [lossy]
  | cons b bs ih =>
    cases n with
    | succ n => exact Nat.le_succ_of_le (ih n)
    | zero =>
      rw [lossy]
      split
      · exact Nat.succ_le_succ (ih _)
      · exact Nat.succ_le_succ (ih _)

theorem length_encode_lossy_le (bs : List UInt8) : (encode (lossy 0 bs)).length ≤ 4 * bs.length :=
  Nat.le_trans (length_encode_le _) (Nat.mul_le_mul_left 4 (length_lossy_le 0 bs))

/-- A cut text is read back with at most one broken sequence more than it has bytes. -/
theorem length_lossy_take_le (cs : List Char) (n : ℕ) :
    (encode (lossy 0 ((encode cs).take n))).length ≤ n + 12 := by
  induction cs generalizing n with
  | nil => simp [encode, lossy]
  | cons c cs ih =>
    have hlen := String.length_utf8EncodeChar c
    by_cases hn : c.utf8Size ≤ n
    · have hcut : (encode (c :: cs)).take n =
          String.utf8EncodeChar c ++ (encode cs).take (n - c.utf8Size) := by
        rw [encode, List.flatMap_cons, List.take_append, hlen, List.take_of_length_le (by omega)]
        rfl
      have hrest := ih (n - c.utf8Size)
      rw [hcut, lossy_append, encode, List.flatMap_cons, List.length_append, hlen]
      rw [encode] at hrest
      omega
    · have hfour := c.utf8Size_le_four
      have hbound := length_encode_lossy_le ((encode (c :: cs)).take n)
      have htake : ((encode (c :: cs)).take n).length ≤ n := List.length_take_le n _
      omega

/-- So a text that loses more than that is not read back. -/
theorem lossy_take_ne {cs : List Char} {n : ℕ} (h : n + 12 < (encode cs).length) :
    lossy 0 ((encode cs).take n) ≠ cs := by
  intro heq
  have hle := length_lossy_take_le cs n
  rw [heq] at hle
  omega

end LuajitRs.Lib.Utf8

/-! When a shift or a rotation leaves a word as it is. -/
namespace LuajitRs.Lib.Words

variable {w : ℕ} (x : BitVec w) {k : ℕ}

theorem shiftLeft_eq_self (hk : 0 < k) : x <<< k = x ↔ x = 0#w := by
  constructor
  · intro h
    apply BitVec.eq_of_getLsbD_eq
    intro i
    -- A bit is the one `k` places lower, and the lowest bits are zero.
    induction i using Nat.strongRecOn with
    | ind i ih =>
      intro hi
      rw [← h, BitVec.getLsbD_shiftLeft, BitVec.getLsbD_zero]
      by_cases hik : i < k
      · simp [hik]
      · have := ih (i - k) (by omega) (by omega)
        rw [BitVec.getLsbD_zero] at this
        simp [this]
  · rintro rfl
    exact BitVec.zero_shiftLeft k

theorem sshiftRight_eq_self (hk : 0 < k) : x.sshiftRight k = x ↔ x.toInt = 0 ∨ x.toInt = -1 := by
  have hpow : (2 : ℤ) ≤ 2^k := by
    calc (2 : ℤ) = 2^1 := by norm_num
      _ ≤ 2^k := pow_le_pow_right₀ (by norm_num) hk
  rw [← BitVec.toInt_inj, BitVec.toInt_sshiftRight, Int.shiftRight_eq_div_pow]
  generalize x.toInt = a
  push_cast
  constructor
  · intro h
    have hdiv := Int.mul_ediv_add_emod a (2^k)
    have hmod := Int.emod_nonneg a (show (2 : ℤ)^k ≠ 0 by positivity)
    have hlt := Int.emod_lt_of_pos a (show (0 : ℤ) < 2^k by positivity)
    rw [h] at hdiv
    have hlo : -1 ≤ a := by nlinarith
    have hhi : a ≤ 0 := by nlinarith
    omega
  · rintro (rfl | rfl)
    · exact Int.zero_ediv _
    · rw [Int.neg_one_ediv, Int.sign_eq_one_of_pos (by positivity)]

/-- The word has the period `k`. -/
def Periodic (k : ℕ) : Prop := ∀ i < w, x.getLsbD i = x.getLsbD ((i + k) % w)

theorem periodic_zero : Periodic x 0 := by
  intro i hi
  rw [Nat.add_zero, Nat.mod_eq_of_lt hi]

theorem rotateRight_eq_self (hk : k < w) : x.rotateRight k = x ↔ Periodic x k := by
  have hbit (i : ℕ) (hi : i < w) : (x.rotateRight k).getLsbD i = x.getLsbD ((i + k) % w) := by
    rw [BitVec.getLsbD_rotateRight, Nat.mod_eq_of_lt hk]
    by_cases hik : i < w - k
    · rw [Nat.mod_eq_of_lt (by omega)]
      simp [hik, Nat.add_comm]
    · have hmod : (i + k) % w = i - (w - k) := by
        rw [Nat.mod_eq_sub_mod (by omega), Nat.mod_eq_of_lt (by omega)]
        omega
      simp [hik, hi, hmod]
  constructor
  · intro h i hi
    rw [← hbit i hi, h]
  · intro h
    apply BitVec.eq_of_getLsbD_eq
    intro i hi
    rw [hbit i hi, ← h i hi]

theorem rotateLeft_eq_self (hk : k < w) : x.rotateLeft k = x ↔ Periodic x k := by
  have hbit (i : ℕ) (hi : i < w) : (x.rotateLeft k).getLsbD ((i + k) % w) = x.getLsbD i := by
    rw [BitVec.getLsbD_rotateLeft, Nat.mod_eq_of_lt hk]
    by_cases hik : i < w - k
    · rw [Nat.mod_eq_of_lt (by omega)]
      simp [show ¬ i + k < k by omega, show i + k < w by omega]
    · have hmod : (i + k) % w = i - (w - k) := by
        rw [Nat.mod_eq_sub_mod (by omega), Nat.mod_eq_of_lt (by omega)]
        omega
      have hback : w - k + (i - (w - k)) = i := by omega
      simp [hmod, show i - (w - k) < k by omega, hback]
  constructor
  · intro h i hi
    rw [← hbit i hi, h]
  · intro h
    apply BitVec.eq_of_getLsbD_eq
    intro j hj
    -- Every place is `k` places above another.
    obtain ⟨i, hi, rfl⟩ : ∃ i < w, (i + k) % w = j := by
      refine ⟨(j + (w - k)) % w, Nat.mod_lt _ (by omega), ?_⟩
      rw [Nat.mod_add_mod, show j + (w - k) + k = j + w by omega, Nat.add_mod_right, Nat.mod_eq_of_lt hj]
    rw [hbit i hi, h i hi]

end LuajitRs.Lib.Words
