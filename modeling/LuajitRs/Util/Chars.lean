import Mathlib.Data.Nat.Init
import Mathlib.Data.UInt
import Mathlib.Tactic.Common

/-! Bytes read as ASCII characters, with the classes of the standard library. A statement about every
byte is decidable, so facts about character tables are settled by evaluation. -/
namespace LuajitRs

/-- The byte of an ASCII character, `b'c'`. -/
abbrev ch (c : Char) : UInt8 := UInt8.ofNat c.toNat

instance decidableForallByte {p : UInt8 → Prop} [DecidablePred p] : Decidable (∀ b, p b) :=
  decidable_of_iff (∀ n : Fin 256, p (UInt8.ofFin n))
    ⟨fun h b => h b.toFin, fun h _ => h _⟩

namespace Ascii

def isDigit (b : UInt8) : Bool := ch '0' ≤ b && b ≤ ch '9'
def isUppercase (b : UInt8) : Bool := ch 'A' ≤ b && b ≤ ch 'Z'
def isLowercase (b : UInt8) : Bool := ch 'a' ≤ b && b ≤ ch 'z'
def isAlphabetic (b : UInt8) : Bool := isUppercase b || isLowercase b
def isAlphanumeric (b : UInt8) : Bool := isAlphabetic b || isDigit b
def isHexdigit (b : UInt8) : Bool :=
  isDigit b || (ch 'A' ≤ b && b ≤ ch 'F') || (ch 'a' ≤ b && b ≤ ch 'f')
def isControl (b : UInt8) : Bool := b < 32 || b = 127
def isGraphic (b : UInt8) : Bool := 33 ≤ b && b ≤ 126
def isPunctuation (b : UInt8) : Bool := isGraphic b && !isAlphanumeric b
/-- Space, tab, line feed, form feed and carriage return. -/
def isWhitespace (b : UInt8) : Bool := b = 32 || b = 9 || b = 10 || b = 12 || b = 13
def toLowercase (b : UInt8) : UInt8 := if isUppercase b then b + 32 else b
def toUppercase (b : UInt8) : UInt8 := if isLowercase b then b - 32 else b

end Ascii

/-- The decimal digits of a number below `10^k`. -/
def decimalUpTo : ℕ → ℕ → List UInt8
  | 0, _ => []
  | k+1, n => if n < 10 then [ch '0' + UInt8.ofNat n] else decimalUpTo k (n / 10) ++ [ch '0' + UInt8.ofNat (n % 10)]

theorem toNat_digit {n : ℕ} (hn : n < 10) :
    Ascii.isDigit (ch '0' + UInt8.ofNat n) = true ∧ (ch '0' + UInt8.ofNat n - ch '0').toNat = n := by
  have hall : ∀ n < 10, Ascii.isDigit (ch '0' + UInt8.ofNat n) = true ∧ (ch '0' + UInt8.ofNat n - ch '0').toNat = n := by
    decide
  exact hall n hn

theorem isDigit_decimalUpTo (k n : ℕ) : ∀ c ∈ decimalUpTo k n, Ascii.isDigit c = true := by
  induction k generalizing n with
  | zero => simp [decimalUpTo]
  | succ k ih =>
    rw [decimalUpTo]
    split
    next hlt => exact List.forall_mem_singleton.mpr (toNat_digit hlt).1
    next hge =>
      intro c hc
      obtain hc | hc := List.mem_append.mp hc
      · exact ih _ c hc
      · rw [List.mem_singleton.mp hc]
        exact (toNat_digit (Nat.mod_lt n (by decide))).1

end LuajitRs
