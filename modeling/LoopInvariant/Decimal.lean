import LoopInvariant.CheckedInt
/-!
# Decimal numerals

Numerals are runs of the ten ASCII digits, most significant first. Main statement: `read?_write`.
-/

namespace LoopInvariant.Decimal

/-- The numeral of a number, without leading zeros. -/
def write (n : Nat) : List Char := Nat.toDigits 10 n

/-- The number of a nonempty run of digits; leading zeros are allowed. -/
def read? (cs : List Char) : Option Nat :=
  if cs ≠ [] ∧ cs.all Char.isDigit then some (Nat.ofDigitChars 10 cs 0) else none

/-- A numeral below `2 ^ 64`. -/
def readWord? (cs : List Char) : Option Nat := (read? cs).filter (· < 18446744073709551616)

/-- A numeral below `2 ^ 64`, after at most one plus sign. -/
def readUnsigned? : List Char → Option Nat
  | '+' :: cs => readWord? cs
  | cs => readWord? cs

/-- A 64-bit integer, after at most one sign. -/
def readSigned? (cs : List Char) : Option Int64 :=
  let i : Option Int :=
    match cs with
    | '-' :: ds => (read? ds).map fun n => -n
    | '+' :: ds => (read? ds).map Int.ofNat
    | ds => (read? ds).map Int.ofNat
  i.bind checkedInt64

theorem read?_write (n : Nat) : read? (write n) = some n := by
  have hne : write n ≠ [] := Nat.toDigits_ne_nil
  have hall : (write n).all Char.isDigit = true :=
    List.all_eq_true.2 fun c hc => Nat.isDigit_of_mem_toDigits (by decide) (by decide) hc
  rw [read?, if_pos ⟨hne, hall⟩, write, Nat.ofDigitChars_toDigits (by decide) (by decide)]

end LoopInvariant.Decimal
