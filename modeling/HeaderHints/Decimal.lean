import HeaderHints.Text.Basic

/-!
# Decimal numbers

Line numbers and counts are machine words, written in decimal.
-/

namespace HeaderHints.Decimal

/-- One more than the largest machine word. -/
def wordSize : Nat :=
  18446744073709551616

/-- The digits of a number. -/
def write (n : Nat) : Text :=
  Nat.toDigits 10 n

/-- The number that digits stand for. -/
def value (digits : Text) : Nat :=
  digits.foldl (fun n c => n * 10 + (c.toNat - '0'.toNat)) 0

end HeaderHints.Decimal
