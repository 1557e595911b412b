import StepLink.Text.Basic

/-! Hexadecimal digits. -/

namespace StepLink.Text

/-- The value of a hexadecimal digit in either case. -/
def hexValue? (c : Char) : Option Nat :=
  if c.isDigit then some (c.toNat - '0'.toNat)
  else if 'a' ≤ c && c ≤ 'f' then some (c.toNat - 'a'.toNat + 10)
  else if 'A' ≤ c && c ≤ 'F' then some (c.toNat - 'A'.toNat + 10)
  else none

/-- The digit of a number modulo sixteen, in lower case. -/
def hexDigit (n : Nat) : Char :=
  Nat.digitChar (n % 16)

/-- The digit of a number modulo sixteen, in upper case. -/
def upperHexDigit (n : Nat) : Char :=
  (hexDigit n).toUpper

end StepLink.Text
