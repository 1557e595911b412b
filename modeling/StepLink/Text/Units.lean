import StepLink.Text.Basic

/-! Columns in UTF-16 code units, by which editors address a line, and their conversion from and to byte
offsets. -/

namespace StepLink.Text

/-- The UTF-16 code units of a character: two from U+10000 on. -/
def unitsOf (c : Char) : Nat :=
  if c.toNat ≤ 0xffff then 1 else 2

/-- The length of a text in UTF-16 code units. -/
def units (t : Text) : Nat :=
  t.foldr (fun c n => unitsOf c + n) 0

/-- The column of a byte offset: the units of the characters that start before it. -/
def columnOfByte : Text → Nat → Nat
  | [], _ => 0
  | c :: t, byte => if byte = 0 then 0 else unitsOf c + columnOfByte t (byte - c.utf8Size)

/-- The byte offset of a column. A column inside a character goes to its start, one past the end of the line
to the end. -/
def byteOfColumn : Text → Nat → Nat
  | [], _ => 0
  | c :: t, column =>
    if unitsOf c > column then 0 else c.utf8Size + byteOfColumn t (column - unitsOf c)

/-- The part of a text before a byte offset, cut at a character boundary not after it. -/
def takeBytes : Text → Nat → Text
  | [], _ => []
  | c :: t, n => if c.utf8Size ≤ n then c :: takeBytes t (n - c.utf8Size) else []

/-- The largest line or column number that a position can hold. -/
def maxPosition : Nat := 0xFFFFFFFF

/-- A line index as a position holds it. -/
def lineNumber (index : Nat) : Nat :=
  min index maxPosition

theorem lineNumber_eq {index : Nat} (h : index ≤ maxPosition) : lineNumber index = index :=
  Nat.min_eq_left h

end StepLink.Text
