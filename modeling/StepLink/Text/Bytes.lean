import StepLink.Text.Hex

/-! The UTF-8 form of a text, and percent-coding, by which bytes stand in a URI as a percent sign and two
hexadecimal digits. -/

namespace StepLink.Text

/-- The UTF-8 form of a text. -/
def bytes (t : Text) : List UInt8 :=
  t.flatMap String.utf8EncodeChar

/-- The part of a text from a byte offset on, if a character starts there or the text ends there. -/
def fromByte? : Nat → Text → Option Text
  | 0, t => some t
  | _ + 1, [] => none
  | n + 1, c :: t => if c.utf8Size ≤ n + 1 then fromByte? (n + 1 - c.utf8Size) t else none

/-- The text of a UTF-8 form. -/
def ofBytes? (bytes : List UInt8) : Option Text :=
  (String.fromUTF8? (ByteArray.mk bytes.toArray)).map String.toList

def percentByte (b : UInt8) : Text :=
  ['%', upperHexDigit (b.toNat / 16), upperHexDigit b.toNat]

def percentEncode (coded : Char → Bool) (t : Text) : Text :=
  t.flatMap fun c => if coded c then (String.utf8EncodeChar c).flatMap percentByte else [c]

/-- The bytes of a percent-coded text. A percent sign that no two digits follow stands for itself. -/
def percentBytes : Text → List UInt8
  | '%' :: a :: b :: t =>
    match hexValue? a, hexValue? b with
    | some high, some low => UInt8.ofNat (high * 16 + low) :: percentBytes t
    | _, _ => String.utf8EncodeChar '%' ++ percentBytes (a :: b :: t)
  | c :: t => String.utf8EncodeChar c ++ percentBytes t
  | [] => []

/-- Undo percent-coding; the bytes may be those of no text. -/
def percentDecode? (t : Text) : Option Text :=
  ofBytes? (percentBytes t)

end StepLink.Text
