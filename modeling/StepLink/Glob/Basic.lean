import StepLink.Regex.Matching
import StepLink.Text.Bytes

/-! Globs, which select paths by the bytes of their UTF-8 form. Case is ignored for ASCII letters, and a
separator is matched only by itself, by a set that lists it, and by the doubled star between separators. -/

namespace StepLink

inductive ByteSet where
  /-- The byte, and the same letter in the other case. -/
  | byte (b : UInt8)
  | any
  | anyButSlash
  /-- The bytes of some ranges, case ignored, or all the others. -/
  | ranges (negated : Bool) (spans : List (UInt8 × UInt8))
  deriving DecidableEq

/-- The byte with the case of an ASCII letter changed. -/
def swapCase (b : UInt8) : UInt8 :=
  if 0x41 ≤ b && b ≤ 0x5a then b + 0x20 else if 0x61 ≤ b && b ≤ 0x7a then b - 0x20 else b

def ByteSet.holds : ByteSet → UInt8 → Bool
  | byte a, b => a == b || a == swapCase b
  | any, _ => true
  | anyButSlash, b => b != 0x2f
  | ranges negated spans, b =>
    (spans.any fun (first, last) => (first ≤ b && b ≤ last) || (first ≤ swapCase b && swapCase b ≤ last))
      != negated

namespace Glob

abbrev Expression := Regex ByteSet

inductive Item where
  | literal (c : Char)
  /-- `?` -/
  | any
  /-- `*` -/
  | star
  /-- `**` at the front of a glob or of an alternative, with the separator after it. -/
  | leading
  /-- `**` at the end, with the separator before it. -/
  | trailing
  /-- `**` with the separators around it. -/
  | between
  | set (negated : Bool) (ranges : List (Char × Char))
  | choice (alternatives : List Expression)
  deriving DecidableEq

def sequence : List Expression → Expression
  | [] => .empty
  | [e] => e
  | e :: rest => .seq e (sequence rest)

/-- A choice between expressions; none at all is the empty text. -/
def choose : List Expression → Expression
  | [] => .empty
  | [e] => e
  | e :: rest => .alt e (choose rest)

def slash : Expression :=
  .chars (.byte 0x2f) .once

/-- Any text. A doubled star stands for it wherever it may cross directories, and a line feed counts as any
other byte there. -/
def anything : Expression :=
  .chars .any .zeroOrMore

/-- The byte ranges of a range of characters: the ends of a range count as their bytes, of which the last
of the first character and the first of the last one delimit the range. -/
def byteRanges (range : Char × Char) : List (UInt8 × UInt8) :=
  let single (b : UInt8) := (b, b)
  let first := String.utf8EncodeChar range.1
  let last := String.utf8EncodeChar range.2
  if range.1 = range.2 then first.map single
  else first.dropLast.map single ++ [(first.getLast?.getD 0, last.headD 0)] ++ last.tail.map single

def Item.expression : Item → Expression
  | literal c => sequence ((String.utf8EncodeChar c).map fun b => .chars (.byte b) .once)
  | any => .chars .anyButSlash .once
  | star => .chars .anyButSlash .zeroOrMore
  | leading => .alt (.chars (.byte 0x2f) .optional) (.seq anything slash)
  | trailing => .seq slash anything
  | between => .alt slash (.seq slash (.seq anything slash))
  | set negated ranges => .chars (.ranges negated (ranges.flatMap byteRanges)) .once
  | choice alternatives => choose alternatives

/-- A part that stands for nothing. -/
def Item.isVoid : Item → Bool
  | choice [] => true
  | _ => false

/-- The expression of a glob. A leading doubled star alone selects everything. -/
def expression : List Item → Expression
  | [.leading] => anything
  | items => sequence (items.map Item.expression)

/-- The part that a group in braces stands for: empty alternatives are dropped. -/
def Item.ofAlternatives (alternatives : List (List Item)) : Item :=
  .choice ((alternatives.filter fun items => !items.all isVoid).map fun items =>
    sequence (items.map Item.expression))

end Glob

end StepLink
