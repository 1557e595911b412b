import StepLink.Json.Basic
import StepLink.Text.Hex

/-! The written form of JSON values, without blanks. Of the characters of a string only the quote, the
backslash and the control characters are escaped. -/

namespace StepLink.Json

/-- A character inside a string. -/
def printChar (c : Char) : Text :=
  if c = '"' then ['\\', '"']
  else if c = '\\' then ['\\', '\\']
  else if c = '\n' then ['\\', 'n']
  else if c = '\r' then ['\\', 'r']
  else if c = '\t' then ['\\', 't']
  else if c.toNat < 0x20 then ['\\', 'u', '0', '0', Text.hexDigit (c.toNat / 16), Text.hexDigit c.toNat]
  else [c]

def printString (t : Text) : Text :=
  '"' :: t.flatMap printChar ++ ['"']

def printInt : Int → Text
  | .ofNat n => Nat.toDigits 10 n
  | .negSucc n => '-' :: Nat.toDigits 10 (n + 1)

mutual

/-- The written form of a value, before the given text. -/
def printBefore (rest : Text) : Json → Text
  | .null => "null".toList ++ rest
  | .bool true => "true".toList ++ rest
  | .bool false => "false".toList ++ rest
  | .integer n => printInt n ++ rest
  | .fraction written => written ++ rest
  | .string t => printString t ++ rest
  | .array items => '[' :: printItems rest items
  | .object members => '{' :: printMembers rest members

/-- The items of an array up to its closing bracket. -/
def printItems (rest : Text) : List Json → Text
  | [] => ']' :: rest
  | [item] => printBefore (']' :: rest) item
  | item :: items => printBefore (',' :: printItems rest items) item

/-- The members of an object up to its closing brace. -/
def printMembers (rest : Text) : List (Text × Json) → Text
  | [] => '}' :: rest
  | [(key, value)] => printString key ++ ':' :: printBefore ('}' :: rest) value
  | (key, value) :: members =>
    printString key ++ ':' :: printBefore (',' :: printMembers rest members) value

end

def print (j : Json) : Text :=
  printBefore [] j

end StepLink.Json
