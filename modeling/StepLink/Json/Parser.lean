import StepLink.Json.Basic
import StepLink.Text.Hex

/-! Reading JSON values. -/

namespace StepLink.Json

def isSpace (c : Char) : Bool :=
  c == ' ' || c == '\t' || c == '\n' || c == '\r'

def skip (t : Text) : Text :=
  t.dropWhile isSpace

def unit? (a b c d : Char) : Option Nat := do
  let a ← Text.hexValue? a
  let b ← Text.hexValue? b
  let c ← Text.hexValue? c
  let d ← Text.hexValue? d
  some (((a * 16 + b) * 16 + c) * 16 + d)

def isHigh (n : Nat) : Bool :=
  0xd800 ≤ n && n < 0xdc00

def isLow (n : Nat) : Bool :=
  0xdc00 ≤ n && n < 0xe000

def joined (high low : Nat) : Char :=
  Char.ofNat (0x10000 + (high - 0xd800) * 0x400 + (low - 0xdc00))

def shortEscape? : Char → Option Char
  | '"' => some '"'
  | '\\' => some '\\'
  | '/' => some '/'
  | 'b' => some '\x08'
  | 'f' => some '\x0c'
  | 'n' => some '\n'
  | 'r' => some '\r'
  | 't' => some '\t'
  | _ => none

/-- Read a string after its opening quote; `read` holds its characters so far, the last one first, and `high` the
first of two units whose second one has to follow. -/
def readString? (high : Option Nat) (read : Text) : Text → Option (Text × Text)
  | [] => none
  | '\\' :: 'u' :: a :: b :: c :: d :: t =>
    match unit? a b c d, high with
    | none, _ => none
    | some n, some first => if isLow n then readString? none (joined first n :: read) t else none
    | some n, none =>
      if isHigh n then readString? (some n) read t
      else if isLow n then none
      else readString? none (Char.ofNat n :: read) t
  | '\\' :: c :: t =>
    match shortEscape? c, high with
    | some c, none => readString? none (c :: read) t
    | _, _ => none
  | c :: t =>
    if high.isSome then none
    else if c == '"' then some (read.reverse, t)
    else if c == '\\' || c.toNat < 0x20 then none
    else readString? none (c :: read) t

def decimalValue (digits : Text) : Nat :=
  digits.foldl (fun n c => n * 10 + (c.toNat - '0'.toNat)) 0

/-- Read the digits of a fraction or an exponent, of which there must be one. -/
def readDigits? (t : Text) : Option (Text × Text) :=
  match t.takeWhile Char.isDigit with
  | [] => none
  | digits => some (digits, t.dropWhile Char.isDigit)

def readFraction? : Text → Option (Text × Text)
  | '.' :: t => (readDigits? t).map fun (digits, t) => ('.' :: digits, t)
  | t => some ([], t)

def readExponent? : Text → Option (Text × Text)
  | c :: t =>
    if c == 'e' || c == 'E' then
      match t with
      | '+' :: t => (readDigits? t).map fun (digits, t) => (c :: '+' :: digits, t)
      | '-' :: t => (readDigits? t).map fun (digits, t) => (c :: '-' :: digits, t)
      | t => (readDigits? t).map fun (digits, t) => (c :: digits, t)
    else some ([], c :: t)
  | [] => some ([], [])

def readNumber? (negative : Bool) (t : Text) : Option (Json × Text) := do
  let (whole, t) ← readDigits? t
  if whole.length > 1 && whole.head? == some '0' then none
  let (part, t) ← readFraction? t
  let (power, t) ← readExponent? t
  let sign : Text := if negative then ['-'] else []
  if part.isEmpty && power.isEmpty then
    let n : Int := decimalValue whole
    if negative && n == 0 then some (.fraction (sign ++ whole), t)
    else some (.integer (if negative then -n else n), t)
  else some (.fraction (sign ++ whole ++ part ++ power), t)

/-- What follows a word. -/
def readWord? (word : String) (j : Json) (t : Text) : Option (Json × Text) :=
  if word.toList.isPrefixOf t then some (j, t.drop word.length) else none

mutual

/-- Read a value; the fuel bounds the number of parts read. -/
def readValue? : Nat → Text → Option (Json × Text)
  | 0, _ => none
  | fuel + 1, t =>
    match skip t with
    | '"' :: t => (readString? none [] t).map fun (s, t) => (.string s, t)
    | '[' :: t =>
      match skip t with
      | ']' :: t => some (.array [], t)
      | t => (readItems? fuel t).map fun (items, t) => (.array items, t)
    | '{' :: t =>
      match skip t with
      | '}' :: t => some (.object [], t)
      | t => (readMembers? fuel t).map fun (members, t) => (.object members, t)
    | 'n' :: t => readWord? "null" .null ('n' :: t)
    | 't' :: t => readWord? "true" (.bool true) ('t' :: t)
    | 'f' :: t => readWord? "false" (.bool false) ('f' :: t)
    | '-' :: t => readNumber? true t
    | t => readNumber? false t

/-- Read the items of an array up to its closing bracket. -/
def readItems? : Nat → Text → Option (List Json × Text)
  | 0, _ => none
  | fuel + 1, t =>
    match readValue? fuel t with
    | none => none
    | some (item, t) =>
      match skip t with
      | ',' :: t => (readItems? fuel t).map fun (items, t) => (item :: items, t)
      | ']' :: t => some ([item], t)
      | _ => none

/-- Read the members of an object up to its closing brace. -/
def readMembers? : Nat → Text → Option (List (Text × Json) × Text)
  | 0, _ => none
  | fuel + 1, t =>
    match skip t with
    | '"' :: t =>
      match readString? none [] t with
      | none => none
      | some (key, t) =>
        match skip t with
        | ':' :: t =>
          match readValue? fuel t with
          | none => none
          | some (value, t) =>
            match skip t with
            | ',' :: t => (readMembers? fuel t).map fun (members, t) => ((key, value) :: members, t)
            | '}' :: t => some ([(key, value)], t)
            | _ => none
        | _ => none
    | _ => none

end

def parse? (t : Text) : Option Json :=
  match readValue? (2 * t.length + 2) t with
  | some (j, rest) => if (skip rest).isEmpty then some j else none
  | none => none

end StepLink.Json
