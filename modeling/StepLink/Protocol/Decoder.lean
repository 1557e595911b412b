import StepLink.Json.Printer
import StepLink.Uri

/-! Reading the parameters of messages. A value of another shape than expected gives an error that says what was
found and what was expected. Of several errors the one of the member with the least key counts, and a member
that is missing counts only where all others can be read. -/

namespace StepLink

/-- A value that was read, or what is wrong with its written form. -/
abbrev Decoded (α : Type) := Except String α

namespace Json

def describe : Json → String
  | null => "null"
  | bool true => "boolean `true`"
  | bool false => "boolean `false`"
  | integer n => "integer `" ++ String.ofList (printInt n) ++ "`"
  | fraction written => "floating point `" ++ String.ofList written ++ "`"
  | string t => "string " ++ String.ofList (printString t)
  | array _ => "sequence"
  | object _ => "map"

def unexpected {α : Type} (expected : String) (j : Json) : Decoded α :=
  .error s!"invalid type: {j.describe}, expected {expected}"

/-- Read a value of one shape. -/
def decodeShape {α : Type} (expected : String) (value? : Json → Option α) (j : Json) : Decoded α :=
  match value? j with
  | some a => .ok a
  | none => unexpected expected j

def decodeText : Json → Decoded Text :=
  decodeShape "a string" text?

def decodeBool : Json → Decoded Bool :=
  decodeShape "a boolean" bool?

/-- Read a number that fits. An integer that does not is refused for its value, anything else for its shape. -/
def decodeFitting {α : Type} (expected : String) (value? : Json → Option α) (fits : α → Bool) (j : Json) :
    Decoded α :=
  match (value? j).filter fits, j with
  | some a, _ => .ok a
  | none, integer n => .error s!"invalid value: {(integer n).describe}, expected {expected}"
  | none, j => unexpected expected j

/-- Read an unsigned integer of 32 bits. -/
def decodeNat : Json → Decoded Nat :=
  decodeFitting "u32" nat? fun n => n ≤ 0xFFFFFFFF

/-- Read a signed integer of 32 bits. -/
def decodeInt : Json → Decoded Int :=
  decodeFitting "i32" int? fun n => -0x80000000 ≤ n && n ≤ 0x7FFFFFFF

def decodeUri : Json → Decoded Uri
  | string t =>
    match Uri.ofText? t with
    | some u => .ok u
    | none =>
      let cause := if (Uri.splitScheme? (Uri.clean t)).isSome then "invalid host" else "relative URL without a base"
      .error s!"invalid value: {(string t).describe}, expected {cause}"
  | j => unexpected "a string representing an URL" j

/-- Check that a value is an object. -/
def decodeObject (name : String) : Json → Decoded Unit
  | object _ => .ok ()
  | j => unexpected s!"struct {name}" j

def decodeList {α : Type} (item : Json → Decoded α) (j : Json) : Decoded (List α) := do
  (← decodeShape "a sequence" items? j).mapM item

def decodePresent {α : Type} (key : String) (value : Json → Decoded α) (j : Json) : Decoded (Option α) :=
  match j.get? key with
  | some v => (value v).map some
  | none => .ok none

def require {α : Type} (key : String) : Option α → Decoded α
  | some a => .ok a
  | none => .error s!"missing field `{key}`"

def decodeMember {α : Type} (key : String) (value : Json → Decoded α) (j : Json) : Decoded α := do
  require key (← decodePresent key value j)

/-- Read a member that may be missing or null. -/
def decodeOptional {α : Type} (key : String) (value : Json → Decoded α) (j : Json) : Decoded (Option α) :=
  match j.getSome? key with
  | some v => (value v).map some
  | none => .ok none

end Json

end StepLink
