import StepLink.Text.Basic

/-! JSON values. The members of an object are kept in the order in which they were written. -/

namespace StepLink

inductive Json where
  | null
  | bool (b : Bool)
  | integer (n : Int)
  /-- A number with a fraction or an exponent, as it is written. -/
  | fraction (written : Text)
  | string (t : Text)
  | array (items : List Json)
  | object (members : List (Text × Json))
  deriving Repr, Inhabited

namespace Json

/-- The member of an object; of several with one key the last counts. -/
def get? (key : String) : Json → Option Json
  | object members => (members.reverse.find? fun m => m.1 == key.toList).map (·.2)
  | _ => none

/-- The member of an object, unless it is missing or null. -/
def getSome? (key : String) (j : Json) : Option Json :=
  match j.get? key with
  | some null => none
  | other => other

def text? : Json → Option Text
  | string t => some t
  | _ => none

def int? : Json → Option Int
  | integer n => some n
  | _ => none

def nat? : Json → Option Nat
  | integer (.ofNat n) => some n
  | _ => none

def bool? : Json → Option Bool
  | bool b => some b
  | _ => none

def items? : Json → Option (List Json)
  | array items => some items
  | _ => none

def texts? (j : Json) : Option (List Text) :=
  j.items?.bind fun items => items.mapM text?

def ofString (s : String) : Json :=
  string s.toList

def ofNat (n : Nat) : Json :=
  integer n

def ofMembers (members : List (String × Json)) : Json :=
  object (members.map fun m => (m.1.toList, m.2))

end Json

end StepLink
