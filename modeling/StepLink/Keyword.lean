import StepLink.Text.Blank

/-! Keywords. A feature file opens its steps with tokens, three of which name a logical keyword while the
others continue the step before them; a step definition is registered under one logical keyword or under
all of them. -/

namespace StepLink

inductive StepKeyword where
  | given
  | when
  | «then»
  deriving DecidableEq, Repr

inductive StepToken where
  /-- A token that names a keyword. -/
  | direct (k : StepKeyword)
  | and
  | but
  | star
  deriving DecidableEq, Repr

/-- The keyword that a definition is registered under. -/
inductive DefinitionKeyword where
  | only (k : StepKeyword)
  /-- Every keyword, which is what the decorator `step` registers. -/
  | any
  deriving DecidableEq, Repr

/-- A value that is no keyword of the kind asked for, without surrounding blanks. -/
structure UnknownKeyword where
  value : Text
  deriving DecidableEq, Repr

def UnknownKeyword.message (e : UnknownKeyword) : String :=
  "invalid step keyword: " ++ String.ofList e.value

/-- The keyword as a feature file writes it. -/
def StepKeyword.name : StepKeyword → String
  | given => "Given"
  | when => "When"
  | «then» => "Then"

/-- The token as a feature file writes it. -/
def StepToken.name : StepToken → String
  | direct k => k.name
  | and => "And"
  | but => "But"
  | star => "*"

/-- The keyword as a decorator writes it. -/
def DefinitionKeyword.name : DefinitionKeyword → String
  | only .given => "given"
  | only .when => "when"
  | only .«then» => "then"
  | any => "step"

/-- The tokens with their spellings, in any case of the letters. -/
def StepToken.table : List (Text × StepToken) :=
  [("given".toList, direct .given), ("when".toList, direct .when), ("then".toList, direct .«then»),
    ("and".toList, and), ("but".toList, but), ("*".toList, star)]

def StepToken.keyword? : StepToken → Option StepKeyword
  | direct k => some k
  | _ => none

/-- Read a token, ignoring surrounding blanks. -/
def StepToken.ofText (value : Text) : Except UnknownKeyword StepToken :=
  let value := Text.trim value
  match table.find? fun entry => Text.sameIgnoringCase value entry.1 with
  | some entry => .ok entry.2
  | none => .error ⟨value⟩

/-- Read a logical keyword; a token that continues another step is none. -/
def StepKeyword.ofText (value : Text) : Except UnknownKeyword StepKeyword :=
  match StepToken.ofText value with
  | .error e => .error e
  | .ok token =>
    match token.keyword? with
    | some k => .ok k
    | none => .error ⟨Text.trim value⟩

def DefinitionKeyword.ofText (value : Text) : Except UnknownKeyword DefinitionKeyword :=
  if Text.sameIgnoringCase (Text.trim value) "step".toList then .ok any
  else match StepKeyword.ofText value with
    | .ok k => .ok (only k)
    | .error e => .error e

/-- A definition under this keyword applies to steps of the logical keyword. -/
def DefinitionKeyword.accepts : DefinitionKeyword → StepKeyword → Bool
  | any, _ => true
  | only k, l => k == l

/-- The keyword of a step with this token where `context` is the keyword of the steps before it. A token that
names a keyword is its own context for the steps to come. -/
def StepToken.resolve (context : Option StepKeyword) (token : StepToken) : Option StepKeyword :=
  token.keyword?.or context

end StepLink
