import StepLink.Pattern.Snippet
import StepLink.Query.Lookup
import StepLink.Text.Lowercase

/-! Completion: the definitions that may follow the keyword of a step, those first whose pattern starts with
what has been typed already. -/

namespace StepLink

structure Candidate where
  pattern : Text
  snippet : Text
  location : DefinitionPlace
  keyword : DefinitionKeyword
  function : Option Text
  deriving DecidableEq, Repr

def Candidate.ofDefinition (d : Definition) : Candidate :=
  ⟨d.pattern, Snippet.ofPattern d.pattern, d.location, d.keyword, d.function⟩

namespace Completion

/-- Keep the first definition of each pattern. -/
def firstOfEachPattern (seen : List Text) : List Definition → List Definition
  | [] => []
  | d :: rest =>
    if seen.contains d.pattern then firstOfEachPattern seen rest
    else d :: firstOfEachPattern (d.pattern :: seen) rest

/-- The definitions of a pool that fit what has been typed, in the order in which they are offered. -/
def select (pool : List Definition) (typed : Text) : List Definition :=
  let lowered := (firstOfEachPattern [] pool).map fun d => (Text.lowercase d.pattern, d)
  let ordered := lowered.mergeSort fun a b => !decide (b.1 < a.1)
  let needle := Text.lowercase (Text.trim typed)
  let chosen :=
    if needle.isEmpty then ordered
    else (ordered.filter fun entry => Text.isWithin needle entry.1).mergeSort fun a b =>
      needle.isPrefixOf a.1 || !needle.isPrefixOf b.1
  chosen.map (·.2)

end Completion

namespace Indexes

/-- The definitions offered for a keyword, or for every keyword where there is none. -/
def complete (x : Indexes) (keyword : Option StepKeyword) (typed : Text) : Indexes × List Candidate :=
  let (definitions, pool) := x.definitions.pool keyword
  ({ x with definitions := definitions }, (Completion.select pool typed).map Candidate.ofDefinition)

/-- The keyword of a step that is being typed on a line, after its token. -/
def typedKeyword (lineAt : Nat → Option Text) (line : Nat) (token : StepToken) (typed : Text) :
    Option StepKeyword :=
  match token.keyword? with
  | some k => some k
  | none =>
    let written := token.name.toList ++ ' ' :: typed
    effectiveKeyword (fun i => if i = line then some written else lineAt i) line

def completeAt (x : Indexes) (lineAt : Nat → Option Text) (line : Nat) (token typed : Text) :
    Indexes × List Candidate :=
  match StepToken.ofText token with
  | .error _ => (x, [])
  | .ok token => x.complete (typedKeyword lineAt line token typed) typed

end Indexes

end StepLink
