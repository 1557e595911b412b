import StepLink.Feature.Inheritance
import StepLink.Index.Definitions
import StepLink.Index.Usages

/-! The two indexes of a workspace and the look-up of the definitions of a step, whose latest answers are kept
for the version of the index that they were found in. -/

namespace StepLink

structure Indexes where
  definitions : DefinitionIndex
  usages : UsageIndex
  lookups : Lru (Nat × Option StepKeyword × Text) (List Definition)

structure DefinitionPlace where
  path : Path
  line : Nat
  column : Nat
  deriving DecidableEq, Repr

/-- The place of a definition: that of its decorator. -/
def Definition.location (d : Definition) : DefinitionPlace :=
  ⟨d.path, d.line, d.column⟩

namespace Indexes

/-- The number of look-ups that are kept. -/
def lookupCapacity : Nat := 256

def new (root : Path) (definitions usages : Selection) (batchSize maxReplays : Nat) : Indexes where
  definitions := .new root definitions batchSize maxReplays
  usages := .new root usages batchSize maxReplays
  lookups := .empty lookupCapacity

def lookup (x : Indexes) (keyword : Option StepKeyword) (text : Text) : Indexes × List Definition :=
  let key := (x.definitions.state.version, keyword, Text.trim text)
  match x.lookups.find? key with
  | some found => ({ x with lookups := x.lookups.touch key }, found)
  | none =>
    let (definitions, found) := x.definitions.accepting keyword text
    ({ x with definitions := definitions, lookups := x.lookups.put key found }, found)

/-- The places of the definitions of the step on a line; none where the line is no step. -/
def definitionsAt (x : Indexes) (lineAt : Nat → Option Text) (line : Nat) : Indexes × List DefinitionPlace :=
  match (lineAt line).bind StepLine.ofLine? with
  | none => (x, [])
  | some step =>
    let (x, found) := x.lookup (effectiveKeyword lineAt line) step.text
    (x, found.map Definition.location)

end Indexes

end StepLink
