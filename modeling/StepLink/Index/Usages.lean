import StepLink.Feature.Occurrence
import StepLink.Index.Buckets
import StepLink.Index.Call
import StepLink.Index.Lru

/-! The index of step occurrences, with the occurrences of each keyword kept until the index changes, and the
matchers of the patterns that were searched for last. A pattern that cannot be compiled is kept as such, so
that it is reported once. -/

namespace StepLink

structure UsageIndex where
  setup : IndexSetup Occurrence
  state : IndexState Occurrence
  buckets : Option (Buckets StepKeyword Occurrence)
  matchers : Lru Text (Option Matcher)

namespace UsageIndex

/-- The number of patterns whose matchers are kept. -/
def matcherCapacity : Nat := 128

def new (root : Path) (globs : Selection) (batchSize maxReplays : Nat) : UsageIndex where
  setup := { root, parse := Occurrence.ofText, report := fun _ _ => [], same := Occurrence.same,
             batchSize, maxReplays }
  state := .new globs
  buckets := none
  matchers := .empty matcherCapacity

def keywords : List StepKeyword :=
  [.given, .when, .«then»]

/-- The occurrences by keyword, as of now. -/
def sorted (x : UsageIndex) : UsageIndex × Buckets StepKeyword Occurrence :=
  let (state, items) := x.state.snapshot
  let b := Buckets.refresh x.buckets keywords (·.effective) state.version items
  ({ x with state := state, buckets := some b }, b)

def all (x : UsageIndex) : UsageIndex × List Occurrence :=
  let (state, items) := x.state.snapshot
  ({ x with state := state }, items)

/-- The matcher of a pattern, compiled unless it is kept. -/
def matcher (x : UsageIndex) (pattern : Text) : UsageIndex × Option Matcher × List Warning :=
  match x.matchers.find? pattern with
  | some found => ({ x with matchers := x.matchers.touch pattern }, found, [])
  | none =>
    match Matcher.ofPattern pattern with
    | .ok m => ({ x with matchers := x.matchers.put pattern (some m) }, some m, [])
    | .error e => ({ x with matchers := x.matchers.put pattern none }, none, [.unsearchable e])

/-- The occurrences among which a definition under a keyword finds its steps. -/
def candidates (b : Buckets StepKeyword Occurrence) : Option DefinitionKeyword → List Occurrence
  | some (.only k) => b.group k
  | some .any => b.all
  | none => b.all

/-- The occurrences that a pattern accepts. -/
def accepted (x : UsageIndex) (pattern : Text) (keyword : Option DefinitionKeyword) :
    UsageIndex × List Occurrence × List Warning :=
  match x.matcher pattern with
  | (x, none, warnings) => (x, [], warnings)
  | (x, some m, warnings) =>
    let (x, b) := x.sorted
    (x, (candidates b keyword).filter fun o => m.accepts (Text.trim o.text), warnings)

end UsageIndex

end StepLink
