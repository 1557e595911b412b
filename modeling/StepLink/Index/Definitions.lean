import StepLink.Index.Buckets
import StepLink.Index.Call

/-! The index of step definitions, with the definitions of each keyword kept until the index changes. -/

namespace StepLink

structure DefinitionIndex where
  setup : IndexSetup Definition
  state : IndexState Definition
  buckets : Option (Buckets DefinitionKeyword Definition)

namespace DefinitionIndex

def new (root : Path) (globs : Selection) (batchSize maxReplays : Nat) : DefinitionIndex where
  setup := { root, parse := Definition.ofText, report := Definition.uncompilable, same := Definition.same,
             batchSize, maxReplays }
  state := .new globs
  buckets := none

def keywords : List DefinitionKeyword :=
  [.only .given, .only .when, .only .«then», .any]

/-- The definitions by keyword, as of now. -/
def sorted (x : DefinitionIndex) : DefinitionIndex × Buckets DefinitionKeyword Definition :=
  let (state, items) := x.state.snapshot
  let b := Buckets.refresh x.buckets keywords (fun d => some d.keyword) state.version items
  ({ x with state := state, buckets := some b }, b)

def all (x : DefinitionIndex) : DefinitionIndex × List Definition :=
  let (state, items) := x.state.snapshot
  ({ x with state := state }, items)

/-- The definitions for steps of a keyword: those registered under it, then those registered under all. -/
def forKeyword (x : DefinitionIndex) (k : StepKeyword) : DefinitionIndex × List Definition :=
  let (x, b) := x.sorted
  (x, b.group (.only k) ++ b.group .any)

def pool (x : DefinitionIndex) : Option StepKeyword → DefinitionIndex × List Definition
  | some k => x.forKeyword k
  | none => x.all

def accepting (x : DefinitionIndex) (keyword : Option StepKeyword) (text : Text) :
    DefinitionIndex × List Definition :=
  let (x, candidates) := x.pool keyword
  (x, candidates.filter fun d => d.accepts text)

end DefinitionIndex

end StepLink
