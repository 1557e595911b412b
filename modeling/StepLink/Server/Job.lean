import StepLink.Protocol.Answer
import StepLink.Settings

/-! Background work of the server. A job is a list of actions; each action takes one step at a time, and what
is left of it takes its place. Calls on the two indexes may run side by side, so whose turn it is is a
parameter. -/

namespace StepLink

inductive Output where
  | published (p : Publication)
  | logged (w : Warning)

inductive Action where
  /-- Read a document anew, if it is a step module. -/
  | syncSteps (p : Path)
  /-- Read a document anew, if it is a feature file. -/
  | syncFeatures (p : Path)
  /-- Tell both indexes of a change on the disk. -/
  | follow (e : FileEvent)
  /-- Calls on the two indexes. -/
  | running (definitions usages : Call)
  /-- Show the diagnostics of all open documents. -/
  | refresh
  /-- The same, unless the definitions are still those of the given version. -/
  | refreshAfter (version : Nat)
  /-- Show the diagnostics of a document. -/
  | publish (p : Path)
  /-- Show no diagnostics for a document. -/
  | clear (p : Path)

/-- Actions that are taken one after the other. -/
abbrev Job := List Action

/-- Whose turn it is among calls that run side by side: the index, and the scan of its call. -/
structure Turn where
  corpus : Corpus
  scan : Nat
  deriving DecidableEq, Repr

namespace Indexes

def stepDefinitions (world : World) (pick : Nat) (x : Indexes) (c : Call) :
    Indexes × Call × List Observation :=
  let (s, c, seen) := c.step x.definitions.setup world pick x.definitions.state
  ({ x with definitions := { x.definitions with state := s } }, c, seen)

def stepUsages (world : World) (pick : Nat) (x : Indexes) (c : Call) :
    Indexes × Call × List Observation :=
  let (s, c, seen) := c.step x.usages.setup world pick x.usages.state
  ({ x with usages := { x.usages with state := s } }, c, seen)

def hasSteps (x : Indexes) (p : Path) : Indexes × Bool :=
  let (s, filter) := x.definitions.state.compiledFilter x.definitions.setup.root
  ({ x with definitions := { x.definitions with state := s } }, filter.accepts p)

def hasFeatures (x : Indexes) (p : Path) : Indexes × Bool :=
  let (s, filter) := x.usages.state.compiledFilter x.usages.setup.root
  ({ x with usages := { x.usages with state := s } }, filter.accepts p)

def definitionsVersion (x : Indexes) : Nat :=
  x.definitions.state.version

/-- The diagnostics to show for a document: those of an open feature file. -/
def publish (documents : Documents) (x : Indexes) (p : Path) : Indexes × List Publication :=
  match documents.get? p with
  | none => (x, [])
  | some document =>
    match x.hasFeatures p with
    | (x, false) => (x, [])
    | (x, true) =>
      let (x, found) := x.diagnose document.text
      (x, [⟨p, some document.version, found⟩])

def publishAll (documents : Documents) (x : Indexes) : List Path → Indexes × List Publication
  | [] => (x, [])
  | p :: rest =>
    let (x, first) := x.publish documents p
    let (x, others) := publishAll documents x rest
    (x, first ++ others)

end Indexes

/-- The part of what a call reports that is logged. -/
def Output.ofObservation? : Observation → Option Output
  | .warned w => some (.logged w)
  | .told _ _ _ => none

namespace Action

/-- The job that brings both indexes up to date with a document. -/
def sync (p : Path) : Job :=
  [syncSteps p, syncFeatures p]

def onDefinitions (c : Call) : Action :=
  running c (.ended false)

def onUsages (c : Call) : Action :=
  running (.ended false) c

def onCorpus : Corpus → Call → Action
  | .steps, c => onDefinitions c
  | .features, c => onUsages c

/-- Calls that run side by side, until both are over. -/
def continuing (definitions usages : Call) : Job :=
  if definitions.isEnded && usages.isEnded then [] else [running definitions usages]

/-- Take one step of an action: what is left to be done, and what becomes known. Nothing is shown where no
editor is connected. -/
def step (connected : Bool) (world : World) (turn : Turn) (x : Indexes) :
    Action → Indexes × Job × List Output
  | syncSteps p =>
    match x.hasSteps p with
    | (x, true) => (x, [onDefinitions (.scan { path := p }), refreshAfter x.definitionsVersion], [])
    | (x, false) => (x, [], [])
  | syncFeatures p =>
    match x.hasFeatures p with
    | (x, true) => (x, [onUsages (.scan { path := p }), publish p], [])
    | (x, false) => (x, [], [])
  | follow e => (x, [running (.ofEvent e) (.ofEvent e), refreshAfter x.definitionsVersion], [])
  | running definitions usages =>
    match turn.corpus with
    | .steps =>
      let (x, definitions, seen) := x.stepDefinitions world turn.scan definitions
      (x, continuing definitions usages, seen.filterMap Output.ofObservation?)
    | .features =>
      let (x, usages, seen) := x.stepUsages world turn.scan usages
      (x, continuing definitions usages, seen.filterMap Output.ofObservation?)
  | refresh =>
    if connected then
      let (x, shown) := x.publishAll world.documents world.documents.paths
      (x, [], shown.map .published)
    else (x, [], [])
  | refreshAfter version => (x, if x.definitionsVersion = version then [] else [refresh], [])
  | publish p =>
    if connected then
      let (x, shown) := x.publish world.documents p
      (x, [], shown.map .published)
    else (x, [], [])
  | clear p => (x, [], if connected then [.published ⟨p, none, []⟩] else [])

/-- Whose turn it is where nothing else interferes: the call on the definitions goes first. -/
def nextTurn : Action → Turn
  | running definitions usages =>
    if definitions.isEnded then ⟨.features, usages.nextPick⟩ else ⟨.steps, definitions.nextPick⟩
  | _ => ⟨.steps, 0⟩

end Action

end StepLink
