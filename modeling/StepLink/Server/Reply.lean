import StepLink.Feature.PartialStep
import StepLink.Query.Completion
import StepLink.Query.References
import StepLink.Server.State

/-! How the server answers requests. From a step in a feature file the editor is led to its definitions, from a
decorator in a step module to the steps that it matches, and after the token of a step it is offered the
definitions that may follow. A document of the other corpus, one that cannot be read and one without a path
have no answer. -/

namespace StepLink

/-- A definition is shown at the start of its decorator. -/
def DefinitionPlace.place (l : DefinitionPlace) : Place :=
  ⟨l.path, .inLine l.line l.column l.column⟩

/-- A usage is shown as the text of its step. -/
def UsagePlace.place (l : UsagePlace) : Place :=
  ⟨l.path, .inLine l.line l.column (min (l.column + l.length) Text.maxPosition)⟩

namespace CompletionItem

/-- The text that orders an entry: its rank with at least five digits. -/
def sortTextOf (rank : Nat) : Text :=
  let digits := Nat.toDigits 10 rank
  List.replicate (5 - digits.length) '0' ++ digits

/-- The entry for a candidate of a rank. A function is named where there is one, otherwise the file. -/
def ofCandidate (replaced : Span) (rank : Nat) (c : Candidate) : CompletionItem where
  label := c.pattern
  detail := c.function.or c.location.path.fileName?
  sortText := sortTextOf rank
  replaced := replaced
  snippet := c.snippet

def ofCandidates (replaced : Span) (candidates : List Candidate) : List CompletionItem :=
  candidates.zipIdx.map fun (c, rank) => ofCandidate replaced rank c

end CompletionItem

namespace Indexes

/-- The definitions of the step at a position of a feature file. -/
def answerDefinition (world : World) (x : Indexes) (p : Path) (cursor : Position) : Indexes × Answer :=
  match x.hasFeatures p with
  | (x, false) => (x, .nothing)
  | (x, true) =>
    match world.read p with
    | .error _ => (x, .nothing)
    | .ok text =>
      let table := (Text.lines text).toArray
      match x.definitionsAt (fun i => table[i]?) cursor.line with
      | (x, []) => (x, .nothing)
      | (x, found) => (x, .places (found.map DefinitionPlace.place))

/-- The steps that the decorators at a position of a step module match. -/
def answerReferences (world : World) (x : Indexes) (p : Path) (cursor : Position) :
    Indexes × Except Failure Answer × List Warning :=
  match x.hasSteps p with
  | (x, false) => (x, .ok .nothing, [])
  | (x, true) =>
    match world.read p with
    | .error _ => (x, .ok .nothing, [])
    | .ok text =>
      match x.usagesAt (Text.lines text) cursor.line with
      | (x, .error e, warnings) => (x, .error (.missingLocation e.message), warnings)
      | (x, .ok found, warnings) => (x, .ok (.places (found.map UsagePlace.place)), warnings)

/-- What is offered at a position of a line whose part before the cursor has been split. -/
def answerTyped (x : Indexes) (lineAt : Nat → Option Text) (line : Text) (cursor : Position) (typed : PartialStep) :
    Indexes × Answer :=
  match StepToken.ofText typed.token with
  | .error _ => (x, .nothing)
  | .ok _ =>
    let replaced : Span := ⟨⟨cursor.line, Text.columnOfByte line typed.start⟩, cursor⟩
    let (x, candidates) := x.completeAt lineAt cursor.line typed.token typed.text
    (x, .items (CompletionItem.ofCandidates replaced candidates))

/-- The definitions that may follow what has been typed at a position of a feature file. -/
def answerCompletion (world : World) (x : Indexes) (p : Path) (cursor : Position) : Indexes × Answer :=
  match x.hasFeatures p with
  | (x, false) => (x, .nothing)
  | (x, true) =>
    match world.read p with
    | .error _ => (x, .nothing)
    | .ok text =>
      let table := (Text.lines text).toArray
      let line := table[cursor.line]?.getD []
      match PartialStep.ofText? (Text.takeBytes line (Text.byteOfColumn line cursor.character)) with
      | none => (x, .nothing)
      | some typed => x.answerTyped (fun i => table[i]?) line cursor typed

end Indexes

def Failure.code : Failure → ErrorCode
  | missingLocation _ => .invalidParams
  | _ => .invalidRequest

def Failure.reply (e : Failure) : RequestError :=
  ⟨e.code, e.message⟩

namespace Server

/-- Answer a request about a document; without indexes there is no answer. -/
def navigate (s : Server) (document : Uri)
    (answer : Indexes → Path → Indexes × Except Failure Answer × List Warning) :
    Server × Except Failure Answer × List Warning :=
  match s.indexes, document.path? with
  | none, _ => (s, .error .notInitialised, [])
  | some _, none => (s, .ok .nothing, [])
  | some x, some p =>
    let (x, reply, warnings) := answer x p
    ({ s with indexes := some x }, reply, warnings)

def answer (s : Server) (disk : Disk) : Request → Server × Except Failure Answer × List Warning
  | .introduce i =>
    match s.introduce i with
    | .ok s => (s, .ok .capabilities, [])
    | .error e => (s, .error e, [])
  | .shutdown => (s.shutdown, .ok .nothing, [])
  | .definition document cursor => s.navigate document fun x p =>
    let (x, found) := x.answerDefinition (s.world disk) p cursor
    (x, .ok found, [])
  | .references document cursor => s.navigate document fun x p => x.answerReferences (s.world disk) p cursor
  | .completion document cursor => s.navigate document fun x p =>
    let (x, offered) := x.answerCompletion (s.world disk) p cursor
    (x, .ok offered, [])

end Server

end StepLink
