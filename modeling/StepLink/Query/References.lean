import StepLink.Query.Lookup

/-! The steps that the decorators of a function match. The decorators of a function are those above it, with
nothing but further decorators, comments and blank lines between; any line of this block, and the line of the
function itself, stands for all of them. -/

namespace StepLink

structure UsagePlace where
  path : Path
  line : Nat
  column : Nat
  length : Nat
  deriving DecidableEq, Repr

def Occurrence.location (o : Occurrence) : UsagePlace :=
  ⟨o.path, o.line, o.column, o.length⟩

/-- No step decorator belongs to the function at a line. -/
structure NoStepDecorator where
  line : Nat
  deriving DecidableEq, Repr

/-- The wording of the error; lines are counted from one. -/
def NoStepDecorator.message (e : NoStepDecorator) : String :=
  s!"no step decorator at line {e.line + 1}"

/-- A line that starts with a decorator of any kind. -/
def isDecoratorLine (line : Text) : Bool :=
  (Text.trimStart line).head? == some '@'

/-- The number of lines at the front that are decorators, comments or blank. -/
def blockLength : List Text → Nat
  | [] => 0
  | line :: lines => if isDecoratorLine line || isFillerLine line then blockLength lines + 1 else 0

/-- The step decorators of the block that ends before the first of the lines, which are given backwards. -/
def decoratorsAbove : List Text → List Decorator
  | [] => []
  | line :: lines =>
    if isFillerLine line then decoratorsAbove lines
    else if isDecoratorLine line then (Decorator.ofLine? line).toList ++ decoratorsAbove lines
    else []

/-- The step decorators of the function at or below a line, in the order of the lines. A line past the end has
no function. -/
def decoratorsFor (lines : List Text) (line : Nat) : List Decorator :=
  let anchor := line + blockLength (lines.drop line)
  if anchor ≤ lines.length then (decoratorsAbove (lines.take anchor).reverse).reverse else []

/-- Keep the first of equal places; paths are compared by their components. -/
def UsagePlace.dedup : List UsagePlace → List UsagePlace
  | [] => []
  | l :: rest =>
    l :: (dedup rest).filter fun m =>
      !(l.path.same m.path && l.line == m.line && l.column == m.column && l.length == m.length)

namespace Indexes

def occurrencesOf (x : Indexes) : List Decorator → Indexes × List Occurrence × List Warning
  | [] => (x, [], [])
  | d :: rest =>
    let (usages, found, warnings) := x.usages.accepted d.pattern (some d.keyword)
    let (x, others, otherWarnings) := { x with usages := usages }.occurrencesOf rest
    (x, found ++ others, warnings ++ otherWarnings)

/-- The places of the steps that the function at a line implements. -/
def usagesAt (x : Indexes) (lines : List Text) (line : Nat) :
    Indexes × Except NoStepDecorator (List UsagePlace) × List Warning :=
  match decoratorsFor lines line with
  | [] => (x, .error ⟨line⟩, [])
  | block =>
    let (x, found, warnings) := x.occurrencesOf block
    (x, .ok (UsagePlace.dedup (found.map Occurrence.location)), warnings)

end Indexes

end StepLink
