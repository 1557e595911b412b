import StepLink.Feature.StepLine
import StepLink.Text.Lines

/-! The steps of a feature file, found by one walk over its lines. The walk carries the keyword of the
current block, which every header resets, and the fence of the doc string it is in, if any: what stands
between two fences is never a step. -/

namespace StepLink

/-- The marks between which doc strings stand. -/
inductive Fence where
  | quotes
  | backticks
  deriving DecidableEq, Repr

def Fence.mark : Fence → Text
  | quotes => ['"', '"', '"']
  | backticks => ['\x60', '\x60', '\x60']

def Fence.startsLine (fence : Fence) (line : Text) : Bool :=
  fence.mark.isPrefixOf (Text.trimStart line)

def Fence.ofLine? (line : Text) : Option Fence :=
  [quotes, backticks].find? fun fence => fence.startsLine line

/-- The words that open a block of a feature file. -/
def headerWords : List Text :=
  ["Feature".toList, "Rule".toList, "Background".toList, "Scenario".toList, "Scenario Outline".toList,
    "Scenario Template".toList, "Example".toList, "Examples".toList, "Scenarios".toList]

/-- A line that opens a block: one of the words, in any case, before a colon. -/
def isHeader (line : Text) : Bool :=
  let body := Text.trimStart line
  body.contains ':' &&
    headerWords.any fun word => Text.sameIgnoringCase (Text.trimEnd (body.takeWhile (· != ':'))) word

/-- A step with the keyword that its block gives it. -/
structure FoundStep where
  step : StepLine
  effective : Option StepKeyword
  deriving DecidableEq, Repr

structure Scanner where
  context : Option StepKeyword := none
  fence : Option Fence := none
  deriving DecidableEq, Repr

/-- Walk over one line; the step it holds, if any. -/
def Scanner.feed (s : Scanner) (line : Text) : Scanner × Option FoundStep :=
  match s.fence with
  | some fence => (if fence.startsLine line then { s with fence := none } else s, none)
  | none =>
    match Fence.ofLine? line with
    | some fence => ({ s with fence := some fence }, none)
    | none =>
      if isHeader line then ({ s with context := none }, none)
      else match StepLine.ofLine? line with
        | none => (s, none)
        | some step =>
          if step.text.isEmpty then (s, none)
          else
            let effective := step.token.resolve s.context
            ({ s with context := effective }, some ⟨step, effective⟩)

/-- Walk over lines; for each the step it holds, if any. -/
def Scanner.feedAll (s : Scanner) : List Text → List (Option FoundStep)
  | [] => []
  | line :: lines =>
    let (s, step) := s.feed line
    step :: s.feedAll lines

end StepLink
