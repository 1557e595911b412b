import StepLink.Feature.Scanner
import StepLink.Path
import StepLink.Text.Units

/-! The steps of a feature file with their places, as the index of usages keeps them. -/

namespace StepLink

structure Occurrence where
  /-- The token as written. -/
  written : Text
  token : StepToken
  text : Text
  /-- The logical keyword, where the block of the step gives it one. -/
  effective : Option StepKeyword
  path : Path
  line : Nat
  /-- The column of the text, in UTF-16 units. -/
  column : Nat
  length : Nat
  deriving DecidableEq, Repr

/-- Two occurrences agree; how their paths are spelled does not matter. -/
def Occurrence.same (a b : Occurrence) : Bool :=
  { a with path := b.path } == b && a.path.same b.path

def Occurrence.ofStep (path : Path) (index : Nat) (line : Text) (s : FoundStep) : Occurrence where
  written := s.step.written
  token := s.step.token
  text := s.step.text
  effective := s.effective
  path := path
  line := Text.lineNumber index
  column := Text.columnOfByte line s.step.offset
  length := Text.units s.step.text

def Occurrence.ofLines (path : Path) (s : Scanner) (index : Nat) : List Text → List Occurrence
  | [] => []
  | line :: lines =>
    match s.feed line with
    | (s, some step) => ofStep path index line step :: ofLines path s (index + 1) lines
    | (s, none) => ofLines path s (index + 1) lines

def Occurrence.ofText (path : Path) (text : Text) : List Occurrence :=
  ofLines path {} 0 (Text.lines text)

end StepLink
