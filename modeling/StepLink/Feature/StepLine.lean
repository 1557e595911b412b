import StepLink.Keyword

/-! Step lines: indentation, a token in any case, at least one blank, and the text of the step. -/

namespace StepLink

/-- A line of a feature file split at its token. -/
structure StepLine where
  token : StepToken
  /-- The token as written. -/
  written : Text
  text : Text
  /-- The byte offset of the text in the line. -/
  offset : Nat
  deriving DecidableEq, Repr

/-- Split a line at the given token. -/
def StepLine.read? (line : Text) (spelling : Text) (token : StepToken) : Option StepLine :=
  let body := Text.trimStart line
  let written := body.take spelling.length
  let rest := body.drop spelling.length
  if Text.sameIgnoringCase written spelling && rest.head?.any Text.isBlank then
    let text := Text.trimStart rest
    some ⟨token, written, Text.trimEnd text, Text.utf8Length line - Text.utf8Length text⟩
  else none

def StepLine.ofLine? (line : Text) : Option StepLine :=
  StepToken.table.findSome? fun (spelling, token) => read? line spelling token

end StepLink
