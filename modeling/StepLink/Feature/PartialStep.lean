import StepLink.Text.Blank

/-! What has been typed of a step in front of the cursor: a word, at least one blank, and the text so far. The
word need not be a token of a step. -/

namespace StepLink

/-- The part of a line before the cursor, split after its first word. -/
structure PartialStep where
  token : Text
  text : Text
  /-- The byte offset of the text in the line. -/
  start : Nat
  deriving DecidableEq, Repr

/-- Split the part of a line before the cursor; none until a blank follows the first word. -/
def PartialStep.ofText? (before : Text) : Option PartialStep :=
  let body := Text.trimStart before
  let token := body.takeWhile fun c => !Text.isBlank c
  match body.dropWhile fun c => !Text.isBlank c with
  | [] => none
  | rest =>
    let text := Text.trimStart rest
    some ⟨token, text, Text.utf8Length before - Text.utf8Length text⟩

end StepLink
