import StepLink.Feature.StepLine

/-! The keyword that a step inherits. A step whose token names no keyword takes that of the nearest step
above it that has one, where only blank lines, comments and further continuing steps may stand between. -/

namespace StepLink

/-- A line that is blank or a comment. -/
def isFillerLine (line : Text) : Bool :=
  match Text.trimStart line with
  | [] => true
  | c :: _ => c == '#'

/-- The keyword that the lines before `index` pass on. -/
def inheritedKeyword (lineAt : Nat → Option Text) : Nat → Option StepKeyword
  | 0 => none
  | index + 1 =>
    match lineAt index with
    | none => none
    | some line =>
      if isFillerLine line then inheritedKeyword lineAt index
      else match StepLine.ofLine? line with
        | none => none
        | some step =>
          match step.token.keyword? with
          | some k => some k
          | none => inheritedKeyword lineAt index

/-- The logical keyword of the step on a line; none where the line is no step. -/
def effectiveKeyword (lineAt : Nat → Option Text) (target : Nat) : Option StepKeyword :=
  match (lineAt target).bind StepLine.ofLine? with
  | none => none
  | some step =>
    match step.token.keyword? with
    | some k => some k
    | none => inheritedKeyword lineAt target

end StepLink
