import StepLink.Pattern.Token
import StepLink.Regex.Matching

/-! Matchers of step patterns. A pattern stands for a written expression in which literal text is escaped
and every placeholder accepts a value of its type or an outline variable in angle brackets; the matcher is
that expression, compiled. The size of the compiled form, which is limited, is the engine's to measure. -/

namespace StepLink

def Field.typeSource (tag : Option Text) : Text :=
  match tag with
  | some ['d'] => "-?\\d+".toList
  | some ['f'] => "-?\\d+\\.?\\d*".toList
  | some ['w'] => "\\w+".toList
  | some ['W'] => "\\W+".toList
  | some ['s'] => "\\s+".toList
  | some ['S'] => "\\S+".toList
  | _ => ".+?".toList

def Field.variableSource : Text :=
  "<[^>]+>".toList

/-- The written expression of a token. -/
def Token.source : Token → Text
  | literal t => Regex.escape t
  | field _ f => "((?:".toList ++ Field.typeSource f.tag ++ ")|".toList ++ Field.variableSource ++ ")".toList
  | openBrace _ => Regex.escape ['{']
  | closeBrace _ => Regex.escape ['}']

/-- Check the stray braces of the rest of a pattern of `size` bytes, `depth` of them being open. -/
def Token.checkBraces (size : Nat) : Nat → List Token → Except BraceError Unit
  | 0, [] => .ok ()
  | _ + 1, [] => .error ⟨.unbalanced, size, none⟩
  | depth, openBrace _ :: tokens => checkBraces size (depth + 1) tokens
  | 0, closeBrace start :: _ => .error ⟨.unmatched, start, none⟩
  | depth + 1, closeBrace _ :: tokens => checkBraces size depth tokens
  | depth, _ :: tokens => checkBraces size depth tokens

/-- The written expression of a pattern: case is ignored and the whole text must match. -/
def Pattern.source (pattern : Text) : Except BraceError Text := do
  let tokens ← Token.ofPattern pattern
  Token.checkBraces (Text.utf8Length pattern) 0 tokens
  .ok ("(?i)^".toList ++ tokens.flatMap Token.source ++ "$".toList)

structure Matcher where
  expression : Regex CharSet
  deriving DecidableEq

/-- Compile the expression of a pattern with an engine whose measure is `size`. -/
def Matcher.compile (size : Text → Nat) (pattern : Text) : Except PatternError Matcher :=
  match Pattern.source pattern with
  | .error e => .error (.brace e)
  | .ok source =>
    match Regex.compile size source with
    | .error e => .error (.expression e)
    | .ok expression => .ok ⟨expression⟩

/-- The matcher of a pattern, the engine's measure being estimated. -/
def Matcher.ofPattern (pattern : Text) : Except PatternError Matcher :=
  compile Regex.estimatedSize pattern

/-- The matcher accepts the whole text. -/
def Matcher.accepts (m : Matcher) (t : Text) : Bool :=
  m.expression.accepts CharSet.holds t

end StepLink
