import StepLink.Pattern.Token

/-! Snippets: step patterns as an editor inserts them, with a numbered tab stop for every placeholder. -/

namespace StepLink.Snippet

def isReserved (c : Char) : Bool :=
  c == '$' || c == '}' || c == '\\'

def escape : Text → Text
  | [] => []
  | c :: t => if isReserved c then '\\' :: c :: escape t else c :: escape t

/-- The tab stop of a placeholder; the placeholder's name is its default text. -/
def tabStop (number : Nat) (name : Text) : Text :=
  let head := '$' :: '{' :: Nat.toDigits 10 number
  if name.isEmpty then head ++ ['}'] else head ++ ':' :: name ++ ['}']

/-- The snippet of tokens that follow `stops` placeholders. -/
def ofTokens (stops : Nat) : List Token → Text
  | [] => []
  | .literal t :: tokens => escape t ++ ofTokens stops tokens
  | .field _ f :: tokens => tabStop (stops + 1) f.name ++ ofTokens (stops + 1) tokens
  | .openBrace _ :: tokens => '{' :: ofTokens stops tokens
  | .closeBrace _ :: tokens => '\\' :: '}' :: ofTokens stops tokens

/-- The snippet of a pattern. A pattern that cannot be cut into tokens is literal text as a whole. -/
def ofPattern (pattern : Text) : Text :=
  match Token.ofPattern pattern with
  | .ok tokens => ofTokens 0 tokens
  | .error _ => escape pattern

end StepLink.Snippet
