import StepLink.Regex.Source

/-! What can be wrong with a step pattern: a placeholder or a brace at some byte of it, or the expression
that the whole pattern stands for. -/

namespace StepLink

inductive BraceFault where
  /-- A placeholder whose name or type tag is not well formed. -/
  | malformed
  /-- A placeholder without its closing brace. -/
  | unclosed
  /-- A closing brace that no stray brace opened. -/
  | unmatched
  /-- A stray opening brace that is never closed, found at the end of the pattern. -/
  | unbalanced
  deriving DecidableEq, Repr

def BraceFault.message : BraceFault → String
  | malformed => "invalid placeholder in step pattern"
  | unclosed => "missing closing '\x7d' for placeholder"
  | unmatched => "unmatched closing brace '\x7d' in step pattern"
  | unbalanced => "unbalanced braces in step pattern"

/-- A fault with its byte offset and, for a placeholder, the name that was read before it. -/
structure BraceError where
  fault : BraceFault
  position : Nat
  field : Option Text
  deriving DecidableEq, Repr

/-- The wording of an error; a placeholder without a name is not mentioned. -/
def BraceError.message (e : BraceError) : String :=
  let place := s!" at byte {e.position} (zero-based)"
  match e.field with
  | some (c :: name) => e.fault.message ++ " for placeholder `" ++ String.ofList (c :: name) ++ "`" ++ place
  | _ => e.fault.message ++ place

inductive PatternError where
  | brace (e : BraceError)
  | expression (e : Regex.SourceError)
  deriving DecidableEq

def PatternError.message : PatternError → String
  | brace e => e.message
  | expression e => e.message

end StepLink
