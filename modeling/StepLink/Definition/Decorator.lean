import StepLink.Keyword
import StepLink.Text.Fold
import StepLink.Text.Word

/-! Step decorators of a step module, each on one line: `@`, a keyword in any case, and in parentheses a
quoted pattern, which may have a prefix of at most two letters and may be wrapped in one call. Escapes in the
pattern are left as they are written. -/

namespace StepLink

structure Decorator where
  keyword : DefinitionKeyword
  pattern : Text
  /-- The byte offset of the `@` in the line. -/
  column : Nat
  deriving DecidableEq, Repr

namespace Decorator

/-- A way to write the argument of a decorator. -/
structure Shape where
  /-- The pattern is the argument of a call. -/
  wrapped : Bool
  quote : Char
  deriving DecidableEq, Repr

def shapes : List Shape :=
  [⟨false, '"'⟩, ⟨false, '\x27'⟩, ⟨true, '"'⟩, ⟨true, '\x27'⟩]

def names : List Text :=
  ["given".toList, "when".toList, "then".toList, "step".toList]

/-- A word at the front of a text, up to case folding, and what follows it. -/
def afterName? (t name : Text) : Option (Text × Text) :=
  if (t.take name.length).map Text.fold = name then some (t.take name.length, t.drop name.length) else none

/-- What follows an opening parenthesis and the blanks around it. -/
def afterParen? (t : Text) : Option Text :=
  match Text.trimStart t with
  | '(' :: t => some (Text.trimStart t)
  | _ => none

def isCallChar (c : Char) : Bool :=
  Text.isWord c || c == '.'

def afterCall? : Text → Option Text
  | c :: t => if c.isAlpha || c == '_' then afterParen? (t.dropWhile isCallChar) else none
  | [] => none

def afterLetters : Nat → Text → Text
  | n + 1, c :: t => if c.isAlpha then afterLetters n t else c :: t
  | _, t => t

/-- The text up to the first quote that no backslash takes with it. -/
def body? (quote : Char) : Text → Option Text
  | [] => none
  | '\\' :: c :: t => if c = '\n' then none else (body? quote t).map fun b => '\\' :: c :: b
  | c :: t => if c = quote then some [] else if c = '\\' then none else (body? quote t).map (c :: ·)

/-- The text between two quotes behind at most two letters. -/
def literal? (quote : Char) (t : Text) : Option Text :=
  match afterLetters 2 t with
  | c :: t => if c = quote then body? quote t else none
  | [] => none

def argument? (shape : Shape) (t : Text) : Option Text :=
  if shape.wrapped then (afterCall? t).bind (literal? shape.quote) else literal? shape.quote t

/-- The name and the pattern of a line that has the shape. -/
def captures? (line : Text) (shape : Shape) : Option (Text × Text) :=
  match Text.trimStart line with
  | '@' :: t => do
    let (name, t) ← names.findSome? (afterName? t)
    let t ← afterParen? t
    let pattern ← argument? shape t
    some (name, pattern)
  | _ => none

/-- A line that has the shape holds no decorator if its name is a keyword up to case folding only, as `ſtep` is. -/
def ofShape? (line : Text) (shape : Shape) : Option Decorator := do
  let (name, pattern) ← captures? line shape
  let keyword ← (DefinitionKeyword.ofText name).toOption
  some ⟨keyword, pattern, Text.utf8Length line - Text.utf8Length (Text.trimStart line)⟩

def ofLine? (line : Text) : Option Decorator :=
  shapes.findSome? (ofShape? line)

end Decorator

end StepLink
