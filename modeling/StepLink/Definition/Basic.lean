import StepLink.Definition.Decorator
import StepLink.Path
import StepLink.Pattern.Matcher
import StepLink.Text.Lines
import StepLink.Text.Units

/-! Step definitions: the decorated functions of a step module. Every decorator gives a definition of its
own, unless its pattern cannot be compiled, which is reported and leaves the rest of the module alone. -/

namespace StepLink

structure Definition where
  keyword : DefinitionKeyword
  pattern : Text
  matcher : Matcher
  path : Path
  /-- The line of the decorator. -/
  line : Nat
  /-- The column of the `@`, in UTF-16 units. -/
  column : Nat
  /-- The name of the decorated function, where it could be found. -/
  function : Option Text
  /-- The matcher is that of the pattern. -/
  compiles : Matcher.ofPattern pattern = .ok matcher

/-- A decorator whose pattern cannot be compiled. -/
structure Uncompilable where
  path : Path
  line : Nat
  pattern : Text
  error : PatternError
  deriving DecidableEq

namespace Definition

def accepts (d : Definition) (text : Text) : Bool :=
  d.matcher.accepts (Text.trim text)

/-- Two definitions agree in everything that a file can change: its path is not compared. -/
def same (d e : Definition) : Bool :=
  d.keyword == e.keyword && d.pattern == e.pattern && d.line == e.line && d.column == e.column
    && d.function == e.function

def isBetween (line : Text) : Bool :=
  match Text.trimStart line with
  | [] => true
  | c :: _ => c == '#' || c == '@'

/-- What follows a word and at least one blank. -/
def afterWord? (word : Text) (t : Text) : Option Text :=
  if word.isPrefixOf t then
    match t.drop word.length with
    | c :: rest => if Text.isBlank c then some (Text.trimStart rest) else none
    | [] => none
  else none

def functionOfLine? (line : Text) : Option Text := do
  let body := Text.trimStart line
  let t ← afterWord? "def".toList ((afterWord? "async".toList body).getD body)
  match t with
  | c :: rest => if c.isAlpha || c == '_' then some (c :: rest.takeWhile Text.isWord) else none
  | [] => none

/-- The name of the function below a decorator, given the lines that follow it. -/
def functionBelow? (lines : List Text) : Option Text :=
  (lines.find? fun line => !isBetween line).bind functionOfLine?

/-- The definition that a decorator gives, or why it gives none. -/
def ofDecorator (path : Path) (index : Nat) (line : Text) (below : List Text) (d : Decorator) :
    Except Uncompilable Definition :=
  match h : Matcher.ofPattern d.pattern with
  | .error e => .error ⟨path, index, d.pattern, e⟩
  | .ok matcher => .ok {
      keyword := d.keyword, pattern := d.pattern, matcher := matcher, path := path,
      line := Text.lineNumber index, column := Text.columnOfByte line d.column,
      function := functionBelow? below, compiles := h }

def ofLines (path : Path) (index : Nat) : List Text → List (Except Uncompilable Definition)
  | [] => []
  | line :: below =>
    match Decorator.ofLine? line with
    | some d => ofDecorator path index line below d :: ofLines path (index + 1) below
    | none => ofLines path (index + 1) below

def ofText (path : Path) (text : Text) : List Definition :=
  (ofLines path 0 (Text.lines text)).filterMap fun
    | .ok d => some d
    | .error _ => none

def uncompilable (path : Path) (text : Text) : List Uncompilable :=
  (ofLines path 0 (Text.lines text)).filterMap fun
    | .ok _ => none
    | .error e => some e

end Definition

/-- A character that is shown by its number: controls, blanks other than the space, and the widthless marks
U+200B to U+200F and U+FEFF. -/
def Uncompilable.isHidden (c : Char) : Bool :=
  let n := c.toNat
  n < 0x20 || (0x7f ≤ n && n < 0xa0) || (Text.isBlank c && c != ' ') || (0x200b ≤ n && n ≤ 0x200f)
    || n == 0xfeff

/-- A character between quotes: quotes, backslashes and what would not be seen are escaped. -/
def Uncompilable.escape (c : Char) : Text :=
  if c = '"' || c = '\\' then ['\\', c]
  else if c = '\x00' then ['\\', '0']
  else if c = '\t' then ['\\', 't']
  else if c = '\n' then ['\\', 'n']
  else if c = '\r' then ['\\', 'r']
  else if isHidden c then '\\' :: 'u' :: '\x7b' :: Nat.toDigits 16 c.toNat ++ ['\x7d']
  else [c]

def Uncompilable.quoted (pattern : Text) : Text :=
  '"' :: pattern.flatMap escape ++ ['"']

/-- The wording of a report; lines are counted from one. -/
def Uncompilable.message (u : Uncompilable) : String :=
  "cannot compile step pattern " ++ String.ofList (quoted u.pattern) ++ " at " ++ String.ofList u.path.spelling
    ++ s!":{u.line + 1}: " ++ u.error.message

end StepLink
