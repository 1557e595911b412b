import StepLink.Regex.CharSet

/-! The written form of step expressions: `(?i)^`, a body, `$`. The body is a choice, separated by bars, of
sequences of characters, escapes, sets and groups; a character, an escape or a set may be repeated. Reading
refuses every other text. Compiling also refuses an expression whose compiled form would be too large; what an
engine takes for it depends on the engine, so that measure is a parameter. -/

namespace StepLink.Regex

inductive SourceError where
  /-- The text is not the written form of an expression. -/
  | malformed
  /-- The compiled form would exceed the limit. -/
  | tooLarge
  deriving DecidableEq

/-- The bytes that a compiled expression may occupy. -/
def sizeLimit : Nat := 10485760

def SourceError.message : SourceError → String
  | malformed => "regex parse error"
  | tooLarge => s!"Compiled regex exceeds size limit of {sizeLimit} bytes."

/-- The characters that the written form reserves, so that a literal one is escaped. -/
def isReserved (c : Char) : Bool :=
  c ∈ ['\\', '.', '+', '*', '?', '(', ')', '|', '[', ']', '{', '}', '^', '$', '#', '&', '-', '~']

def escape : Text → Text
  | [] => []
  | c :: t => if isReserved c then '\\' :: c :: escape t else c :: escape t

def escapedSet? : Char → Option CharSet
  | 'd' => some .digit
  | 'w' => some .word
  | 'W' => some (.complement .word)
  | 's' => some .blank
  | 'S' => some (.complement .blank)
  | c => if isReserved c then some (.letter c) else none

/-- The characters that stand for themselves outside escapes. -/
def isPlain (c : Char) : Bool :=
  !(c ∈ ['\\', '.', '+', '*', '?', '(', ')', '|', '[', ']', '{', '}', '^', '$'])

/-- Read the repetition after a set. A lazy repetition denotes the same texts as a greedy one. -/
def readRepeat : Text → Repeat × Text
  | '+' :: '?' :: t => (.oneOrMore, t)
  | '+' :: t => (.oneOrMore, t)
  | '*' :: t => (.zeroOrMore, t)
  | '?' :: t => (.optional, t)
  | t => (.once, t)

def readSet? : Text → Option (CharSet × Text)
  | '\\' :: c :: t => (escapedSet? c).map fun s => (s, t)
  | '.' :: t => some (.dot, t)
  | '[' :: '^' :: c :: ']' :: t => if isPlain c then some (.complement (.letter c), t) else none
  | c :: t => if isPlain c then some (.letter c, t) else none
  | [] => none

mutual

/-- Read a choice; the fuel bounds the number of items read. -/
def readChoice? : Nat → Text → Option (Regex CharSet × Text)
  | 0, _ => none
  | fuel + 1, t =>
    match readSequence? fuel t with
    | some (first, '|' :: t) => (readChoice? fuel t).map fun (rest, t) => (.alt first rest, t)
    | other => other

/-- Read a sequence of items up to a bar, a closing parenthesis or the end anchor. -/
def readSequence? : Nat → Text → Option (Regex CharSet × Text)
  | 0, _ => none
  | fuel + 1, t =>
    match t with
    | [] => some (.empty, [])
    | '|' :: _ => some (.empty, t)
    | ')' :: _ => some (.empty, t)
    | '$' :: _ => some (.empty, t)
    | '(' :: inner =>
      match readChoice? fuel (match inner with | '?' :: ':' :: u => u | u => u) with
      | some (item, ')' :: t) => (readSequence? fuel t).map fun (rest, t) => (.seq item rest, t)
      | _ => none
    | t =>
      match readSet? t with
      | some (s, t) =>
        let (count, t) := readRepeat t
        (readSequence? fuel t).map fun (rest, t) => (.seq (.chars s count) rest, t)
      | none => none

end

def ofSource? (source : Text) : Option (Regex CharSet) :=
  match source with
  | '(' :: '?' :: 'i' :: ')' :: '^' :: body =>
    match readChoice? (body.length + 2) body with
    | some (r, ['$']) => some r
    | _ => none
  | _ => none

/-- Compile a written expression, of which the engine's own form takes `size` bytes. -/
def compile (size : Text → Nat) (source : Text) : Except SourceError (Regex CharSet) :=
  match ofSource? source with
  | none => .error .malformed
  | some r => if sizeLimit < size source then .error .tooLarge else .ok r

/-- An estimate of an engine's measure: 64 bytes for each run of characters in the sets of the expression. -/
def estimatedSize (source : Text) : Nat :=
  64 * (ofSource? source).elim 0 runs

end StepLink.Regex
