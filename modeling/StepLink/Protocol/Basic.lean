import StepLink.Path

/-! The nouns of the protocol between an editor and the server. Lines and columns are counted from zero, and
columns in UTF-16 code units. -/

namespace StepLink

structure Position where
  line : Nat
  character : Nat
  deriving DecidableEq, Repr

structure Span where
  start : Position
  stop : Position
  deriving DecidableEq, Repr

def Span.inLine (line start stop : Nat) : Span :=
  ⟨⟨line, start⟩, ⟨line, stop⟩⟩

/-- A part of a file. -/
structure Place where
  path : Path
  span : Span
  deriving DecidableEq, Repr

/-- An entry of a completion list: what it shows, and the snippet that takes the place of a span. -/
structure CompletionItem where
  label : Text
  detail : Option Text
  /-- The text by which the editor orders the entries. -/
  sortText : Text
  replaced : Span
  snippet : Text
  deriving DecidableEq, Repr

inductive ErrorCode where
  | invalidRequest
  | methodNotFound
  | invalidParams
  | notInitialized
  deriving DecidableEq, Repr

def ErrorCode.value : ErrorCode → Int
  | invalidRequest => -32600
  | methodNotFound => -32601
  | invalidParams => -32602
  | notInitialized => -32002

/-- An error that answers a request. -/
structure RequestError where
  code : ErrorCode
  message : String
  deriving DecidableEq, Repr

end StepLink
