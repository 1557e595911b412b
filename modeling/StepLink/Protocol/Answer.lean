import StepLink.Json.Basic
import StepLink.Protocol.Basic
import StepLink.Query.Diagnostics
import StepLink.Uri

/-! What the server answers and shows, and its written form. -/

namespace StepLink

inductive Answer where
  | capabilities
  | nothing
  | places (found : List Place)
  | items (offered : List CompletionItem)
  deriving DecidableEq, Repr

/-- The diagnostics of a document that are shown in the editor; a document that was closed has no version. -/
structure Publication where
  path : Path
  version : Option Int
  diagnostics : List Diagnostic
  deriving DecidableEq, Repr

/-- The name under which the server presents itself. -/
def serverName : String := "behave-lsp"

def serverVersion : String := "0.3.0"

namespace Protocol

open Json

def encodePosition (p : Position) : Json :=
  ofMembers [("line", ofNat p.line), ("character", ofNat p.character)]

def encodeSpan (s : Span) : Json :=
  ofMembers [("start", encodePosition s.start), ("end", encodePosition s.stop)]

def encodePlace (p : Place) : Json :=
  ofMembers [("uri", string (Uri.ofPath p.path)), ("range", encodeSpan p.span)]

/-- Write an entry of a completion list, whose kind is that of functions and whose text is a snippet. -/
def encodeItem (i : CompletionItem) : Json :=
  ofMembers ([("label", string i.label), ("kind", ofNat 3)]
    ++ (i.detail.map fun t => ("detail", string t)).toList
    ++ [("sortText", string i.sortText), ("filterText", string i.label), ("insertTextFormat", ofNat 2),
      ("textEdit", ofMembers [("range", encodeSpan i.replaced), ("newText", string i.snippet)])])

/-- What the server is able to do: whole documents are sent to it, it finds definitions and references, and it
completes after a space. -/
def capabilities : Json :=
  ofMembers [
    ("capabilities", ofMembers [
      ("textDocumentSync", ofNat 1),
      ("completionProvider", ofMembers [("triggerCharacters", array [ofString " "])]),
      ("definitionProvider", bool true),
      ("referencesProvider", bool true)]),
    ("serverInfo", ofMembers [("name", ofString serverName), ("version", ofString serverVersion)])]

def encodeAnswer : Answer → Json
  | .capabilities => capabilities
  | .nothing => null
  | .places found => array (found.map encodePlace)
  | .items offered => array (offered.map encodeItem)

def encodeError (e : RequestError) : Json :=
  ofMembers [("code", integer e.code.value), ("message", ofString e.message)]

/-- Write a diagnostic, which is a warning. -/
def encodeDiagnostic (d : Diagnostic) : Json :=
  ofMembers [("range", encodeSpan (.inLine d.line d.start d.stop)), ("severity", ofNat 2),
    ("source", ofString serverName), ("message", ofString d.message)]

def encodePublication (p : Publication) : Json :=
  ofMembers ([("uri", string (Uri.ofPath p.path)), ("diagnostics", array (p.diagnostics.map encodeDiagnostic))]
    ++ (p.version.map fun v => ("version", integer v)).toList)

end Protocol

end StepLink
