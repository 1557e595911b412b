import StepLink.Protocol.Basic
import StepLink.Protocol.Decoder

/-! What an editor asks and reports. -/

namespace StepLink

structure Introduction where
  /-- The folders of the workspace; an editor may know of none at all. -/
  folders : Option (List Uri)
  root : Option Uri
  /-- Settings that the editor brings along. -/
  options : Option Json

inductive Request where
  | introduce (i : Introduction)
  | shutdown
  | definition (document : Uri) (cursor : Position)
  | references (document : Uri) (cursor : Position)
  | completion (document : Uri) (cursor : Position)

inductive Notification where
  | initialized
  | opened (document : Uri) (text : Text) (version : Int)
  /-- A change is reported as the whole text, possibly more than once. -/
  | changed (document : Uri) (version : Int) (texts : List Text)
  | saved (document : Uri) (text : Option Text)
  | closed (document : Uri)
  | configured (settings : Json)
  | exit

namespace Protocol

open Json

def decodePosition (j : Json) : Decoded Position := do
  decodeObject "Position" j
  let character ← decodePresent "character" decodeNat j
  let line ← decodePresent "line" decodeNat j
  .ok ⟨← require "line" line, ← require "character" character⟩

def decodeIdentifier (j : Json) : Decoded Uri := do
  decodeObject "TextDocumentIdentifier" j
  decodeMember "uri" decodeUri j

def decodeDocument (j : Json) : Decoded Uri :=
  decodeMember "textDocument" decodeIdentifier j

def decodeCursor (j : Json) : Decoded (Uri × Position) := do
  let cursor ← decodePresent "position" decodePosition j
  let document ← decodePresent "textDocument" decodeIdentifier j
  .ok (← require "textDocument" document, ← require "position" cursor)

def decodeFolder (j : Json) : Decoded Uri := do
  decodeObject "WorkspaceFolder" j
  let name ← decodePresent "name" decodeText j
  let uri ← decodeMember "uri" decodeUri j
  let _ ← require "name" name
  .ok uri

def decodeIntroduction (j : Json) : Decoded Introduction := do
  decodeObject "InitializeParams" j
  let capabilities ← decodePresent "capabilities" (decodeObject "ClientCapabilities") j
  let root ← decodeOptional "rootUri" decodeUri j
  let folders ← decodeOptional "workspaceFolders" (decodeList decodeFolder) j
  require "capabilities" capabilities
  .ok ⟨folders, root, j.getSome? "initializationOptions"⟩

/-- Check that there are no parameters. -/
def decodeNothing : Json → Decoded Unit
  | .null => .ok ()
  | j => unexpected "unit" j

def decodeOpened (j : Json) : Decoded Notification := do
  decodeObject "DidOpenTextDocumentParams" j
  decodeMember "textDocument" (fun document => do
    decodeObject "TextDocumentItem" document
    let uri ← decodeMember "uri" decodeUri document
    let _ ← decodeMember "languageId" decodeText document
    let version ← decodeMember "version" decodeInt document
    let text ← decodeMember "text" decodeText document
    .ok (.opened uri text version)) j

def decodeChange (j : Json) : Decoded Text := do
  decodeObject "TextDocumentContentChangeEvent" j
  decodeMember "text" decodeText j

def decodeChanged (j : Json) : Decoded Notification := do
  decodeObject "DidChangeTextDocumentParams" j
  let uri ← decodeDocument j
  let version ← decodeMember "textDocument" (decodeMember "version" decodeInt) j
  let texts ← decodeMember "contentChanges" (decodeList decodeChange) j
  .ok (.changed uri version texts)

def decodeSaved (j : Json) : Decoded Notification := do
  decodeObject "DidSaveTextDocumentParams" j
  let uri ← decodeDocument j
  let text ← decodeOptional "text" decodeText j
  .ok (.saved uri text)

def decodeClosed (j : Json) : Decoded Notification := do
  decodeObject "DidCloseTextDocumentParams" j
  let uri ← decodeDocument j
  .ok (.closed uri)

def decodeConfigured (j : Json) : Decoded Notification := do
  decodeObject "DidChangeConfigurationParams" j
  let settings ← decodeMember "settings" .ok j
  .ok (.configured settings)

def decodeDefinition (j : Json) : Decoded Request := do
  decodeObject "GotoDefinitionParams" j
  let (document, cursor) ← decodeCursor j
  .ok (.definition document cursor)

/-- Check what a request for references says about the declaration. -/
def decodeReferenceContext (j : Json) : Decoded Unit := do
  decodeObject "ReferenceContext" j
  let _ ← decodeMember "includeDeclaration" decodeBool j
  .ok ()

def decodeReferences (j : Json) : Decoded Request := do
  decodeObject "ReferenceParams" j
  decodeMember "context" decodeReferenceContext j
  let (document, cursor) ← decodeCursor j
  .ok (.references document cursor)

/-- Check what a request for completion says about its cause. -/
def decodeCompletionContext (j : Json) : Decoded Unit := do
  decodeObject "CompletionContext" j
  let _ ← decodeOptional "triggerCharacter" decodeText j
  let _ ← decodeMember "triggerKind" decodeInt j
  .ok ()

def decodeCompletion (j : Json) : Decoded Request := do
  decodeObject "CompletionParams" j
  let _ ← decodeOptional "context" decodeCompletionContext j
  let (document, cursor) ← decodeCursor j
  .ok (.completion document cursor)

end Protocol

open Protocol

/-- Read the parameters of a request; none if there is no such method. -/
def Request.ofJson? (method : Text) (params : Json) : Option (Decoded Request) :=
  match String.ofList method with
  | "initialize" => some ((decodeIntroduction params).map .introduce)
  | "shutdown" => some ((decodeNothing params).map fun _ => .shutdown)
  | "textDocument/definition" => some (decodeDefinition params)
  | "textDocument/references" => some (decodeReferences params)
  | "textDocument/completion" => some (decodeCompletion params)
  | _ => none

/-- Read the parameters of a notification; none if there is no such method. -/
def Notification.ofJson? (method : Text) (params : Json) : Option (Decoded Notification) :=
  match String.ofList method with
  | "initialized" => some ((Json.decodeObject "InitializedParams" params).map fun _ => .initialized)
  | "textDocument/didOpen" => some (decodeOpened params)
  | "textDocument/didChange" => some (decodeChanged params)
  | "textDocument/didSave" => some (decodeSaved params)
  | "textDocument/didClose" => some (decodeClosed params)
  | "workspace/didChangeConfiguration" => some (decodeConfigured params)
  | "exit" => some ((decodeNothing params).map fun _ => .exit)
  | _ => none

end StepLink
