import StepLink.Definition.Basic
import StepLink.Workspace.Documents

/-! What an index reports while it goes on: a file or a decorator that it leaves out, a file that it stops
reading, and a search for a pattern that cannot be compiled. -/

namespace StepLink

inductive CorpusError where
  | read (p : Path) (message : String)
  | walk (root : Path) (message : String)
  deriving DecidableEq, Repr

def CorpusError.message : CorpusError → String
  | read p message => s!"failed to read {String.ofList p.spelling}: " ++ message
  | walk root message => s!"failed to walk {String.ofList root.spelling}: " ++ message

inductive Warning where
  | skippedDefinition (u : Uncompilable)
  | unreadable (p : Path) (e : ReadError)
  | keepsChanging
  | unlistable (e : Disk.WalkError)
  | unsearchable (e : PatternError)

def Warning.message : Warning → String
  | skippedDefinition u => "skipping step definition: " ++ u.message
  | unreadable p e => "dropping unreadable file: " ++ (CorpusError.read p e.message).message
  | keepsChanging => "file keeps changing; giving up until the next change"
  | unlistable e => "failed to enumerate files: " ++ (CorpusError.walk e.root e.message).message
  | unsearchable e => "cannot compile pattern for usage search: " ++ e.message

end StepLink
