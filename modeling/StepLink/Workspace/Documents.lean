import StepLink.Workspace.Disk

/-! Documents that are open in the editor. What is read of a workspace is the buffer of an open document, or
else the file on the disk. -/

namespace StepLink

/-- The buffer of an open document, with the version that the editor gave it. -/
structure Buffer where
  text : Text
  version : Int
  deriving DecidableEq, Repr

/-- The open documents by path. A document keeps the spelling of the path under which it was opened first. -/
structure Documents where
  entries : List (Path × Buffer)
  deriving Repr

namespace Documents

def empty : Documents :=
  ⟨[]⟩

def get? (d : Documents) (p : Path) : Option Buffer :=
  (d.entries.find? fun entry => entry.1.same p).map (·.2)

/-- Open a document, or replace its buffer. -/
def upsert (d : Documents) (p : Path) (document : Buffer) : Documents :=
  if (d.get? p).isSome then
    ⟨d.entries.map fun entry => if entry.1.same p then (entry.1, document) else entry⟩
  else ⟨d.entries ++ [(p, document)]⟩

def close (d : Documents) (p : Path) : Documents :=
  ⟨d.entries.filter fun entry => !entry.1.same p⟩

/-- The paths of the open documents, in order. -/
def paths (d : Documents) : List Path :=
  (d.entries.map (·.1)).mergeSort Path.le

end Documents

/-- What can be read: open documents in front of the disk. -/
structure World where
  documents : Documents
  disk : Disk
  deriving Repr

/-- Read the buffer of an open document or a file. -/
def World.read (w : World) (p : Path) : Except ReadError Text :=
  match w.documents.get? p with
  | some document => .ok document.text
  | none => w.disk.read p

/-- List the files of a corpus; only the disk knows them. -/
def World.list (w : World) (root : Path) (filter : CorpusFilter) : Except Disk.WalkError (List Path) :=
  w.disk.list root filter

end StepLink
