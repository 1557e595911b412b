import StepLink.Workspace.Disk
import StepLink.Workspace.Event

/-! Changes of the disk from outside, and what a watcher of the operating system reports of each. -/

namespace StepLink

inductive DiskChange where
  | write (p : Path) (data : FileData)
  | delete (p : Path)
  | rename (p q : Path)
  deriving DecidableEq, Repr

structure WatchReport where
  kind : WatchKind
  paths : List Path
  deriving DecidableEq, Repr

namespace DiskChange

def apply (d : Disk) : DiskChange → Disk
  | write p data => d.write p data
  | delete p => d.delete p
  | rename p q => d.rename p q

/-- The path of names from the root of the file system. -/
def absolute (names : List Text) : Path :=
  Disk.pathBelow ⟨['/']⟩ names

/-- The reports on a deleted directory: each file below it, then the directories, the innermost first. -/
def directoryReports (d : Disk) (names : List Text) : List WatchReport :=
  let files := d.files.filter fun entry => names.isPrefixOf entry.1
  let directories := d.directories.filter fun dir => names.isPrefixOf dir
  (files.map fun entry => ⟨.removal, [absolute entry.1]⟩)
    ++ (directories.mergeSort fun a b => b.length ≤ a.length).map fun dir => ⟨.removal, [absolute dir]⟩

/-- What a watcher reports of a change. Of a directory that is renamed only its own paths are reported, and
nothing is where the disk stays as it was. -/
def reports (d : Disk) : DiskChange → List WatchReport
  | write p data =>
    match (Disk.names? p).bind d.file? with
    | none => [⟨.creation, [p]⟩]
    | some old => if old = data then [] else [⟨.modification, [p]⟩]
  | delete p =>
    match Disk.names? p with
    | none => []
    | some names => if (d.file? names).isSome then [⟨.removal, [p]⟩] else directoryReports d names
  | rename p q =>
    if d.holds p && !p.same q then [⟨.rename .source, [p]⟩, ⟨.rename .target, [q]⟩] else []

/-- The events that follow a change where what lies below a root is watched. -/
def events (d : Disk) (root : Path) (c : DiskChange) : List FileEvent :=
  (c.reports d).flatMap fun r =>
    FileEvent.ofReport (c.apply d).holds r.kind (r.paths.filter fun p => p.startsWith root)

end DiskChange

/-- The events between two looks at a disk. -/
def Disk.eventsSince (new old : Disk) : List FileEvent :=
  let gone := old.files.filter fun entry => (new.file? entry.1).isNone
  let fresh := new.files.filter fun entry => (old.file? entry.1).isNone
  let altered := new.files.filter fun entry => (old.file? entry.1).any (· != entry.2)
  let path (entry : List Text × FileData) : Path := DiskChange.absolute entry.1
  gone.map (fun e => .removed (path e)) ++ fresh.map (fun e => .created (path e))
    ++ altered.map (fun e => .modified (path e))

end StepLink
