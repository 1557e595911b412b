import StepLink.Path

/-! Changes of files, as the watcher of the operating system reports them and as the indexes see them. -/

namespace StepLink

inductive FileEvent where
  | created (p : Path)
  | modified (p : Path)
  | removed (p : Path)
  deriving DecidableEq, Repr

inductive RenameMode where
  | both
  | source
  | target
  | unknown
  deriving DecidableEq, Repr

/-- The kinds of reports of a watcher that are told apart. -/
inductive WatchKind where
  | creation
  | removal
  | rename (mode : RenameMode)
  | metadata
  | modification
  | access
  | other
  deriving DecidableEq, Repr

/-- The changes that a report stands for. A rename is a removal and a creation; where the report does not tell
which of the two a path is, its existence decides. -/
def FileEvent.ofReport (exist : Path → Bool) (kind : WatchKind) (paths : List Path) : List FileEvent :=
  match kind with
  | .creation => paths.map created
  | .removal => paths.map removed
  | .rename .both => (paths[0]?.map removed).toList ++ (paths[1]?.map created).toList
  | .rename .source => paths.map removed
  | .rename .target => paths.map created
  | .rename .unknown => paths.map fun p => if exist p then created p else removed p
  | .modification => paths.map modified
  | .metadata => []
  | .access => []
  | .other => []

end StepLink
