import StepLink.Glob.Source
import StepLink.Path

/-! Which files belong to a corpus: those that some glob of the corpus selects and no excluding glob does,
all globs being applied below the root of the workspace. -/

namespace StepLink

/-- Compiled globs. One without a separator also selects by the name of the file alone. -/
structure GlobGroup where
  full : List Glob.Expression
  base : List Glob.Expression
  deriving DecidableEq

/-- Compile globs; a text that is no glob is skipped. -/
def GlobGroup.ofPatterns (patterns : List Text) : GlobGroup where
  full := patterns.filterMap Glob.ofText?
  base := (patterns.filter fun p => !p.contains '/').filterMap Glob.ofText?

def GlobGroup.selects (s : GlobGroup) (p : Path) : Bool :=
  (s.full.any fun e => e.accepts ByteSet.holds (Text.bytes p.spelling))
    || p.fileName?.any fun name => s.base.any fun e => e.accepts ByteSet.holds (Text.bytes name)

structure RootedGlobs where
  root : Path
  globs : GlobGroup
  deriving DecidableEq

def RootedGlobs.ofPatterns (root : Path) (patterns : List Text) : RootedGlobs :=
  ⟨root, .ofPatterns patterns⟩

/-- Some glob selects the path, seen from the root if it lies below it. -/
def RootedGlobs.selects (m : RootedGlobs) (p : Path) : Bool :=
  m.globs.selects ((p.relativeTo? m.root).getD p)

def RootedGlobs.isEmpty (m : RootedGlobs) : Bool :=
  m.globs.full.isEmpty

structure Selection where
  patterns : List Text
  excludes : List Text
  deriving DecidableEq, Repr

structure CorpusFilter where
  included : RootedGlobs
  excluded : RootedGlobs
  deriving DecidableEq

def CorpusFilter.ofGlobs (root : Path) (globs : Selection) : CorpusFilter :=
  ⟨.ofPatterns root globs.patterns, .ofPatterns root globs.excludes⟩

/-- The path belongs to the corpus. -/
def CorpusFilter.accepts (f : CorpusFilter) (p : Path) : Bool :=
  f.included.selects p && !f.excluded.selects p

/-- The directory can be passed over: an entry of it with the name `_` would be excluded. -/
def CorpusFilter.prunes (f : CorpusFilter) (dir : Path) : Bool :=
  f.excluded.selects (dir.join ['_'])

end StepLink
