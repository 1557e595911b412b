import StepLink.Glob.Filter
import StepLink.Json.Basic
import StepLink.Text.Blank

/-! The settings that a client sends: the globs of the two corpora, and those excluded from both. A setting
that is missing, malformed or empty takes its default. Whoever listens to a corpus is told when its globs or
the excluded ones change. -/

namespace StepLink

/-- The two corpora: step modules and feature files. -/
inductive Corpus where
  | steps
  | features
  deriving DecidableEq, Repr

def Corpus.name : Corpus → String
  | steps => "steps"
  | features => "features"

structure CorpusSettings where
  steps : List Text
  features : List Text
  exclude : List Text
  deriving DecidableEq, Repr

namespace CorpusSettings

/-- The settings where the client sends none. -/
def standard : CorpusSettings where
  steps := ["**/steps/**/*.py".toList, "**/step_definitions/**/*.py".toList]
  features := ["**/*.feature".toList]
  exclude := ["**/node_modules/**".toList, "**/.git/**".toList, "**/.venv/**".toList, "**/venv/**".toList,
    "**/__pycache__/**".toList, "**/site-packages/**".toList]

/-- The globs of a value: one string or an array of strings. -/
def globsOf (value : Option Json) : List Text :=
  match value with
  | some (.string t) => [t]
  | some j => j.texts?.getD []
  | none => []

/-- The globs of a member of the settings, or the default where no glob is left. -/
def read (settings : Json) (key : String) (default : List Text) : List Text :=
  let globs := ((globsOf (settings.get? key)).map Text.trim).filter fun g => !g.isEmpty
  if globs.isEmpty then default else globs

/-- The settings of a client, which may be wrapped in a section of their own. -/
def ofJson (j : Json) : CorpusSettings :=
  let settings := (j.get? "behave").getD j
  { steps := read settings "stepsGlob" standard.steps
    features := read settings "featuresGlob" standard.features
    exclude := read settings "exclude" standard.exclude }

def patterns (s : CorpusSettings) : Corpus → List Text
  | .steps => s.steps
  | .features => s.features

def selection (s : CorpusSettings) (c : Corpus) : Selection :=
  ⟨s.patterns c, s.exclude⟩

/-- The corpora whose files may differ under other settings. -/
def changed (s t : CorpusSettings) : List Corpus :=
  [Corpus.steps, Corpus.features].filter fun c => s.exclude != t.exclude || s.patterns c != t.patterns c

end CorpusSettings

/-- The current settings and the corpora of those who listen, in the order in which they came. -/
structure SettingsSource where
  current : CorpusSettings
  listeners : List Corpus
  deriving Repr

namespace SettingsSource

def new : SettingsSource :=
  ⟨.standard, []⟩

def subscribe (s : SettingsSource) (c : Corpus) : SettingsSource :=
  { s with listeners := s.listeners ++ [c] }

/-- Replace the settings: the corpora that change, and the numbers of the listeners that are told. -/
def update (s : SettingsSource) (next : CorpusSettings) : SettingsSource × List Corpus × List (Nat × Corpus) :=
  match s.current.changed next with
  | [] => (s, [], [])
  | changed =>
    ({ s with current := next }, changed,
      (s.listeners.zipIdx.filter fun l => changed.contains l.1).map fun l => (l.2, l.1))

end SettingsSource

end StepLink
