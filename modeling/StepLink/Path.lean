import StepLink.Text.Basic

/-! Paths. A path is kept as it is spelled, and compared by its components: separators may be repeated, a
segment `.` counts only in front of a relative path, and a separator at the end means nothing. -/

namespace StepLink

inductive Component where
  | root
  | current
  | parent
  | name (t : Text)
  deriving DecidableEq, Repr

/-- A path as it is spelled. -/
structure Path where
  spelling : Text
  deriving DecidableEq, Repr

namespace Path

/-- The parts of a text between separators, the first of them being continued from `segment`, reversed. -/
def segmentsAfter (segment : Text) : Text → List Text
  | [] => [segment.reverse]
  | c :: t => if c = '/' then segment.reverse :: segmentsAfter [] t else segmentsAfter (c :: segment) t

def segments (t : Text) : List Text :=
  segmentsAfter [] t

def joinSegments : List Text → Text
  | [] => []
  | [s] => s
  | s :: rest => s ++ '/' :: joinSegments rest

/-- The segment stands for no component. -/
def isVoid (segment : Text) : Bool :=
  segment.isEmpty || segment == ['.']

/-- The component that a segment stands for where `.` stands for none. -/
def componentOf? (segment : Text) : Option Component :=
  if isVoid segment then none
  else if segment = ['.', '.'] then some .parent
  else some (.name segment)

def components (p : Path) : List Component :=
  match p.spelling with
  | '/' :: t => .root :: (segments t).filterMap componentOf?
  | t =>
    match segments t with
    | ['.'] :: rest => .current :: rest.filterMap componentOf?
    | all => all.filterMap componentOf?

/-- Two paths have the same components. -/
def same (p q : Path) : Bool :=
  p.components == q.components

/-- The components of the second path begin those of the first. -/
def startsWith (p q : Path) : Bool :=
  q.components.isPrefixOf p.components

/-- Drop segments up to and including the one that stands for the `n`-th further component. -/
def dropSegments : Nat → List Text → List Text
  | 0, all => all
  | _, [] => []
  | n + 1, s :: rest => dropSegments (if (componentOf? s).isSome then n else n + 1) rest

def trimSegments (all : List Text) : List Text :=
  (all.reverse.dropWhile isVoid).reverse

/-- The spelling of what follows the first `n` components, without void segments at its ends. The empty
prefix leaves the front as it is. -/
def spellingAfter (p : Path) : Nat → Text
  | 0 =>
    match p.spelling with
    | '/' :: t => '/' :: joinSegments (trimSegments (segments t))
    | t =>
      match segments t with
      | ['.'] :: rest => joinSegments (['.'] :: trimSegments rest)
      | all => joinSegments (trimSegments all)
  | n + 1 =>
    let after (all : List Text) := joinSegments (trimSegments (all.dropWhile isVoid))
    match p.spelling with
    | '/' :: t => after (dropSegments n (segments t))
    | t =>
      match segments t with
      | ['.'] :: rest => after (dropSegments n rest)
      | all => after (dropSegments (n + 1) all)

def relativeTo? (p root : Path) : Option Path :=
  if p.startsWith root then some ⟨p.spellingAfter root.components.length⟩ else none

def fileName? (p : Path) : Option Text :=
  match p.components.getLast? with
  | some (.name t) => some t
  | _ => none

/-- The path of an entry below this one. -/
def join (p : Path) (entry : Text) : Path :=
  match p.spelling.getLast? with
  | none => ⟨entry⟩
  | some '/' => ⟨p.spelling ++ entry⟩
  | some _ => ⟨p.spelling ++ '/' :: entry⟩

end Path

/-- The order of components: the root, `.`, `..`, then names by their characters. -/
def Component.precedes : Component → Component → Bool
  | root, root => false
  | root, _ => true
  | _, root => false
  | current, current => false
  | current, _ => true
  | _, current => false
  | parent, parent => false
  | parent, _ => true
  | _, parent => false
  | name s, name t => decide (s < t)

/-- The order of paths, component by component. -/
def Component.listPrecedes : List Component → List Component → Bool
  | [], [] => false
  | [], _ :: _ => true
  | _ :: _, [] => false
  | a :: as, b :: bs => a.precedes b || (a == b && listPrecedes as bs)

def Path.le (p q : Path) : Bool :=
  !Component.listPrecedes q.components p.components

end StepLink
