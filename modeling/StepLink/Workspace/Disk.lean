import StepLink.Glob.Filter

/-! The disk below a workspace: files and directories, addressed by the names on the way from the root of the
file system. Reading gives the text of a file or the reason why there is none; listing gives the files of a
corpus below a directory, without descending into directories that its filter prunes. -/

namespace StepLink

inductive FileData where
  | text (t : Text)
  /-- Bytes that are not the UTF-8 form of a text. -/
  | undecodable
  deriving DecidableEq, Repr

inductive ReadError where
  | missing
  | notDirectory
  | isDirectory
  | undecodable
  deriving DecidableEq, Repr

/-- The wording of the operating system. -/
def ReadError.message : ReadError → String
  | missing => "No such file or directory (os error 2)"
  | notDirectory => "Not a directory (os error 20)"
  | isDirectory => "Is a directory (os error 21)"
  | undecodable => "stream did not contain valid UTF-8"

structure Disk where
  files : List (List Text × FileData)
  directories : List (List Text)
  deriving Repr

namespace Disk

def empty : Disk :=
  ⟨[], []⟩

/-- The names on the way to a path, if it starts at the root. -/
def names? (p : Path) : Option (List Text) :=
  match p.components with
  | .root :: rest => some (rest.foldl (fun names c =>
      match c with
      | .name n => names ++ [n]
      | .parent => names.dropLast
      | _ => names) [])
  | _ => none

/-- The proper prefixes of a list of names that are not empty. -/
def ancestors (names : List Text) : List (List Text) :=
  (List.range names.length).tail.map names.take

def file? (d : Disk) (names : List Text) : Option FileData :=
  (d.files.find? fun entry => entry.1 == names).map (·.2)

def isDirectory (d : Disk) (names : List Text) : Bool :=
  names.isEmpty || d.directories.contains names

def holds (d : Disk) (p : Path) : Bool :=
  match names? p with
  | some names => (d.file? names).isSome || d.isDirectory names
  | none => false

/-- The path is spelled as that of a directory. -/
def endsInSeparator (p : Path) : Bool :=
  match p.spelling.reverse with
  | '/' :: _ => true
  | '.' :: '/' :: _ => true
  | _ => false

def read (d : Disk) (p : Path) : Except ReadError Text :=
  match names? p with
  | none => .error .missing
  | some names =>
    match d.file? names with
    | some data =>
      if endsInSeparator p then .error .notDirectory
      else match data with
        | .text t => .ok t
        | .undecodable => .error .undecodable
    | none =>
      if d.isDirectory names then .error .isDirectory
      else if (ancestors names).any fun a => (d.file? a).isSome then .error .notDirectory
      else .error .missing

/-- Create a directory and the directories above it. -/
def makeDirectory (d : Disk) (names : List Text) : Disk :=
  { d with directories :=
      d.directories ++ ((ancestors names ++ [names]).filter fun a => !d.directories.contains a) }

/-- Write a file, creating the directories above it. -/
def write (d : Disk) (p : Path) (data : FileData) : Disk :=
  match names? p with
  | none => d
  | some names =>
    if d.isDirectory names then d
    else if (d.file? names).isSome then
      { d with files := d.files.map fun entry => if entry.1 == names then (names, data) else entry }
    else
      let d := d.makeDirectory names.dropLast
      { d with files := d.files ++ [(names, data)] }

/-- Delete a file, or a directory with everything below it. -/
def delete (d : Disk) (p : Path) : Disk :=
  match names? p with
  | none => d
  | some names => {
      files := d.files.filter fun entry => !names.isPrefixOf entry.1
      directories := d.directories.filter fun dir => !names.isPrefixOf dir }

/-- Give a file or a directory another path, in place of what was there. -/
def rename (d : Disk) (p q : Path) : Disk :=
  match names? p, names? q with
  | some old, some new =>
    if d.holds p && !p.same q then
      let moved (names : List Text) := new ++ names.drop old.length
      let files := d.files.filter fun entry => old.isPrefixOf entry.1
      let directories := d.directories.filter fun dir => old.isPrefixOf dir
      let rest := ((d.delete p).delete q).makeDirectory new.dropLast
      { files := rest.files ++ files.map fun entry => (moved entry.1, entry.2)
        directories := rest.directories ++ directories.map moved }
    else d
  | _, _ => d

/-- The paths of the directories on the way from `root` down to an entry, `root` and the entry apart. -/
def pathsBetween (root : Path) : List Text → List Path
  | [] => []
  | [_] => []
  | name :: rest => root.join name :: pathsBetween (root.join name) rest

def pathBelow (root : Path) (names : List Text) : Path :=
  names.foldl Path.join root

structure WalkError where
  root : Path
  message : String
  deriving DecidableEq, Repr

/-- The files of a corpus below a directory, in the order of their paths. A directory that the filter prunes
is not descended into. -/
def list (d : Disk) (root : Path) (filter : CorpusFilter) : Except WalkError (List Path) :=
  match names? root with
  | none => .error ⟨root, missingRoot⟩
  | some names =>
    if d.isDirectory names then
      .ok (((d.files.filterMap fun entry =>
        if names.isPrefixOf entry.1 then
          let below := entry.1.drop names.length
          let path := pathBelow root below
          if filter.accepts path && !(pathsBetween root below).any filter.prunes then some path else none
        else none)).mergeSort Path.le)
    else if (d.file? names).isSome then .ok ([root].filter filter.accepts)
    else .error ⟨root, missingRoot⟩
where
  missingRoot : String :=
    s!"IO error for operation on {String.ofList root.spelling}: {ReadError.missing.message}"

end Disk

end StepLink
