import StepLink.Config
import StepLink.Protocol.Request
import StepLink.Server.Job

/-! The state of the server, and what the reports of the editor do to it. Every report is worked into the state
at once, and leaves a job where an index or the diagnostics have to follow. Without indexes there is nothing
to follow, so no job is left then. -/

namespace StepLink

structure Server where
  config : Configuration := {}
  /-- An editor is there to be told of diagnostics. -/
  connected : Bool := true
  /-- The editor has said what it is able to do. -/
  introduced : Bool := false
  folders : List Uri := []
  root : Option Path := none
  initialised : Bool := false
  documents : Documents := .empty
  settings : SettingsSource := .new
  indexes : Option Indexes := none
  /-- Changes on the disk below the root are reported. -/
  watching : Bool := false
  jobs : List Job := []

namespace Server

/-- Leave a job, if there are indexes to work on. -/
def enqueue (s : Server) (job : Job) : Server :=
  if s.indexes.isSome then { s with jobs := s.jobs ++ [job] } else s

/-- The job for a corpus under changed settings. -/
def reconfiguring (settings : CorpusSettings) (c : Corpus) : Job :=
  [.onCorpus c (.configuring (settings.selection c)), .refresh]

/-- Take over settings; whoever listens to a corpus that they change gets a job. -/
def configure (s : Server) (settings : Json) : Server :=
  let (source, _, told) := s.settings.update (.ofJson settings)
  told.foldl (fun s listener => s.enqueue (reconfiguring source.current listener.2)) { s with settings := source }

/-- The path of the workspace: that of the first folder, or else the one given apart. -/
def workspacePath? (folders : List Uri) (root : Option Uri) : Option Path :=
  (folders.head?.bind Uri.path?).or (root.bind Uri.path?)

/-- An editor introduces itself. This is possible until it is initialised. -/
def introduce (s : Server) (i : Introduction) : Except Failure Server :=
  if s.initialised then .error .alreadyInitialised
  else
    let folders := i.folders.getD s.folders
    let s := { s with
      introduced := true
      folders := folders
      root := (workspacePath? folders i.root).or s.root }
    .ok (match i.options with
      | some options => s.configure options
      | none => s)

def starting : Job :=
  [.running .activating .activating, .refresh]

/-- The editor is initialised: the indexes of the workspace are built, and what they depend on is listened to.
Only a root that exists is watched. -/
def start (s : Server) (disk : Disk) : Server :=
  let s := { s with initialised := true }
  match s.root with
  | none => s
  | some root =>
    let current := s.settings.current
    let s := { s with indexes := some (.new root (current.selection .steps) (current.selection .features)
      s.config.scanBatchSize s.config.maxRescanDepth) }
    let s :=
      if s.connected then
        { s with
          settings := (s.settings.subscribe .steps).subscribe .features
          watching := disk.holds root }
      else s
    s.enqueue starting

def replaceDocument (s : Server) (p : Path) (document : Buffer) : Server :=
  { s with documents := s.documents.upsert p document }

/-- A document is opened, or its text is replaced. -/
def openDocument (s : Server) (p : Path) (document : Buffer) : Server :=
  (s.replaceDocument p document).enqueue (Action.sync p)

/-- A document is saved; the text that was saved, if it is known, becomes that of an open document. -/
def saveDocument (s : Server) (p : Path) (text : Option Text) : Server :=
  let s := match text, s.documents.get? p with
    | some text, some document => s.replaceDocument p ⟨text, document.version⟩
    | _, _ => s
  s.enqueue (Action.sync p)

/-- A document is closed: what is on the disk counts again. -/
def closeDocument (s : Server) (p : Path) : Server :=
  { s with documents := s.documents.close p }.enqueue (.clear p :: Action.sync p)

def followFile (s : Server) (e : FileEvent) : Server :=
  s.enqueue [.follow e]

def shutdown (s : Server) : Server :=
  { s with
    watching := false
    indexes := s.indexes.map fun x => { x with
      definitions := { x.definitions with state := x.definitions.state.dispose }
      usages := { x.usages with state := x.usages.state.dispose } } }

/-- Take in a report of the editor. One about a document without a path is passed over. -/
def notify (s : Server) (disk : Disk) : Notification → Server
  | .initialized => s.start disk
  | .opened document text version =>
    match document.path? with
    | some p => s.openDocument p ⟨text, version⟩
    | none => s
  | .changed document version texts =>
    match document.path?, texts.getLast? with
    | some p, some text => s.openDocument p ⟨text, version⟩
    | _, _ => s
  | .saved document text =>
    match document.path? with
    | some p => s.saveDocument p text
    | none => s
  | .closed document =>
    match document.path? with
    | some p => s.closeDocument p
    | none => s
  | .configured settings => s.configure settings
  | .exit => s

def world (s : Server) (disk : Disk) : World :=
  ⟨s.documents, disk⟩

end Server

end StepLink
