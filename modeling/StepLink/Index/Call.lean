import StepLink.Index.State
import StepLink.Workspace.Event

/-! Calls on an index as they go on. A call is a sequence of steps, each of which is one section under the lock
of the index, the start or the end of a read, or the telling of one subscriber; between two steps of a call,
any steps of other calls may come. A full scan has several scans in flight at once, so which of them takes the
next step is a parameter. -/

namespace StepLink

inductive Observation where
  | warned (w : Warning)
  /-- A subscriber is told of a change. -/
  | told (subscriber : Nat) (version : Nat) (path : Option Path)

/-- Tell the next subscriber; none is left where there is no notice any more. -/
def Notice.tell (n : Notice) : Option Notice × List Observation :=
  match n.waiting with
  | [] => (none, [])
  | id :: rest => (some { n with waiting := rest }, [.told id n.version n.path])

/-- Where a scan of one file stands; the number counts the times it has read the file again. -/
inductive ScanStage where
  | entering
  /-- A read has started. -/
  | reading (replays : Nat)
  /-- The read has its result, which is not committed yet. -/
  | holding (replays : Nat) (found : Except ReadError Text)
  | telling (replays : Nat) (notice : Notice)
  | deciding (replays : Nat)
  | ended (givenUp : Bool)

structure Scan where
  path : Path
  stage : ScanStage := .entering

namespace Scan

variable {α : Type}

def isEnded (c : Scan) : Bool :=
  match c.stage with
  | .ended _ => true
  | _ => false

def isReading (c : Scan) : Bool :=
  match c.stage with
  | .reading _ => true
  | .holding _ _ => true
  | _ => false

/-- The scan with what follows a commit. -/
def afterCommit (c : Scan) (replays : Nat) : Option Notice → Scan
  | some notice => { c with stage := .telling replays notice }
  | none => { c with stage := .deciding replays }

def step (setup : IndexSetup α) (world : World) (s : IndexState α) (c : Scan) :
    IndexState α × Scan × List Observation :=
  match c.stage with
  | .entering =>
    match s.enterScan c.path with
    | (s, true) => (s, { c with stage := .reading 0 }, [])
    | (s, false) => (s, { c with stage := .ended false }, [])
  | .reading replays => (s, { c with stage := .holding replays (world.read c.path) }, [])
  | .holding replays (.ok text) =>
    let (s, notice) := s.commit setup.same c.path (setup.parse c.path text)
    (s, c.afterCommit replays notice,
      (setup.report c.path text).map fun u => .warned (.skippedDefinition u))
  | .holding replays (.error e) =>
    let (s, notice) := s.dropBelow c.path false
    (s, c.afterCommit replays notice, [.warned (.unreadable c.path e)])
  | .telling replays notice =>
    let (notice, told) := notice.tell
    (s, c.afterCommit replays notice, told)
  | .deciding replays =>
    match s.decideReplay setup.maxReplays c.path replays with
    | (s, .again) => (s, { c with stage := .reading (replays + 1) }, [])
    | (s, .done) => (s, { c with stage := .ended false }, [])
    | (s, .givenUp) => (s, { c with stage := .ended true }, [.warned .keepsChanging])
  | .ended givenUp => (s, { c with stage := .ended givenUp }, [])

end Scan

/-- Where a full scan stands. -/
inductive Pass where
  | starting
  | filtering
  | listing (filter : CorpusFilter)
  | dropping (files : List Path)
  | telling (files : List Path) (notice : Notice)
  /-- Some scans are in flight; the other files wait. -/
  | scanning (running : List Scan) (waiting : List Path)
  | ended

namespace Pass

variable {α : Type}

/-- Take one step of a full scan; `pick` chooses among the scans in flight. -/
def step (setup : IndexSetup α) (world : World) (pick : Nat) (s : IndexState α) :
    Pass → IndexState α × Pass × List Observation
  | starting => (s, if s.isDisposed then ended else filtering, [])
  | filtering =>
    let (s, filter) := s.compiledFilter setup.root
    (s, listing filter, [])
  | listing filter =>
    match world.list setup.root filter with
    | .ok files => (s, dropping files, [])
    | .error e => (s, ended, [.warned (.unlistable e)])
  | dropping files =>
    match s.keepListed files with
    | (s, some notice) => (s, telling files notice, [])
    | (s, none) => (s, scanning [] files, [])
  | telling files notice =>
    match notice.tell with
    | (some notice, told) => (s, telling files notice, told)
    | (none, told) => (s, scanning [] files, told)
  | scanning running waiting =>
    if running.all Scan.isEnded then
      match waiting with
      | [] => (s, ended, [])
      | _ =>
        let size := max setup.batchSize 1
        (s, scanning ((waiting.take size).map fun p => ⟨p, .entering⟩) (waiting.drop size), [])
    else match running[pick]? with
      | none => (s, scanning running waiting, [])
      | some c =>
        let (s, c, seen) := c.step setup world s
        (s, scanning (running.set pick c) waiting, seen)
  | ended => (s, ended, [])

def scans : Pass → List Scan
  | scanning running _ => running
  | _ => []

end Pass

inductive Call where
  | scan (c : Scan)
  /-- Drop a path and everything beneath it. -/
  | removing (p : Path)
  | removed (notice : Notice)
  | pass (p : Pass)
  /-- Ask for a rescan. -/
  | requesting
  | passing (p : Pass)
  /-- A pass of a rescan is over. -/
  | closing
  /-- Find out whether a changed file belongs to the corpus. -/
  | routing (p : Path)
  /-- Find out whether a changed file that does not belong to the corpus is tracked. -/
  | tracking (p : Path)
  | configuring (globs : Selection)
  | activating
  /-- The call is over; a removal tells whether it dropped anything. -/
  | ended (dropped : Bool)

namespace Call

variable {α : Type}

def ofEvent : FileEvent → Call
  | .created p => routing p
  | .modified p => routing p
  | .removed p => removing p

def isEnded : Call → Bool
  | ended _ => true
  | _ => false

def scans : Call → List Scan
  | scan c => [c]
  | pass p => p.scans
  | passing p => p.scans
  | _ => []

/-- Take one step of a call; `pick` chooses among the scans in flight. -/
def step (setup : IndexSetup α) (world : World) (pick : Nat) (s : IndexState α) :
    Call → IndexState α × Call × List Observation
  | scan c =>
    let (s, c, seen) := c.step setup world s
    (s, if c.isEnded then ended false else scan c, seen)
  | removing p =>
    match s.dropBelow p true with
    | (s, some notice) => (s, removed notice, [])
    | (s, none) => (s, ended false, [])
  | removed notice =>
    match notice.tell with
    | (some notice, told) => (s, removed notice, told)
    | (none, told) => (s, ended true, told)
  | pass p =>
    match p.step setup world pick s with
    | (s, .ended, seen) => (s, ended false, seen)
    | (s, p, seen) => (s, pass p, seen)
  | requesting =>
    match s.requestRescan with
    | (s, true) => (s, passing .starting, [])
    | (s, false) => (s, ended false, [])
  | passing p =>
    match p.step setup world pick s with
    | (s, .ended, seen) => (s, closing, seen)
    | (s, p, seen) => (s, passing p, seen)
  | closing =>
    match s.finishPass with
    | (s, true) => (s, passing .starting, [])
    | (s, false) => (s, ended false, [])
  | routing p =>
    let (s, filter) := s.compiledFilter setup.root
    (s, if filter.accepts p then scan ⟨p, .entering⟩ else tracking p, [])
  | tracking p => (s, if s.isTracked p then removing p else ended false, [])
  | configuring globs =>
    match s.setGlobs globs with
    | (s, true) => (s, requesting, [])
    | (s, false) => (s, ended false, [])
  | activating =>
    match s.activate with
    | (s, true) => (s, requesting, [])
    | (s, false) => (s, ended false, [])
  | ended dropped => (s, ended dropped, [])

/-- The scan that steps next where nothing else interferes: a batch is started as a whole, and then its scans
end one after the other. -/
def nextPick (c : Call) : Nat :=
  let entering (c : Scan) : Bool := match c.stage with
    | .entering => true
    | _ => false
  match c.scans.findIdx? entering with
  | some i => i
  | none => (c.scans.findIdx? fun c => !c.isEnded).getD 0

end Call

end StepLink
