import StepLink.Index.Warning

/-! The state of an index of items by file, and the sections of code that change it under its lock. Each
section is one function here; calls on the index, in `StepLink.Index.Call`, are sequences of sections between
which those of other calls may come.

The index holds the items of every tracked file in the order in which the files were first entered, counts
the changes of that map in `version`, and keeps the concatenation of all items until the next change. A path
that is being scanned is marked, together with whether it has to be read once more. -/

namespace StepLink

inductive Lifecycle where
  | created
  | active
  | disposed
  deriving DecidableEq, Repr

structure IndexSetup (α : Type) where
  root : Path
  parse : Path → Text → List α
  /-- What is wrong with a file. -/
  report : Path → Text → List Uncompilable
  /-- Two items do not count as a change. -/
  same : α → α → Bool
  /-- The number of files that a full scan reads at a time. -/
  batchSize : Nat
  /-- The number of times that one scan reads its file again. -/
  maxReplays : Nat

/-- A committed change that subscribers are still to be told of. -/
structure Notice where
  version : Nat
  /-- The path that was entered or removed; none for a change of many files. -/
  path : Option Path
  /-- The subscribers at the time of the change who have not been told yet. -/
  waiting : List Nat
  deriving DecidableEq, Repr

structure IndexState (α : Type) where
  files : List (Path × List α)
  flat : Option (List α)
  /-- The paths being scanned, with whether they have to be read again. -/
  scanning : List (Path × Bool)
  version : Nat
  globs : Selection
  filter : Option CorpusFilter
  rescanRunning : Bool
  rescanPending : Bool
  lifecycle : Lifecycle
  subscribers : List Nat
  nextSubscriber : Nat

namespace IndexState

variable {α : Type}

def new (globs : Selection) : IndexState α where
  files := []
  flat := none
  scanning := []
  version := 0
  globs := globs
  filter := none
  rescanRunning := false
  rescanPending := false
  lifecycle := .created
  subscribers := []
  nextSubscriber := 0

/-- The index has been disposed of and not been activated since. -/
def isDisposed (s : IndexState α) : Bool :=
  s.lifecycle == .disposed

def items? (s : IndexState α) (p : Path) : Option (List α) :=
  (s.files.find? fun entry => entry.1.same p).map (·.2)

def isTracked (s : IndexState α) (p : Path) : Bool :=
  (s.items? p).isSome

/-- Count a change of the files and forget the flat view; the notice for the subscribers of this moment. -/
def countChange (s : IndexState α) (path : Option Path) : IndexState α × Notice :=
  ({ s with flat := none, version := s.version + 1 }, ⟨s.version + 1, path, s.subscribers⟩)

/-- Whether a path is being scanned, and then whether it has to be read again. -/
def scanning? (s : IndexState α) (p : Path) : Option Bool :=
  (s.scanning.find? fun entry => entry.1.same p).map (·.2)

/-- Mark every scan of a path that satisfies the test for another read. -/
def requeue (s : IndexState α) (test : Path → Bool) : IndexState α :=
  { s with scanning := s.scanning.map fun entry => if test entry.1 then (entry.1, true) else entry }

/-- Begin a scan of a path. There is none to begin on a disposed index, and none while another one of the
path is in flight, which is then marked for another read. -/
def enterScan (s : IndexState α) (p : Path) : IndexState α × Bool :=
  if s.isDisposed then (s, false)
  else if (s.scanning? p).isSome then (s.requeue fun q => q.same p, false)
  else ({ s with scanning := s.scanning ++ [(p, false)] }, true)

def agree (same : α → α → Bool) : List α → List α → Bool
  | [], [] => true
  | a :: as, b :: bs => same a b && agree same as bs
  | _, _ => false

/-- The files after new items for a path, which keeps its place and spelling if it is tracked. -/
def enterFile (files : List (Path × List α)) (p : Path) (items : List α) : List (Path × List α) :=
  if files.any fun entry => entry.1.same p then
    files.map fun entry => if entry.1.same p then (entry.1, items) else entry
  else files ++ [(p, items)]

def commit (same : α → α → Bool) (s : IndexState α) (p : Path) (items : List α) :
    IndexState α × Option Notice :=
  if s.isDisposed then (s, none)
  else match s.items? p with
    | some previous =>
      if agree same previous items then (s, none)
      else
        let (s, notice) := { s with files := enterFile s.files p items }.countChange (some p)
        (s, some notice)
    | none =>
      let (s, notice) := { s with files := enterFile s.files p items }.countChange (some p)
      (s, some notice)

/-- Keep the files that satisfy a test; the change, if any, is reported for the given path. -/
def keepFiles (s : IndexState α) (test : Path → Bool) (path : Option Path) : IndexState α × Option Notice :=
  let kept := s.files.filter fun entry => test entry.1
  if kept.length = s.files.length then (s, none)
  else
    let (s, notice) := { s with files := kept }.countChange path
    (s, some notice)

/-- Drop a path and every tracked file beneath it. On request the scans in flight of such paths are marked for
another read, so that what they read before is not left behind. -/
def dropBelow (s : IndexState α) (p : Path) (again : Bool) : IndexState α × Option Notice :=
  let s := if again then s.requeue fun q => q.startsWith p else s
  s.keepFiles (fun q => !q.startsWith p) (some p)

def keepListed (s : IndexState α) (listed : List Path) : IndexState α × Option Notice :=
  s.keepFiles (fun q => listed.any fun p => p.same q) none

/-- What a scan does after one read. -/
inductive Verdict where
  | again
  | done
  /-- The file has to be read again, but has been read too often. -/
  | givenUp
  deriving DecidableEq, Repr

/-- Decide whether a scan that has read its file again `replays` times reads it once more; if it does not, it
is over. -/
def decideReplay (maxReplays : Nat) (s : IndexState α) (p : Path) (replays : Nat) : IndexState α × Verdict :=
  let queued := (s.scanning? p).getD false
  if queued && replays < maxReplays then
    ({ s with scanning := s.scanning.map fun entry => if entry.1.same p then (entry.1, false) else entry },
      .again)
  else
    ({ s with scanning := s.scanning.filter fun entry => !entry.1.same p },
      if queued then .givenUp else .done)

/-- The compiled globs, from now on kept until the globs change. -/
def compiledFilter (root : Path) (s : IndexState α) : IndexState α × CorpusFilter :=
  match s.filter with
  | some f => (s, f)
  | none =>
    let f := CorpusFilter.ofGlobs root s.globs
    ({ s with filter := some f }, f)

/-- Ask for a rescan. One that is running is followed by another pass; otherwise the caller runs it. -/
def requestRescan (s : IndexState α) : IndexState α × Bool :=
  if s.isDisposed then (s, false)
  else if s.rescanRunning then ({ s with rescanPending := true }, false)
  else ({ s with rescanRunning := true }, true)

/-- End a pass of a rescan; whether another one follows. -/
def finishPass (s : IndexState α) : IndexState α × Bool :=
  if s.rescanPending && !s.isDisposed then ({ s with rescanPending := false }, true)
  else ({ s with rescanPending := false, rescanRunning := false }, false)

/-- Replace the globs; whether they differ. -/
def setGlobs (s : IndexState α) (globs : Selection) : IndexState α × Bool :=
  if s.globs = globs then (s, false) else ({ s with globs := globs, filter := none }, true)

/-- Activate the index; whether it was not active before. -/
def activate (s : IndexState α) : IndexState α × Bool :=
  if s.lifecycle = .active then (s, false) else ({ s with lifecycle := .active }, true)

/-- Dispose of the index: it forgets files, scans and subscribers. Nobody is told. -/
def dispose (s : IndexState α) : IndexState α :=
  if s.isDisposed then s
  else
    let s :=
      if s.files.isEmpty then s else { s with files := [], flat := none, version := s.version + 1 }
    { s with lifecycle := .disposed, scanning := [], rescanPending := false, subscribers := [] }

def allItems (s : IndexState α) : List α :=
  s.files.flatMap (·.2)

/-- The flat view, from now on kept until the next change. -/
def snapshot (s : IndexState α) : IndexState α × List α :=
  match s.flat with
  | some items => (s, items)
  | none => ({ s with flat := some s.allItems }, s.allItems)

def subscribe (s : IndexState α) : IndexState α × Nat :=
  ({ s with subscribers := s.subscribers ++ [s.nextSubscriber], nextSubscriber := s.nextSubscriber + 1 },
    s.nextSubscriber)

/-- Remove a subscriber; whether it was there. -/
def unsubscribe (s : IndexState α) (id : Nat) : IndexState α × Bool :=
  ({ s with subscribers := s.subscribers.filter (· != id) }, s.subscribers.contains id)

end IndexState

end StepLink
