import StepLink.Index.Definitions
import StepLink.Index.Usages

/-! Runs of an index. Any number of calls may be under way; at every moment a new one begins, one of them
takes a step in a world of that moment, or one of the operations that are a single section of code happens.
What a run can do to the index is stated once, as a list of sections, from which every invariant is derived.
-/

namespace StepLink

/-- What can be asked of an index. -/
inductive IndexRequest where
  | scanFile (p : Path)
  | removeFile (p : Path)
  | fileEvent (e : FileEvent)
  | scanAll
  | rescan
  | setGlobs (globs : Selection)
  | activate

def IndexRequest.call : IndexRequest → Call
  | scanFile p => .scan ⟨p, .entering⟩
  | removeFile p => .removing p
  | fileEvent e => .ofEvent e
  | scanAll => .pass .starting
  | rescan => .requesting
  | setGlobs globs => .configuring globs
  | activate => .activating

/-- What happens at one moment. -/
inductive Move where
  | start (r : IndexRequest)
  /-- A call takes a step; `pick` chooses among its scans, and what it reads is that of the world. -/
  | advance (number : Nat) (world : World) (pick : Nat)
  | dispose
  | snapshot
  | subscribe
  | unsubscribe (id : Nat)

/-- An index with the calls on it in the order in which they began. A call that is over keeps its place, so
its number stands for it throughout. -/
structure Traffic (α : Type) where
  index : IndexState α
  calls : List Call

namespace Traffic

variable {α : Type}

def new (globs : Selection) : Traffic α :=
  ⟨.new globs, []⟩

def step (setup : IndexSetup α) (x : Traffic α) : Move → Traffic α
  | .start r => { x with calls := x.calls ++ [r.call] }
  | .advance number world pick =>
    match x.calls[number]? with
    | none => x
    | some c =>
      let (s, c, _) := c.step setup world pick x.index
      ⟨s, x.calls.set number c⟩
  | .dispose => { x with index := x.index.dispose }
  | .snapshot => { x with index := x.index.snapshot.1 }
  | .subscribe => { x with index := x.index.subscribe.1 }
  | .unsubscribe id => { x with index := (x.index.unsubscribe id).1 }

/-- What there is at a moment of the run of some moves. -/
def after (setup : IndexSetup α) (x : Traffic α) (moves : Nat → Move) : Nat → Traffic α
  | 0 => x
  | t + 1 => (after setup x moves t).step setup (moves t)

end Traffic

variable {α : Type}

/-- A feature file with one step, open in the editor. -/
def oneStepWorld : World :=
  ⟨⟨[(⟨"/w/a.feature".toList⟩, ⟨"Given a".toList, 1⟩)]⟩, .empty⟩

/-- A workspace with one feature file. -/
def featureWorld : World :=
  ⟨.empty, ⟨[(["w".toList, "a.feature".toList], .text "Given a".toList)], [["w".toList]]⟩⟩

/-- Some run on an index that was new leads to the state. -/
def Reachable (setup : IndexSetup α) (s : IndexState α) : Prop :=
  ∃ globs moves t, ((Traffic.new globs).after setup moves t).index = s

/-- The sections of code that change an index under its lock: each leads from a state to the next. -/
inductive Section (setup : IndexSetup α) (s : IndexState α) : IndexState α → Prop where
  | idle : Section setup s s
  | enter (p : Path) : Section setup s (s.enterScan p).1
  | commit (p : Path) (text : Text) : Section setup s (s.commit setup.same p (setup.parse p text)).1
  | drop (p : Path) (again : Bool) : Section setup s (s.dropBelow p again).1
  | keep (listed : List Path) : Section setup s (s.keepListed listed).1
  | decide (p : Path) (replays : Nat) : Section setup s (s.decideReplay setup.maxReplays p replays).1
  | filter : Section setup s (s.compiledFilter setup.root).1
  | request : Section setup s s.requestRescan.1
  | finish : Section setup s s.finishPass.1
  | configure (globs : Selection) : Section setup s (s.setGlobs globs).1
  | activate : Section setup s s.activate.1
  | dispose : Section setup s s.dispose
  | snapshot : Section setup s s.snapshot.1
  | subscribe : Section setup s s.subscribe.1
  | unsubscribe (id : Nat) : Section setup s (s.unsubscribe id).1

theorem Scan.step_section (setup : IndexSetup α) (world : World) (s : IndexState α) (c : Scan) :
    Section setup s (c.step setup world s).1 := by
  obtain ⟨p, stage⟩ := c
  cases stage with
  | entering =>
    have h : Section setup s (s.enterScan p).1 := .enter p
    simp only [Scan.step]
    split <;> simp_all
  | reading replays => exact .idle
  | holding replays found =>
    cases found with
    | ok text => exact .commit p text
    | error e => exact .drop p false
  | telling replays notice => exact .idle
  | deciding replays =>
    have h : Section setup s (s.decideReplay setup.maxReplays p replays).1 := .decide p replays
    simp only [Scan.step]
    split <;> simp_all
  | ended givenUp => exact .idle

theorem Pass.step_section (setup : IndexSetup α) (world : World) (pick : Nat) (s : IndexState α) (p : Pass) :
    Section setup s (p.step setup world pick s).1 := by
  cases p with
  | starting => exact .idle
  | filtering => exact .filter
  | listing filter =>
    simp only [Pass.step]
    split <;> exact .idle
  | dropping files =>
    have h : Section setup s (s.keepListed files).1 := .keep files
    simp only [Pass.step]
    split <;> simp_all
  | telling files notice =>
    simp only [Pass.step]
    split <;> exact .idle
  | scanning running waiting =>
    simp only [Pass.step]
    split
    · split <;> exact .idle
    · split
      · exact .idle
      · exact Scan.step_section setup world s _
  | ended => exact .idle

theorem Call.step_section (setup : IndexSetup α) (world : World) (pick : Nat) (s : IndexState α) (c : Call) :
    Section setup s (c.step setup world pick s).1 := by
  cases c with
  | scan c => exact Scan.step_section setup world s c
  | removing p =>
    have h : Section setup s (s.dropBelow p true).1 := .drop p true
    simp only [Call.step]
    split <;> simp_all
  | removed notice =>
    simp only [Call.step]
    split <;> exact .idle
  | pass p =>
    have h := Pass.step_section setup world pick s p
    simp only [Call.step]
    split <;> simp_all
  | requesting =>
    have h : Section setup s s.requestRescan.1 := .request
    simp only [Call.step]
    split <;> simp_all
  | passing p =>
    have h := Pass.step_section setup world pick s p
    simp only [Call.step]
    split <;> simp_all
  | closing =>
    have h : Section setup s s.finishPass.1 := .finish
    simp only [Call.step]
    split <;> simp_all
  | routing p => exact .filter
  | tracking p => exact .idle
  | configuring globs =>
    have h : Section setup s (s.setGlobs globs).1 := .configure globs
    simp only [Call.step]
    split <;> simp_all
  | activating =>
    have h : Section setup s s.activate.1 := .activate
    simp only [Call.step]
    split <;> simp_all
  | ended dropped => exact .idle

/-- Whatever happens at one moment is one section of code, or leaves the index alone. -/
theorem Traffic.step_section (setup : IndexSetup α) (x : Traffic α) (m : Move) :
    Section setup x.index (x.step setup m).index := by
  cases m with
  | start r => exact .idle
  | advance number world pick =>
    simp only [Traffic.step]
    split
    · exact .idle
    · exact Call.step_section setup world pick x.index _
  | dispose => exact .dispose
  | snapshot => exact .snapshot
  | subscribe => exact .subscribe
  | unsubscribe id => exact .unsubscribe id

/-- What holds of a new index and is kept by every section holds of every state that a run leads to. -/
theorem Reachable.induct {setup : IndexSetup α} {P : IndexState α → Prop} (hnew : ∀ globs, P (.new globs))
    (hsection : ∀ {s t}, Section setup s t → P s → P t) {s : IndexState α} (h : Reachable setup s) : P s := by
  obtain ⟨globs, moves, t, rfl⟩ := h
  induction t with
  | zero => exact hnew globs
  | succ t ih => exact hsection (Traffic.step_section setup _ (moves t)) ih

end StepLink
