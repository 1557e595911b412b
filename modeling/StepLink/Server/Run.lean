import StepLink.Server.State

/-! Running the jobs of the server. Any job may take the next step; the standard order finishes the first job
before it turns to the next. -/

namespace StepLink.Server

/-- The job of the given number takes a step. A job without actions is over. -/
def step (disk : Disk) (number : Nat) (turn : Turn) (s : Server) : Server × List Output :=
  match s.jobs[number]?, s.indexes with
  | some (action :: rest), some x =>
    let (x, left, outputs) := action.step s.connected (s.world disk) turn x
    ({ s with indexes := some x, jobs := s.jobs.set number (left ++ rest) }, outputs)
  | some _, _ => ({ s with jobs := s.jobs.eraseIdx number }, [])
  | none, _ => (s, [])

/-- The first job takes a step. -/
def advance (disk : Disk) (s : Server) : Server × List Output :=
  let turn := match s.jobs with
    | (action :: _) :: _ => action.nextTurn
    | _ => ⟨.steps, 0⟩
  s.step disk 0 turn

/-- Run the jobs for at most the given number of steps; `outputs` holds what became known before, the last of
it first. -/
def runFor (disk : Disk) : Nat → Server → List Output → Server × List Output
  | 0, s, outputs => (s, outputs.reverse)
  | fuel + 1, s, outputs =>
    if s.jobs.isEmpty then (s, outputs.reverse)
    else
      let (s, seen) := s.advance disk
      runFor disk fuel s (seen.reverse ++ outputs)

/-- A number of steps within which all jobs are over. The longest job fills both indexes: for each of the two
it takes one step for each batch and six for each file, and a dozen around them. -/
def workBound (disk : Disk) (s : Server) : Nat :=
  s.jobs.length * (64 + 32 * disk.files.length)

/-- Run the jobs until none is left. -/
def settle (disk : Disk) (s : Server) : Server × List Output :=
  s.runFor disk (s.workBound disk) []

end StepLink.Server
