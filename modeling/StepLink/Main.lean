import StepLink.CommandLine
import StepLink.Rpc.Connection
import StepLink.Rpc.Frame
import StepLink.Workspace.Change

/-! The program: it reads the command line and the environment, and then carries messages between the editor and
a connection. The connection sees the disk as it was looked at last: the files below the root of the workspace
that belong to a corpus, and the document that a message is about. -/

namespace StepLink.Program

def spelled (p : Path) : String :=
  String.ofList p.spelling

/-- The data of a file, or none where there is no file. -/
def readData (p : Path) : IO (Option FileData) := do
  try
    let bytes ← IO.FS.readBinFile (spelled p)
    match String.fromUTF8? bytes with
    | some s => return some (.text s.toList)
    | none => return some .undecodable
  catch _ => return none

/-- Add the files below a directory that belong to a corpus. -/
partial def readBelow (filters : List CorpusFilter) (directory : Path) (disk : Disk) : IO Disk := do
  let entries ← try (← IO.FS.realPath (spelled directory)).readDir catch _ => pure #[]
  let mut disk := disk
  for entry in entries do
    let p := directory.join entry.fileName.toList
    let kind ← try pure (some (← entry.path.symlinkMetadata).type) catch _ => pure none
    match kind with
    | some .dir => if !filters.all fun f => f.prunes p then disk ← readBelow filters p disk
    | some .file =>
      if filters.any fun f => f.accepts p then
        if let some data ← readData p then disk := disk.write p data
    | _ => pure ()
  return disk

def filtersOf (s : Server) (root : Path) : List CorpusFilter :=
  [Corpus.steps, .features].map fun c => .ofGlobs root (s.settings.current.selection c)

/-- Look at the workspace. -/
def lookAt (s : Server) : IO Disk := do
  match s.root with
  | none => return .empty
  | some root =>
    try
      let _ ← (← IO.FS.realPath (spelled root)).readDir
      let start := match Disk.names? root with
        | some names => Disk.empty.makeDirectory names
        | none => .empty
      readBelow (filtersOf s root) root start
    catch _ => return .empty

/-- The path of the document that a message is about. -/
def documentOf? : Message → Option Path
  | .request _ _ params => pathOf? params
  | .notification _ params => pathOf? params
  | .response _ => none
where
  pathOf? (params : Json) : Option Path := do
    let t ← ((← params.get? "textDocument").get? "uri").bind Json.text?
    (← Uri.ofText? t).path?

/-- Look at the workspace and at the document that a message is about. -/
def lookFor (s : Server) (m : Message) : IO Disk := do
  let disk ← lookAt s
  match documentOf? m with
  | none => return disk
  | some p =>
    match ← readData p with
    | some data => return disk.write p data
    | none => return disk

/-- Read a number of bytes, or fewer where the stream ends. -/
partial def readBytes (input : IO.FS.Stream) (size : Nat) (bytes : ByteArray) : IO ByteArray := do
  if bytes.size ≥ size then return bytes
  let more ← input.read (USize.ofNat (size - bytes.size))
  if more.isEmpty then return bytes
  readBytes input size (bytes ++ more)

/-- Read the next message after some header lines; none where the stream ends or is malformed. -/
partial def readMessage (input : IO.FS.Stream) (lines : Text) : IO (Option Message) := do
  let line ← input.getLine
  if line.isEmpty then return none
  let lines := lines ++ line.toList
  match Frame.header lines with
  | .incomplete => readMessage input lines
  | .malformed => return none
  | .complete size _ =>
    let bytes ← readBytes input size .empty
    if bytes.size < size then return none
    return (String.fromUTF8? bytes).bind fun body => Message.ofText? body.toList

def carryOut (r : Reception) : IO Unit := do
  let output ← IO.getStdout
  for message in r.sent do
    output.putStr (String.ofList (Frame.print message.toJson.print))
  output.flush
  if r.connection.server.config.logLevel != .error then
    for w in r.warnings do IO.eprintln ("WARN " ++ w.message)

def finishWork (c : Connection) (disk : Disk) : IO Connection := do
  let r := c.settle disk
  carryOut r
  return r.connection

/-- Follow the changes on the disk since the last look. -/
def followDisk (c : Connection) (seen : Disk) : IO (Connection × Disk) := do
  if !c.server.watching then return (c, seen)
  let disk ← lookAt c.server
  let events := disk.eventsSince seen
  let c ← events.foldlM (fun c e => finishWork { c with server := c.server.followFile e } disk) c
  return (c, disk)

/-- Serve the editor until the connection ends; `seen` is the disk at the last look. -/
partial def serve (input : IO.FS.Stream) (c : Connection) (seen : Disk) : IO UInt32 := do
  let reading ← IO.asTask (readMessage input [])
  let mut c := c
  let mut seen := seen
  let mut ticks := 0
  while !(← IO.hasFinished reading) do
    IO.sleep 10
    ticks := ticks + 1
    if ticks % 50 == 0 then (c, seen) ← followDisk c seen
  match reading.get with
  | .error _ => return 1
  | .ok none => return 1
  | .ok (some m) =>
    (c, seen) ← followDisk c seen
    let wasWatching := c.server.watching
    let r := c.receive (← lookFor c.server m) m
    carryOut r
    match r.ending with
    | some ending => return UInt32.ofNat ending.code
    | none =>
      let disk ← lookFor r.connection.server m
      let next ← finishWork r.connection disk
      if !wasWatching then seen ← lookAt next.server
      serve input next seen

def variableNames : List String :=
  ["BEHAVE_LSP_LOG_LEVEL", "BEHAVE_LSP_SCAN_BATCH_SIZE", "BEHAVE_LSP_MAX_RESCAN_DEPTH"]

def run (settings : CommandSettings) : IO UInt32 := do
  let values ← variableNames.mapM fun name => do return (name, (← IO.getEnv name).map String.toList)
  let setting? (name : String) : Option Text := (values.find? fun v => v.1 == name).bind (·.2)
  match Configuration.ofEnvironment setting? with
  | .error e =>
    IO.eprintln ("ERROR " ++ e.message)
    return 2
  | .ok config =>
    let config := config.override settings.logLevel settings.scanBatchSize
    serve (← IO.getStdin) (.new config) .empty

end StepLink.Program

open StepLink in
def main (arguments : List String) : IO UInt32 := do
  match CommandLine.read (arguments.map String.toList) with
  | .help =>
    IO.print CommandLine.helpText
    return 0
  | .version =>
    IO.print CommandLine.versionText
    return 0
  | .refused e =>
    IO.eprint (CommandLine.errorText e)
    return 2
  | .serve settings => Program.run settings
