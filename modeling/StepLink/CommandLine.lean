import StepLink.Config
import StepLink.Protocol.Answer

/-! The command line of the server. Arguments are read from left to right, and the first that asks for help, asks
for the version or is wrong decides. A value that is an argument of its own is checked when the next option or
the end comes, and not at all when an argument that is unknown comes before that. -/

namespace StepLink

/-- The options that take a value. -/
inductive CommandOption where
  | logLevel
  | scanBatchSize
  deriving DecidableEq, Repr

def CommandOption.name : CommandOption → String
  | logLevel => "log-level"
  | scanBatchSize => "scan-batch-size"

def CommandOption.usage : CommandOption → String
  | logLevel => "--log-level <LOG_LEVEL>"
  | scanBatchSize => "--scan-batch-size <SCAN_BATCH_SIZE>"

inductive UsageError where
  | invalidValue (o : CommandOption) (value : Text) (reason : String)
  | missingValue (o : CommandOption)
  | repeated (o : CommandOption)
  | unexpectedArgument (argument : Text)
  | unexpectedValue (option : String) (value : Text)
  deriving DecidableEq, Repr

def UsageError.message : UsageError → String
  | invalidValue o value reason => s!"invalid value '{String.ofList value}' for '{o.usage}': {reason}"
  | missingValue o => s!"a value is required for '{o.usage}' but none was supplied"
  | repeated o => s!"the argument '{o.usage}' cannot be used multiple times"
  | unexpectedArgument argument => s!"unexpected argument '{String.ofList argument}' found"
  | unexpectedValue option value =>
    s!"unexpected value '{String.ofList value}' for '{option}' found; no more were expected"

def UsageError.showsUsage : UsageError → Bool
  | invalidValue _ _ _ => false
  | missingValue _ => false
  | _ => true

structure CommandSettings where
  logLevel : Option LogLevel := none
  scanBatchSize : Option Nat := none
  deriving DecidableEq, Repr

/-- What the arguments ask for. -/
inductive Invocation where
  | serve (settings : CommandSettings)
  | help
  | version
  | refused (e : UsageError)
  deriving DecidableEq, Repr

namespace CommandLine

def usage : String := s!"Usage: {serverName} [OPTIONS]"

def helpText : String :=
  "Language server linking behave feature files to Python step definitions\n\n" ++ usage ++ "\n\nOptions:\n"
    ++ "      --log-level <LOG_LEVEL>\n          Log level (trace, debug, info, warn, error)\n"
    ++ "      --scan-batch-size <SCAN_BATCH_SIZE>\n"
    ++ "          Number of files read concurrently during a full workspace scan\n"
    ++ "  -h, --help\n          Print help\n  -V, --version\n          Print version\n"

def versionText : String := s!"{serverName} {serverVersion}\n"

def errorText (e : UsageError) : String :=
  "error: " ++ e.message ++ "\n\n" ++ (if e.showsUsage then usage ++ "\n\n" else "")
    ++ "For more information, try '--help'.\n"

def assign (s : CommandSettings) (o : CommandOption) (value : Text) : Except UsageError CommandSettings :=
  match o with
  | .logLevel =>
    if s.logLevel.isSome then .error (.repeated o)
    else match LogLevel.ofText value with
      | .ok level => .ok { s with logLevel := some level }
      | .error e => .error (.invalidValue o value e.message)
  | .scanBatchSize =>
    if s.scanBatchSize.isSome then .error (.repeated o)
    else match readWord value with
      | .ok n => .ok { s with scanBatchSize := some n }
      | .error e => .error (.invalidValue o value e.message)

/-- An option whose value is an argument of its own, which may not have come yet. -/
structure Pending where
  option : CommandOption
  value : Option Text
  deriving DecidableEq, Repr

/-- Set the option whose value is not checked yet. -/
def resolve (s : CommandSettings) : Option Pending → Except UsageError CommandSettings
  | none => .ok s
  | some ⟨o, some value⟩ => assign s o value
  | some ⟨o, none⟩ => .error (.missingValue o)

def option? (name : Text) : Option CommandOption :=
  [CommandOption.logLevel, .scanBatchSize].find? fun o => o.name.toList = name

/-- What follows the name of an option after an equals sign. -/
def attached? (t : Text) : Option Text :=
  match t.dropWhile (· != '=') with
  | _ :: value => some value
  | [] => none

/-- Read arguments after others that made these settings, the last of which may wait to be checked. -/
def readFrom (s : CommandSettings) (pending : Option Pending) : List Text → Invocation
  | [] =>
    match resolve s pending with
    | .ok s => .serve s
    | .error e => .refused e
  | argument :: rest =>
    let checked (next : CommandSettings → Invocation) : Invocation :=
      match resolve s pending with
      | .ok s => next s
      | .error e => .refused e
    match argument with
    | ['-', '-'] =>
      match rest with
      | [] => checked .serve
      | operand :: _ => .refused (.unexpectedArgument operand)
    | '-' :: '-' :: t =>
      let name := t.takeWhile (· != '=')
      match option? name, attached? t with
      | some o, some value => checked fun s =>
        match assign s o value with
        | .ok s => readFrom s none rest
        | .error e => .refused e
      | some o, none => checked fun s => readFrom s (some ⟨o, none⟩) rest
      | none, value =>
        let answer : Option Invocation :=
          if name = "help".toList then some .help else if name = "version".toList then some .version else none
        match answer, value with
        | none, _ => .refused (.unexpectedArgument ('-' :: '-' :: name))
        | some _, some value => .refused (.unexpectedValue (String.ofList ('-' :: '-' :: name)) value)
        | some answer, none => checked fun _ => answer
    | '-' :: letter :: _ =>
      if letter = 'h' then checked fun _ => .help
      else if letter = 'V' then checked fun _ => .version
      else .refused (.unexpectedArgument ['-', letter])
    | _ =>
      match pending with
      | some ⟨o, none⟩ => readFrom s (some ⟨o, some argument⟩) rest
      | _ => .refused (.unexpectedArgument argument)

def read (arguments : List Text) : Invocation :=
  readFrom {} none arguments

end CommandLine

end StepLink
