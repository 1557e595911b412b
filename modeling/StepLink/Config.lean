import StepLink.Text.Blank
import StepLink.Text.Lowercase

/-! The configuration of the server, from the environment and from options that take precedence. -/

namespace StepLink

inductive Failure where
  | notInitialised
  | alreadyInitialised
  | invalidConfig (detail : String)
  | missingLocation (detail : String)
  | watch (detail : String)
  | io (detail : String)
  deriving DecidableEq, Repr

def Failure.message : Failure → String
  | notInitialised => "server not initialised"
  | alreadyInitialised => "server already initialised"
  | invalidConfig detail => "invalid configuration: " ++ detail
  | missingLocation detail => "missing location: " ++ detail
  | watch detail => "file watcher failed: " ++ detail
  | io detail => "I/O error: " ++ detail

/-- Why a text is no unsigned integer of 64 bits. -/
inductive IntegerError where
  | empty
  | digit
  | overflow
  deriving DecidableEq, Repr

def IntegerError.message : IntegerError → String
  | empty => "cannot parse integer from empty string"
  | digit => "invalid digit found in string"
  | overflow => "number too large to fit in target type"

/-- The number of values of an unsigned integer. -/
def wordSize : Nat := 0x10000000000000000

def readDigits (value : Nat) : Text → Except IntegerError Nat
  | [] => .ok value
  | c :: t =>
    if !c.isDigit then .error .digit
    else if wordSize ≤ value * 10 then .error .overflow
    else
      let value := value * 10 + (c.toNat - '0'.toNat)
      if wordSize ≤ value then .error .overflow else readDigits value t

/-- Read an unsigned integer, which may have a plus sign. -/
def readWord (t : Text) : Except IntegerError Nat :=
  match t with
  | [] => .error .empty
  | ['+'] => .error .digit
  | '+' :: t => readDigits 0 t
  | t => readDigits 0 t

inductive LogLevel where
  | trace
  | debug
  | info
  | warn
  | error
  deriving DecidableEq, Repr

def LogLevel.name : LogLevel → String
  | trace => "trace"
  | debug => "debug"
  | info => "info"
  | warn => "warn"
  | error => "error"

def LogLevel.ofText (t : Text) : Except Failure LogLevel :=
  let lower := Text.lowercase t
  if lower = "trace".toList then .ok trace
  else if lower = "debug".toList then .ok debug
  else if lower = "info".toList then .ok info
  else if lower = "warn".toList || lower = "warning".toList then .ok warn
  else if lower = "error".toList then .ok error
  else .error (.invalidConfig
    s!"unknown log level '{String.ofList t}', expected one of: trace, debug, info, warn, error")

structure Configuration where
  logLevel : LogLevel := .info
  /-- The number of files that a full scan reads at a time. -/
  scanBatchSize : Nat := 20
  /-- The number of times that one scan reads its file again. -/
  maxRescanDepth : Nat := 5
  deriving DecidableEq, Repr

namespace Configuration

/-- Read a positive integer, or take the default where there is none. -/
def readCount (name : String) (default : Nat) : Option Text → Except Failure Nat
  | none => .ok default
  | some t =>
    match readWord (Text.trim t) with
    | .ok (n + 1) => .ok (n + 1)
    | _ => .error (.invalidConfig s!"invalid {name} value '{String.ofList t}', expected a positive integer")

def ofEnvironment (setting? : String → Option Text) : Except Failure Configuration := do
  let standard : Configuration := {}
  let logLevel ← match setting? "BEHAVE_LSP_LOG_LEVEL" with
    | some t => LogLevel.ofText t
    | none => .ok standard.logLevel
  let scanBatchSize ←
    readCount "scan batch size" standard.scanBatchSize (setting? "BEHAVE_LSP_SCAN_BATCH_SIZE")
  let maxRescanDepth ←
    readCount "rescan depth" standard.maxRescanDepth (setting? "BEHAVE_LSP_MAX_RESCAN_DEPTH")
  .ok { logLevel, scanBatchSize, maxRescanDepth }

/-- Let options take precedence; a batch size of zero counts as none. -/
def override (c : Configuration) (logLevel : Option LogLevel) (scanBatchSize : Option Nat) : Configuration where
  logLevel := logLevel.getD c.logLevel
  scanBatchSize := match scanBatchSize with
    | some (n + 1) => n + 1
    | _ => c.scanBatchSize
  maxRescanDepth := c.maxRescanDepth

end Configuration

end StepLink
