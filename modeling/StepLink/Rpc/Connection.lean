import StepLink.Rpc.Message
import StepLink.Server.Reply
import StepLink.Server.Run

/-! The connection to an editor. It passes through the stages of a session, each of which admits some messages
only, and ends with the process: on request with success, and with failure when the editor breaks the rules or
the stream ends. -/

namespace StepLink

inductive SessionStage where
  | fresh
  /-- The editor has introduced itself. -/
  | introduced
  | ready
  | shuttingDown
  deriving DecidableEq, Repr

inductive Ending where
  | success
  | failure
  deriving DecidableEq, Repr

def Ending.code : Ending → Nat
  | success => 0
  | failure => 1

inductive Outgoing where
  | response (id : RequestId) (reply : Except RequestError Answer)
  | publication (p : Publication)

structure Connection where
  stage : SessionStage := .fresh
  server : Server

structure Reception where
  connection : Connection
  sent : List Outgoing := []
  warnings : List Warning := []
  ending : Option Ending := none

namespace Connection

def new (config : Configuration) : Connection where
  server := { config }

/-- A request that cannot be read, or whose method is unknown, is answered with an error. -/
def requestOf (method : Text) (params : Json) : Except RequestError Request :=
  match Request.ofJson? method params with
  | some (.ok r) => .ok r
  | some (.error e) => .error ⟨.invalidParams, "Failed to deserialize parameters: " ++ e⟩
  | none => .error ⟨.methodNotFound, "No such method " ++ String.ofList method⟩

/-- The stage after a request, if this stage admits it. -/
def stageAfter (stage : SessionStage) (method : Text) : Except RequestError SessionStage :=
  let introducing := method = "initialize".toList
  match stage with
  | .fresh =>
    if introducing then .ok .introduced else .error ⟨.notInitialized, "Server is not initialized yet"⟩
  | .introduced => .error ⟨.notInitialized, "Server is not initialized yet"⟩
  | .ready =>
    if introducing then .error ⟨.invalidRequest, "Server is already initialized"⟩
    else .ok (if method = "shutdown".toList then .shuttingDown else .ready)
  | .shuttingDown =>
    .error ⟨.invalidRequest, if introducing then "Server is already initialized" else "Server is shutting down"⟩

def reply (c : Connection) (disk : Disk) (id : RequestId) (method : Text) (params : Json) : Reception :=
  match stageAfter c.stage method with
  | .error e => { connection := c, sent := [.response id (.error e)] }
  | .ok stage =>
    let c := { c with stage }
    match requestOf method params with
    | .error e => { connection := c, sent := [.response id (.error e)] }
    | .ok r =>
      let (server, reply, warnings) := c.server.answer disk r
      { connection := { c with server }, sent := [.response id (reply.mapError Failure.reply)], warnings }

/-- Pass a notification on. One that is unknown may be ignored if its name says so; any other that is unknown or
cannot be read ends the connection. -/
def pass (c : Connection) (disk : Disk) (method : Text) (params : Json) : Reception :=
  match Notification.ofJson? method params with
  | some (.ok .exit) => { connection := c, ending := some .success }
  | some (.ok n) => { connection := { c with server := c.server.notify disk n } }
  | some (.error _) => { connection := c, ending := some .failure }
  | none =>
    if "$/".toList.isPrefixOf method then { connection := c } else { connection := c, ending := some .failure }

/-- Take in a notification. The editor is initialised once, after its introduction. -/
def hear (c : Connection) (disk : Disk) (method : Text) (params : Json) : Reception :=
  if method = "initialized".toList then
    if c.stage = .introduced then { c with stage := .ready }.pass disk method params
    else { connection := c, ending := some .failure }
  else c.pass disk method params

def receive (c : Connection) (disk : Disk) : Message → Reception
  | .request id method params => c.reply disk id method params
  | .notification method params => c.hear disk method params
  | .response _ => { connection := c }

def sentOf : Output → Option Outgoing
  | .published p => some (.publication p)
  | .logged _ => none

def loggedOf : Output → Option Warning
  | .published _ => none
  | .logged w => some w

/-- Let the background work come to its end. -/
def settle (c : Connection) (disk : Disk) : Reception :=
  let (server, outputs) := c.server.settle disk
  { connection := { c with server }, sent := outputs.filterMap sentOf, warnings := outputs.filterMap loggedOf }

end Connection

def Outgoing.toJson : Outgoing → Json
  | response id (.ok a) => .ofMembers [("jsonrpc", .ofString Message.callVersion), ("id", id.toJson),
      ("result", Protocol.encodeAnswer a)]
  | response id (.error e) => .ofMembers [("jsonrpc", .ofString Message.callVersion), ("id", id.toJson),
      ("error", Protocol.encodeError e)]
  | publication p => .ofMembers [("jsonrpc", .ofString Message.callVersion),
      ("method", .ofString "textDocument/publishDiagnostics"), ("params", Protocol.encodePublication p)]

end StepLink
