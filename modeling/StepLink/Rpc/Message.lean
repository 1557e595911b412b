import StepLink.Json.Parser
import StepLink.Protocol.Decoder

/-! Messages of the remote procedure call: requests, which carry an identifier, notifications, which do not,
and responses to what the other side was asked. -/

namespace StepLink

inductive RequestId where
  | number (n : Int)
  | name (t : Text)
  deriving DecidableEq, Repr

inductive Message where
  | request (id : RequestId) (method : Text) (params : Json)
  | notification (method : Text) (params : Json)
  | response (id : RequestId)

/-- Read an identifier: an integer of 32 bits or a string. -/
def RequestId.ofJson? : Json → Option RequestId
  | .string t => some (name t)
  | j => match Json.decodeInt j with
    | .ok n => some (number n)
    | .error _ => none

def RequestId.toJson : RequestId → Json
  | number n => .integer n
  | name t => .string t

namespace Message

def callVersion : String := "2.0"

/-- Read a message. A method with an identifier is a request, an identifier alone a response. -/
def ofJson? (j : Json) : Option Message :=
  if (j.get? "jsonrpc").bind Json.text? = some callVersion.toList then
    let method := (j.get? "method").bind Json.text?
    let params := (j.get? "params").getD .null
    match (j.get? "id").bind RequestId.ofJson?, method with
    | some id, some method => some (request id method params)
    | some id, none => some (response id)
    | none, some method => some (notification method params)
    | none, none => none
  else none

def ofText? (body : Text) : Option Message :=
  (Json.parse? body).bind ofJson?

end Message

end StepLink
