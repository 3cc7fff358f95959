import QwenHarness.Table.Keyed

/-!
# The teammate protocol

Teammates coordinate through typed messages. A request carries a correlation id, and a response
counts only if it answers an outstanding request: under the same id, of the type that request is
answered with, from the member that was asked and to the one that asked.
-/

namespace QwenHarness.Teams

inductive ProtocolMessage where
  | message (text : String)
  | idle
  | modeSet (mode : String)
  | termination (reason : String)
  | taskAssignment (taskId : ℕ)
  | teamPermissionUpdate (profile : String)
  | permissionRequest (correlationId action : String)
  | permissionResponse (correlationId : String) (granted : Bool)
  | planApprovalRequest (correlationId plan : String)
  | planApprovalResponse (correlationId : String) (approved : Bool) (feedback : Option String)
  | shutdownRequest (correlationId : String)
  | shutdownApproved (correlationId : String)
  | shutdownRejected (correlationId reason : String)
  | sandboxPermissionRequest (correlationId capability : String)
  | sandboxPermissionResponse (correlationId : String) (granted : Bool)
deriving DecidableEq, Repr

inductive ProtocolMessageType where
  | message
  | idle
  | modeSet
  | termination
  | taskAssignment
  | teamPermissionUpdate
  | permissionRequest
  | permissionResponse
  | planApprovalRequest
  | planApprovalResponse
  | shutdownRequest
  | shutdownApproved
  | shutdownRejected
  | sandboxPermissionRequest
  | sandboxPermissionResponse
deriving DecidableEq, Repr

def ProtocolMessage.type : ProtocolMessage → ProtocolMessageType
  | .message _ => .message
  | .idle => .idle
  | .modeSet _ => .modeSet
  | .termination _ => .termination
  | .taskAssignment _ => .taskAssignment
  | .teamPermissionUpdate _ => .teamPermissionUpdate
  | .permissionRequest .. => .permissionRequest
  | .permissionResponse .. => .permissionResponse
  | .planApprovalRequest .. => .planApprovalRequest
  | .planApprovalResponse .. => .planApprovalResponse
  | .shutdownRequest _ => .shutdownRequest
  | .shutdownApproved _ => .shutdownApproved
  | .shutdownRejected .. => .shutdownRejected
  | .sandboxPermissionRequest .. => .sandboxPermissionRequest
  | .sandboxPermissionResponse .. => .sandboxPermissionResponse

def ProtocolMessageType.name : ProtocolMessageType → String
  | .message => "message"
  | .idle => "idle"
  | .modeSet => "mode-set"
  | .termination => "termination"
  | .taskAssignment => "task-assignment"
  | .teamPermissionUpdate => "team-permission-update"
  | .permissionRequest => "permission-request"
  | .permissionResponse => "permission-response"
  | .planApprovalRequest => "plan-approval-request"
  | .planApprovalResponse => "plan-approval-response"
  | .shutdownRequest => "shutdown-request"
  | .shutdownApproved => "shutdown-approved"
  | .shutdownRejected => "shutdown-rejected"
  | .sandboxPermissionRequest => "sandbox-permission-request"
  | .sandboxPermissionResponse => "sandbox-permission-response"

/-- The `correlationId` of a message, if it carries one. -/
def correlationOf : ProtocolMessage → Option String
  | .permissionRequest c _ | .permissionResponse c _ | .planApprovalRequest c _
  | .planApprovalResponse c _ _ | .shutdownRequest c | .shutdownApproved c
  | .shutdownRejected c _ | .sandboxPermissionRequest c _ | .sandboxPermissionResponse c _ => some c
  | _ => none

/-- The types that end in `-request`. -/
def isRequest (type : ProtocolMessageType) : Bool :=
  decide (type ∈ [ProtocolMessageType.permissionRequest, .planApprovalRequest, .shutdownRequest,
    .sandboxPermissionRequest])

/-- The types that end in `-response`, and the two that answer a shutdown request. -/
def isResponse (type : ProtocolMessageType) : Bool :=
  decide (type ∈ [ProtocolMessageType.permissionResponse, .planApprovalResponse,
    .sandboxPermissionResponse, .shutdownApproved, .shutdownRejected])

/-- Which response type answers which request type. -/
def responseFor : ProtocolMessageType → Option ProtocolMessageType
  | .permissionRequest => some .permissionResponse
  | .planApprovalRequest => some .planApprovalResponse
  | .sandboxPermissionRequest => some .sandboxPermissionResponse
  | _ => none

structure Outstanding where
  correlationId : String
  requestType : ProtocolMessageType
  sender : String
  recipient : String
deriving DecidableEq, Repr

/-- The requests that wait for a response. -/
structure ProtocolTracker where
  outstanding : Keyed Outstanding.correlationId

namespace ProtocolTracker

def empty : ProtocolTracker := ⟨Keyed.empty⟩

variable (tracker : ProtocolTracker)

def register (msg : ProtocolMessage) (sender recipient : String) : ProtocolTracker :=
  match correlationOf msg with
  | none => tracker
  | some correlationId =>
    if isRequest msg.type then
      let request : Outstanding := ⟨correlationId, msg.type, sender, recipient⟩
      let renew (old : Outstanding) : Outstanding :=
        { request with correlationId := old.correlationId }
      { outstanding := tracker.outstanding.upsert request renew }
    else tracker

/-- Take the request that the response answers off the list, or give the reason why there is
none. -/
def matchResponse (msg : ProtocolMessage) (sender recipient : String) :
    Except String ProtocolTracker :=
  match correlationOf msg, isResponse msg.type with
  | some correlationId, true =>
    match tracker.outstanding.find? correlationId with
    | none => .error ("no outstanding request for correlation " ++ correlationId)
    | some req =>
      -- A shutdown request has two answers, the others have one.
      let expected : Bool :=
        if req.requestType = .shutdownRequest then
          decide (msg.type = .shutdownApproved ∨ msg.type = .shutdownRejected)
        else decide (responseFor req.requestType = some msg.type)
      if expected = false then
        .error (msg.type.name ++ " does not answer a " ++ req.requestType.name)
      else if sender ≠ req.recipient ∨ recipient ≠ req.sender then
        .error "response sender/recipient does not match the request"
      else
        let stays (other : Outstanding) : Bool := decide (other.correlationId ≠ correlationId)
        .ok { outstanding := tracker.outstanding.filter stays }
  | _, _ => .error (msg.type.name ++ " is not a response")

/-- The requests from and to a member that was lost expire, and their ids are returned. -/
def expireFrom (member : String) : List String × ProtocolTracker :=
  let expires (req : Outstanding) : Bool := decide (req.sender = member ∨ req.recipient = member)
  ((tracker.outstanding.rows.filter expires).map Outstanding.correlationId,
    { outstanding := tracker.outstanding.filter fun req ↦ !expires req })

end ProtocolTracker

end QwenHarness.Teams
