import QwenHarness.Cli.Sessions

/-!
# The daemon

Any number of clients watch, and the daemon runs the turns. Clients attach and leave, send commands
and get frames. A command may begin a turn, which runs on by itself: it appends to the log, asks for
approvals one at a time, and ends. What it waits for is a promise, which some later command or the
leaving of a client resolves.

All of it goes through two slots, one for the turn in flight and one for the approval that is
pending. The turns under way and the answers they were given are kept beside them, so that what the
slots are meant to say can be compared with what is the case.
-/

namespace QwenHarness.Daemon

open EventStore (AppendInput)
open Sessions (Outside PendingApprovalRecord findPendingApproval reconstructHistory)

/-! ## Commands and frames -/

inductive Command where
  | createThread (name : Option String)
  | startTurn (threadId text : String)
  | resumeThread (threadId : String)
  | approve (threadId : String) (callId : Option String) (granted : Bool)
    (scope : Option ApprovalScope)
  | interrupt (threadId : String)
  /-- A command of the protocol that the daemon does not support. -/
  | unsupported (type : String)
deriving DecidableEq, Repr

/-- What the daemon tells its clients. -/
inductive DaemonFrame where
  | event (event : Option HarnessEvent)
  | turnResult (threadId : String) (result : TurnResult)
  | approvalRequest (threadId : String) (request : ApprovalRequest)
  | error (message : String)
deriving Repr

/-! ## Turns -/

/-- What a turn was called with. -/
inductive TurnInput where
  | run (userText : String) (history : List ModelInputItem)
  | resume (record : PendingApprovalRecord) (history : List ModelInputItem)

/-- How many ids a call of the runtime draws first: a turn that is run has a new correlation. -/
def TurnInput.draws : TurnInput → ℕ
  | run _ _ => 1
  | resume _ _ => 0

/-- A turn under way. -/
structure Turn where
  /-- How many turns were begun before. -/
  id : ℕ
  threadId : String
  input : TurnInput
  /-- Whether its signal is aborted. -/
  aborted : Bool
  /-- The request it waits for. -/
  asking : Option ℕ := none
  /-- The events it has appended. -/
  appended : List HarnessEvent := []

/-- The turn goes on that waits for this request. -/
def Turn.answered (turn : Turn) (request : ℕ) : Turn :=
  if turn.asking = some request then { turn with asking := none } else turn

/-- What a turn under way does next. -/
inductive TurnMove where
  | append (input : AppendInput)
  | ask (request : ApprovalRequest)
  | finish (result : TurnResult)
  | fail (message : String)

structure AttachedClient where
  name : String
  /-- The function that sends to it, by its connection. -/
  connection : ℕ
deriving DecidableEq, Repr

structure PendingApproval where
  threadId : String
  callId : String
  /-- The request that `settle` answers. -/
  request : ℕ
deriving DecidableEq, Repr

structure InFlight where
  threadId : String
  /-- The turn that `abort` aborts. -/
  turn : ℕ
deriving DecidableEq, Repr

structure DaemonState where
  clients : List AttachedClient := []
  pending : Option PendingApproval := none
  inFlight : Option InFlight := none
  closed : Bool := false
  store : EventStore
  storeOpen : Bool := true
  /-- How many ids were drawn. -/
  drawn : ℕ := 0
  /-- Whether an exception that nothing catches has ended the process. -/
  crashed : Bool := false
  turns : List Turn := []
  /-- How many turns were begun. -/
  begun : ℕ := 0
  /-- How many approvals were asked for. -/
  asked : ℕ := 0
  /-- The answers given, with the requests they are for. -/
  answers : List (ℕ × ApprovalDecision) := []
  /-- The frames sent, with the connections they went to. -/
  sent : List (ℕ × DaemonFrame) := []

/-- What happens next, on a socket, in a turn or by the operator. -/
inductive DaemonMove where
  | connect (name : String) (connection : ℕ)
  | disconnect (name : String) (connection : ℕ)
  | command (connection : ℕ) (command : Except String Command)
  | turn (id : ℕ) (move : TurnMove)
  | stop
  /-- The sockets are closed, and so is the store. -/
  | shut

structure DaemonOptions where
  workspaceRoot : String
  profile : PermissionProfile
  outside : Outside
  /-- Why the runtime of a turn cannot be made, by how many turns were begun before. -/
  noRuntime : ℕ → Option String
  /-- The text of an error of the store. -/
  storeMessage : StoreError → String

namespace DaemonState

variable (opts : DaemonOptions) (d : DaemonState)

/-! ## What the handlers use -/

def send (connection : ℕ) (frame : DaemonFrame) : DaemonState :=
  { d with sent := d.sent ++ [(connection, frame)] }

def broadcast (frame : DaemonFrame) : DaemonState :=
  { d with sent := d.sent ++ d.clients.map fun client ↦ (client.connection, frame) }

/-- Resolve the promise of a request. -/
def settle (request : ℕ) (decision : ApprovalDecision) : DaemonState :=
  { d with
    answers := d.answers ++ [(request, decision)]
    turns := d.turns.map fun turn ↦ turn.answered request }

/-- Take the pending approval and settle it. -/
def settlePending (p : PendingApproval) (decision : ApprovalDecision) : DaemonState :=
  { d with pending := none }.settle p.request decision

def abort (turn : ℕ) : DaemonState :=
  { d with turns := d.turns.map fun t ↦ if t.id = turn then { t with aborted := true } else t }

def detached : ApprovalDecision := .deferred "every client detached before answering"

def cancelled : ApprovalDecision := .deferred "the turn was cancelled"

def unattended : ApprovalDecision :=
  .deferred "no client is attached to answer; the turn stays awaiting approval"

/-- What a command to approve answers. -/
def verdict (granted : Bool) (scope : Option ApprovalScope) : ApprovalDecision :=
  if granted then .approved (scope.getD .once) else .denied "a client denied the action"

/-! ## Clients -/

def onConnect (name : String) (connection : ℕ) : DaemonState :=
  { d with clients := d.clients ++ [⟨name, connection⟩] }

def remaining (name : String) (connection : ℕ) : List AttachedClient :=
  d.clients.filter fun client ↦ decide (client ≠ ⟨name, connection⟩)

/-- With the last client gone, nobody is left to answer. -/
def onDisconnect (name : String) (connection : ℕ) : DaemonState :=
  let d' := { d with clients := d.remaining name connection }
  match d.pending with
  | some p => if d'.clients.isEmpty then d'.settlePending p detached else d'
  | none => d'

/-! ## Beginning a turn -/

def cannotRun (threadId : String) : Option String :=
  if d.inFlight.isSome then some "a turn is already running on this daemon"
  else if (d.store.getThread threadId).isNone then some s!"no such thread: {threadId}"
  else none

/-- What the runtime is called with, or why it is not. -/
def turnInput (threadId text : String) : Except String TurnInput :=
  match opts.noRuntime d.begun with
  | some message => .error message
  | none =>
    match reconstructHistory d.store threadId, findPendingApproval d.store threadId with
    | .ok history, .ok (some record) => .ok (.resume record history)
    | .ok history, .ok none => .ok (.run text history)
    | .error e, _ => .error (opts.storeMessage e)
    | _, .error e => .error (opts.storeMessage e)

/-- The slots are cleared whether the turn returned or threw. -/
def clear : DaemonState := { d with inFlight := none, pending := none }

/-- A turn that failed is reported, not swallowed. -/
def failed (message : String) : DaemonState := d.clear.broadcast (.error s!"turn failed: {message}")

def spawnTurn (threadId text : String) : DaemonState :=
  let d' := { d with inFlight := some ⟨threadId, d.begun⟩, begun := d.begun + 1 }
  match d.turnInput opts threadId text with
  | .ok input =>
    { d' with
      drawn := d.drawn + input.draws
      turns := d.turns ++ [{ id := d.begun, threadId, input, aborted := false }] }
  | .error message => d'.failed message

/-! ## Commands -/

/-- The new thread reaches the clients as its first event. -/
def announce (threadId : String) (answer : Except StoreError HarnessEvent × EventStore) :
    DaemonState :=
  let d' := { d with store := answer.2, drawn := d.drawn + 3 }
  match answer.1, answer.2.readThread threadId with
  | .ok _, .ok events => d'.broadcast (.event events.getLast?)
  | _, _ => { d' with crashed := true }

def createThread (name : Option String) : DaemonState :=
  let ids := opts.outside.ids
  let threadId := ids.next d.drawn "thr"
  d.announce threadId <| EventStore.append opts.outside.redactor
    { threadId, payload := .threadCreated opts.workspaceRoot (some opts.workspaceRoot) name
      actor := ⟨.user, "act_user01", none⟩, correlationId := ids.next (d.drawn + 1) "cor"
      causationId := none, turnId := none, itemId := none, permissionProfile := opts.profile }
    (opts.outside.draw (d.drawn + 2)) d.store

def startTurn (threadId text : String) (connection : ℕ) : DaemonState :=
  match d.cannotRun threadId with
  | some problem => d.send connection (.error problem)
  | none =>
    match findPendingApproval d.store threadId with
    | .ok (some _) => d.send connection
        (.error "this thread is awaiting an approval; answer it, or send resume-thread")
    | .ok none => d.spawnTurn opts threadId text
    | .error _ => { d with crashed := true }

def resumeThread (threadId : String) (connection : ℕ) : DaemonState :=
  match d.cannotRun threadId with
  | some problem => d.send connection (.error problem)
  | none =>
    match findPendingApproval d.store threadId with
    | .ok (some _) => d.spawnTurn opts threadId ""
    | .ok none => d.send connection (.error "that thread has nothing to resume")
    | .error _ => { d with crashed := true }

/-- An answer names the call it answers, or none. The thread it names is not looked at. -/
def approve (callId : Option String) (granted : Bool) (scope : Option ApprovalScope)
    (connection : ℕ) : DaemonState :=
  match d.pending with
  | none => d.send connection (.error "there is no approval waiting for an answer")
  | some p =>
    if callId.all fun id ↦ decide (id = p.callId) then d.settlePending p (verdict granted scope)
    else d.send connection (.error "that decision does not match the pending approval")

def interrupt (connection : ℕ) : DaemonState :=
  match d.inFlight with
  | none => d.send connection (.error "no turn is running")
  | some inFlight =>
    let d' := d.abort inFlight.turn
    match d.pending with
    | some p => d'.settlePending p cancelled
    | none => d'

def onCommand (connection : ℕ) : Except String Command → DaemonState
  | .error issue => d.send connection (.error s!"invalid command: {issue}")
  | .ok (.createThread name) => d.createThread opts name
  | .ok (.startTurn threadId text) => d.startTurn opts threadId text connection
  | .ok (.resumeThread threadId) => d.resumeThread opts threadId connection
  | .ok (.approve _ callId granted scope) => d.approve callId granted scope connection
  | .ok (.interrupt _) => d.interrupt connection
  | .ok (.unsupported type) => d.send connection (.error s!"unsupported command: {type}")

/-! ## What a turn does -/

/-- The turn of this id, unless it waits for an answer. -/
def running? (id : ℕ) : Option Turn :=
  d.turns.find? fun turn ↦ decide (turn.id = id ∧ turn.asking = none)

/-- The event is stored, and then it reaches the clients. -/
def stored (turn : Turn) (event : HarnessEvent) : DaemonState :=
  { d with
    turns := d.turns.map fun t ↦
      if t.id = turn.id then { t with appended := t.appended ++ [event] } else t
    : DaemonState }.broadcast (.event (some event))

/-- A turn appends to its own thread. -/
def onAppend (turn : Turn) (input : AppendInput) : DaemonState :=
  if d.storeOpen then
    let answer := EventStore.append opts.outside.redactor { input with threadId := turn.threadId }
      (opts.outside.draw d.drawn) d.store
    let d' := { d with store := answer.2, drawn := d.drawn + 1 }
    match answer.1 with
    | .ok event => d'.stored turn event
    | .error _ => d'
  else d

def onAsk (turn : Turn) (request : ApprovalRequest) : DaemonState :=
  let d' := { d with asked := d.asked + 1 }
  if d.clients.isEmpty then d'.settle d.asked unattended
  else if turn.aborted then d'.settle d.asked cancelled
  else
    { d' with
      pending := some ⟨turn.threadId, request.callId, d.asked⟩
      turns := d.turns.map fun t ↦
        if t.id = turn.id then { t with asking := some d.asked } else t
      : DaemonState }.broadcast (.approvalRequest turn.threadId request)

/-- The turn is over. -/
def removeTurn (turn : Turn) : DaemonState :=
  { d with turns := d.turns.filter fun t ↦ decide (t.id ≠ turn.id) }

def onTurn (turn : Turn) : TurnMove → DaemonState
  | .append input => d.onAppend opts turn input
  | .ask request => d.onAsk turn request
  | .finish result =>
    ((d.removeTurn turn).broadcast (.turnResult turn.threadId result)).clear
  | .fail message => (d.removeTurn turn).failed message

/-! ## Moves -/

/-- Stopping aborts the turn and destroys the sockets: no frame comes in any more, and the clients
leave one after the other. -/
def onStop : DaemonState :=
  match d.inFlight with
  | some inFlight => { d.abort inFlight.turn with closed := true }
  | none => { d with closed := true }

def handle : DaemonMove → DaemonState
  | .connect name connection => if d.closed then d else d.onConnect name connection
  | .disconnect name connection => d.onDisconnect name connection
  | .command connection command => if d.closed then d else d.onCommand opts connection command
  | .turn id move =>
    match d.running? id with
    | some turn => d.onTurn opts turn move
    | none => d
  | .stop => if d.closed then d else d.onStop
  | .shut => if d.closed then { d with storeOpen := false } else d

/-- The next state. A process that has crashed does nothing. -/
def step (move : DaemonMove) (d : DaemonState) : DaemonState :=
  if d.crashed then d else d.handle opts move

/-- What was in flight when the last daemon died is known to be in doubt before anyone attaches. -/
def start (store : EventStore) : DaemonState := { store := store.recoverInterrupted.2 }

end DaemonState

end QwenHarness.Daemon
