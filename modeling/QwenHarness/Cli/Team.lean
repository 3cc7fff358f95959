import QwenHarness.Runtime.Environment
import QwenHarness.Teams.Teammate

/-!
# Team runs

A lead creates the tasks, launches teammates and answers them. Each of them is a process of its own.
They share the task graph and the log of a thread, which carries the messages and the results.

A run is any sequence of moves. In a move one process goes on up to its next access to what is
shared: one transaction on the graph, one look at the messages, or one entry of the log. Where a loop
is bounded by the number of its polls, the bound may be reached at any time. A process may die between
any two of its moves, and the lead may give any answer.
-/

namespace QwenHarness.Cli

open Tasks Teams

/-! ## What is on the thread -/

/-- The name of the lead in messages. -/
def leadId : String := "lead"

def leadActor : Actor := ⟨.system, "act_teamlead", some "lead"⟩

def teammateActor (member : String) : Actor := ⟨.teammate, "act_teammate", some member⟩

structure BusEnvelope where
  id : String
  sender : String
  recipient : String
  message : ProtocolMessage
deriving DecidableEq, Repr

structure TeamResult where
  taskId : ℤ
  member : String
  ok : Bool
  detail : Option String
  relPath : Option String
deriving DecidableEq, Repr

/-- What the sandbox reported of the command of a task. -/
structure CommandRun where
  member : String
  taskId : ℤ
  ok : Bool
deriving DecidableEq, Repr

/-- A task as it is asked for. Positions count from one. -/
structure TaskSpec where
  subject : String
  blockedBy : Option (List ℕ)
deriving DecidableEq, Repr

/-! ## The processes -/

/-- What a member does for a task that it has started. -/
inductive WorkStage where
  /-- Send the plan in this revision. -/
  | proposing (revision : ℕ)
  | awaitingPlan (revision : ℕ) (correlationId : String)
  | asking
  | awaitingPermission (correlationId : String)
  | commanding
  | reporting (result : TeamResult)
  /-- The work returned. The code keeps only the id of the task. -/
  | finishing (result : TeamResult)
deriving DecidableEq, Repr

/-- Where the process of a member is. -/
inductive Doing where
  | polling
  | listing
  | claiming (tasks : List Task)
  | starting (taskId : ℤ)
  | opening (taskId : ℤ)
  | working (taskId : ℤ) (subject : String) (stage : WorkStage)
  | idling
  | leaving
  | releasing (tasks : List Task)
  | stopped
  | crashed

structure Member where
  member : String
  teammate : Teammate
  aborted : Bool
  tracker : ProtocolTracker
  doing : Doing

inductive LeadPhase where
  | creating (todo : List TaskSpec)
  | launching (left : ℕ)
  | serving
  /-- Tell these members to shut down. -/
  | notifying (members : List String)
  | gone
  /-- A task could not be created. -/
  | refused (error : TaskError)

structure Lead where
  phase : LeadPhase
  createdIds : List ℤ
  /-- How many identifiers were drawn. -/
  drawn : ℕ
  answered : List String
  respondedCorrelations : List String
  shutdownSent : Bool

structure TeamRun where
  db : TaskDb
  bus : List BusEnvelope
  results : List TeamResult
  commands : List CommandRun
  lead : Lead
  members : List Member

/-- Everything a move depends on that the processes do not decide. -/
structure StepInput where
  now : ℕ → ℤ
  deliveredAt : ℤ
  correlationId : String
  messageId : String
  /-- The bound of the loop is reached. -/
  timedOut : Bool
  /-- What the sandbox reports. -/
  ok : Bool
  reason : Option String

/-! ## The lead -/

/-- Draw an identifier. -/
def Lead.draw (ids : IdSource) (kind : String) (lead : Lead) : String × Lead :=
  (ids.next lead.drawn kind, { lead with drawn := lead.drawn + 1 })

/-- An entry of the thread takes three identifiers. -/
def Lead.drawEntry (lead : Lead) : Lead := { lead with drawn := lead.drawn + 3 }

/-- `createdIds[n - 1] ?? n`. -/
def resolve (createdIds : List ℤ) (n : ℕ) : ℤ :=
  match n with
  | 0 => 0
  | k + 1 => (createdIds[k]?).getD n

def createInput (createdIds : List ℤ) (spec : TaskSpec) : CreateTaskInput :=
  let blockedBy := (spec.blockedBy.getD []).map (resolve createdIds)
  { subject := spec.subject
    description := none
    activeForm := "working on " ++ spec.subject
    blockedBy := if blockedBy = [] then none else some blockedBy
    metadata := none }

def allTerminal (db : TaskDb) : Bool :=
  (TaskGraph.list db false).all fun t ↦ decide (t.status = .completed ∨ t.status = .deleted)

def Member.fresh (member : String) : Member :=
  ⟨member, Teammate.fresh, false, ProtocolTracker.empty, .polling⟩

def Member.exited (m : Member) : Bool :=
  match m.doing with
  | .stopped | .crashed => true
  | _ => false

/-- Kill the process, if it is still alive. -/
def Member.kill (m : Member) : Member := if m.exited then m else { m with doing := .crashed }

def TeamRun.post (run : TeamRun) (env : BusEnvelope) : TeamRun := { run with bus := run.bus ++ [env] }

section Lead

variable (ids : IdSource)

/-- Create the next task, or go on to the members. -/
def leadCreate (members : ℕ) (now : ℕ → ℤ) (run : TeamRun) : TeamRun :=
  match run.lead.phase with
  | .creating [] => { run with lead := { run.lead with phase := .launching members } }
  | .creating (spec :: todo) =>
    match TaskGraph.create now leadActor run.db (createInput run.lead.createdIds spec) with
    | (.error e, db) => { run with db, lead := { run.lead with phase := .refused e } }
    | (.ok (task, _), db) =>
      { run with
        db
        lead :=
          { run.lead with
            phase := .creating todo
            createdIds := run.lead.createdIds ++ [task.id] } }
  | _ => run

/-- Launch the next member, or go on to serve them. -/
def leadLaunch (run : TeamRun) : TeamRun :=
  match run.lead.phase with
  | .launching 0 => { run with lead := { run.lead with phase := .serving } }
  | .launching (left + 1) =>
    let (member, lead) := run.lead.draw ids "mem"
    let (_, lead) := lead.draw ids "inc"
    { run with
      lead := { lead.drawEntry with phase := .launching left }
      members := run.members ++ [.fresh member] }
  | _ => run

/-- Take up the first message that was not answered yet. -/
def leadAnswer (answer : BusEnvelope → Option ProtocolMessage) (run : TeamRun) : TeamRun :=
  match run.lead.phase with
  | .serving =>
    match run.bus.find? fun env ↦ decide (env.recipient = leadId ∧ env.id ∉ run.lead.answered) with
    | none => run
    | some env =>
      let lead := { run.lead with answered := env.id :: run.lead.answered }
      match answer env with
      | none => { run with lead }
      | some decision =>
        match correlationOf decision with
        | some correlation =>
          if correlation ∈ lead.respondedCorrelations then { run with lead }
          else
            let (id, lead) := lead.draw ids "msg"
            { run with
              lead :=
                { lead.drawEntry with
                  respondedCorrelations := correlation :: lead.respondedCorrelations } }.post
              ⟨id, leadId, env.sender, decision⟩
        | none =>
          let (id, lead) := lead.draw ids "msg"
          { run with lead := lead.drawEntry }.post ⟨id, leadId, env.sender, decision⟩
  | _ => run

/-- See whether everything is done, and then tell the members once. -/
def leadSurvey (run : TeamRun) : TeamRun :=
  match run.lead.phase with
  | .serving =>
    if allTerminal run.db ∧ run.lead.shutdownSent = false then
      { run with
        lead :=
          { run.lead with
            phase := .notifying (run.members.map Member.member)
            shutdownSent := true } }
    else run
  | _ => run

/-- Tell the next member to shut down. -/
def leadNotify (run : TeamRun) : TeamRun :=
  match run.lead.phase with
  | .notifying [] => { run with lead := { run.lead with phase := .serving } }
  | .notifying (member :: members) =>
    let (correlationId, lead) := run.lead.draw ids "cor"
    let (id, lead) := lead.draw ids "msg"
    { run with lead := { lead.drawEntry with phase := .notifying members } }.post
      ⟨id, leadId, member, .shutdownRequest correlationId⟩
  | _ => run

/-- Stop serving, and kill who is still alive. -/
def leadExit (run : TeamRun) : TeamRun :=
  match run.lead.phase with
  | .serving =>
    { run with lead := { run.lead with phase := .gone }, members := run.members.map Member.kill }
  | _ => run

end Lead

/-! ### The policy of the lead -/

/-- `\s`. -/
def isSpace (c : Char) : Bool :=
  decide (c.toNat ∈ [0x9, 0xA, 0xB, 0xC, 0xD, 0x20, 0xA0, 0x1680, 0x2028, 0x2029, 0x202F, 0x205F,
    0x3000, 0xFEFF] ∨ 0x2000 ≤ c.toNat ∧ c.toNat ≤ 0x200A)

/-- `(?:^|\s)R:`, in a text before which a word may begin or not. -/
def holdsMark : Bool → List Char → Bool
  | _, [] => false
  | begins, c :: cs => begins && ['R', ':'].isPrefixOf (c :: cs) || holdsMark (isSpace c) cs

/-- Reject a plan of a marked task at first, approve every other, grant every permission. -/
def decideAsLead (env : BusEnvelope) : Option ProtocolMessage :=
  match env.message with
  | .planApprovalRequest correlationId plan =>
    if holdsMark true plan.toList && "rev0:".toList.isPrefixOf plan.toList then
      some (.planApprovalResponse correlationId false
        (some "please revise: add a verification step"))
    else some (.planApprovalResponse correlationId true none)
  | .permissionRequest correlationId _ => some (.permissionResponse correlationId true)
  | _ => none

/-! ## A member -/

def maxPlanRevisions : ℕ := 3

/-- `message.type === 'shutdown-request' || message.type === 'termination'`. -/
def endsMember (message : ProtocolMessage) : Bool :=
  decide (message.type = .shutdownRequest ∨ message.type = .termination)

/-- Deliver every message to the member that was not delivered yet. -/
def pumpInbox (member : String) (now : ℤ) (bus : List BusEnvelope) (inbox : Inbox) : Inbox :=
  (bus.filter fun env ↦ decide (env.recipient = member)).foldl
    (fun inbox env ↦ (inbox.deliver env.id env.sender env.message now).2) inbox

/-- What a look for a response finds. -/
inductive Awaited where
  | nothing
  /-- The wait is over without a response. -/
  | over
  | answered (message : ProtocolMessage)
  /-- Something is there that does not answer the request. -/
  | broken

/-- Does the message answer under this correlation? -/
def answersTo (type : ProtocolMessageType) (correlationId : String) (message : ProtocolMessage) :
    Bool :=
  decide (message.type = type ∧ correlationOf message = some correlationId)

/-- Look once for a response. -/
def Member.awaitResponse (m : Member) (correlationId : String) (type : ProtocolMessageType)
    (timedOut : Bool) (bus : List BusEnvelope) : Awaited × Member :=
  if timedOut || m.aborted then (.over, m)
  else
    match bus.find? fun env ↦ decide (env.recipient = m.member) &&
        (answersTo type correlationId env.message || endsMember env.message) with
    | none => (.nothing, m)
    | some env =>
      if answersTo type correlationId env.message then
        match m.tracker.matchResponse env.message env.sender m.member with
        | .ok tracker => (.answered env.message, { m with tracker })
        | .error _ => (.broken, m)
      else (.over, { m with aborted := true })

/-- `subject.startsWith('P:')`. -/
def needsPermission (subject : String) : Bool := "P:".toList.isPrefixOf subject.toList

def planText (revision : ℕ) (subject : String) : String :=
  "rev" ++ toString revision ++ ": " ++ subject

def actionText (taskId : ℤ) : String := "sandboxed shell for task " ++ toString taskId

def approves : ProtocolMessage → Bool
  | .planApprovalResponse _ approved _ => approved
  | _ => false

def denies : ProtocolMessage → Bool
  | .permissionResponse _ granted => !granted
  | _ => false

section Member

variable (input : StepInput) (m : Member) (run : TeamRun)

def Member.at (doing : Doing) : Member := { m with doing }

/-- One move of the work on a task. -/
def workStep (taskId : ℤ) (subject : String) (stage : WorkStage) : Member × TeamRun :=
  let go (m : Member) (stage : WorkStage) : Member := m.at (.working taskId subject stage)
  let fails (detail : String) : WorkStage :=
    .reporting ⟨taskId, m.member, false, some detail, none⟩
  match stage with
  | .proposing revision =>
    let request : ProtocolMessage :=
      .planApprovalRequest input.correlationId (planText revision subject)
    (go { m with tracker := m.tracker.register request m.member leadId }
        (.awaitingPlan revision input.correlationId),
      run.post ⟨input.messageId, m.member, leadId, request⟩)
  | .awaitingPlan revision correlationId =>
    match m.awaitResponse correlationId .planApprovalResponse input.timedOut run.bus with
    | (.nothing, m) => (m, run)
    | (.over, m) => (go m (fails "no plan approval (shutdown or timeout)"), run)
    | (.broken, m) => (m.at .crashed, run)
    | (.answered message, m) =>
      if approves message then (go m (if needsPermission subject then .asking else .commanding), run)
      else if revision + 1 < maxPlanRevisions then (go m (.proposing (revision + 1)), run)
      else (go m (fails "plan rejected after revisions"), run)
  | .asking =>
    let request : ProtocolMessage := .permissionRequest input.correlationId (actionText taskId)
    (go { m with tracker := m.tracker.register request m.member leadId }
        (.awaitingPermission input.correlationId),
      run.post ⟨input.messageId, m.member, leadId, request⟩)
  | .awaitingPermission correlationId =>
    match m.awaitResponse correlationId .permissionResponse input.timedOut run.bus with
    | (.nothing, m) => (m, run)
    | (.over, m) => (go m (fails "permission denied or unavailable"), run)
    | (.broken, m) => (m.at .crashed, run)
    | (.answered message, m) =>
      if denies message then (go m (fails "permission denied or unavailable"), run)
      else (go m .commanding, run)
  | .commanding =>
    (go m (.reporting ⟨taskId, m.member, input.ok, input.reason,
        if input.ok then some ("results/task-" ++ toString taskId ++ ".done") else none⟩),
      { run with commands := run.commands ++ [⟨m.member, taskId, input.ok⟩] })
  | .reporting result => (go m (.finishing result), { run with results := run.results ++ [result] })
  | .finishing _ =>
    match TaskGraph.complete input.now (teammateActor m.member) run.db taskId with
    | (.ok _, db) => (m.at .polling, { run with db })
    | (.error _, db) => (m.at .crashed, { run with db })

/-- One move of a member. -/
def memberStep : Member × TeamRun :=
  match m.doing with
  | .polling =>
    if input.timedOut then (m.at .leaving, run)
    else
      let pumped := pumpInbox m.member input.deliveredAt run.bus m.teammate.inbox
      let (messages, inbox) := pumped.drain
      let teammate := { m.teammate with inbox }.handleMessages messages
      if teammate.shutdownRequested || m.aborted then
        ({ m with teammate := { teammate with phase := .stopped }, doing := .leaving }, run)
      else ({ m with teammate, doing := .listing }, run)
  | .listing => (m.at (.claiming (claimable run.db)), run)
  | .claiming [] =>
    ({ m with teammate := { m.teammate with phase := .idle }, doing := .idling }, run)
  | .claiming (task :: tasks) =>
    match TaskGraph.claim input.now (teammateActor m.member) run.db task.id m.member with
    | (.error _, db) => (m.at .crashed, { run with db })
    | (.ok (.lost _, _), db) => (m.at (.claiming tasks), { run with db })
    | (.ok (.won _, _), db) =>
      ({ m with teammate := { m.teammate with phase := .work }, doing := .starting task.id },
        { run with db })
  | .starting taskId =>
    match TaskGraph.start input.now (teammateActor m.member) run.db taskId with
    | (.error _, db) => (m.at .crashed, { run with db })
    | (.ok _, db) => (m.at (.opening taskId), { run with db })
  | .opening taskId =>
    let subject := ((TaskGraph.get run.db taskId).map Task.subject).getD ("task " ++ toString taskId)
    (m.at (.working taskId subject (.proposing 0)), run)
  | .working taskId subject stage => workStep input m run taskId subject stage
  | .idling =>
    if allTerminal run.db || m.aborted then (m.at .leaving, run) else (m.at .polling, run)
  | .leaving =>
    (m.at (.releasing ((TaskGraph.list run.db false).filter (isHeldBy m.member))), run)
  | .releasing [] => (m.at .stopped, run)
  | .releasing (task :: tasks) =>
    match TaskGraph.release input.now (teammateActor m.member) run.db task.id with
    | (.error _, db) => (m.at .crashed, { run with db })
    | (.ok _, db) => (m.at (.releasing tasks), { run with db })
  | .stopped => (m, run)
  | .crashed => (m, run)

end Member

/-! ## Runs -/

inductive TeamMove where
  | create (now : ℕ → ℤ)
  | launch
  | answer
  | survey
  | notify
  | exit
  /-- The lead dies. Its members go on. -/
  | crashLead
  | step (k : ℕ) (input : StepInput)
  | crash (k : ℕ)

/-- What a run is started with: the identifiers of the lead, how many members it launches, and how it
answers. -/
structure TeamSetup where
  ids : IdSource
  members : ℕ
  answer : BusEnvelope → Option ProtocolMessage

def TeamRun.move (setup : TeamSetup) (move : TeamMove) (run : TeamRun) : TeamRun :=
  match move with
  | .create now => leadCreate setup.members now run
  | .launch => leadLaunch setup.ids run
  | .answer => leadAnswer setup.ids setup.answer run
  | .survey => leadSurvey run
  | .notify => leadNotify setup.ids run
  | .exit => leadExit run
  | .crashLead => { run with lead := { run.lead with phase := .gone } }
  | .step k input =>
    match run.members[k]? with
    | none => run
    | some m =>
      let (m, run) := memberStep input m run
      { run with members := run.members.set k m }
  | .crash k => { run with members := run.members.modify k Member.kill }

/-- The state after a run. -/
def TeamRun.moves (setup : TeamSetup) (run : TeamRun) (moves : List TeamMove) : TeamRun :=
  moves.foldl (fun run move ↦ run.move setup move) run

/-- Before the first move: a store, a thread with whatever is on it, and what is to be done. -/
def TeamRun.start (db : TaskDb) (bus : List BusEnvelope) (results : List TeamResult)
    (specs : List TaskSpec) (drawn : ℕ) : TeamRun where
  db := db
  bus := bus
  results := results
  commands := []
  lead := ⟨.creating specs, [], drawn, [], [], false⟩
  members := []

/-- Identifiers that count up after their kind. -/
def countIds : IdSource where
  next n kind := String.ofList (kind.toList ++ '_' :: List.replicate n 'i')
  fresh kind m n h := by
    have hlist := congrArg List.length (String.ofList_injective h)
    simpa using hlist

end QwenHarness.Cli
