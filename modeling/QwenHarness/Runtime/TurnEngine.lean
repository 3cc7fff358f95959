import QwenHarness.Runtime.Environment

/-!
# The turn engine

The agent loop: model round, tool calls, model round, until the model stops calling tools, an
approval cannot be answered, or a limit ends the turn. For every side effect the engine persists
the intent, executes, and persists the result.

The serial and the parallel path are written over the same steps, in the order of the source: take
the call up, gate it, judge it, record the intent, ask the recovery guard, record the start,
execute, settle, record the result. The parallel path does the first part for every call, then all
executions, then the last part for every call.
-/

namespace QwenHarness

open EventStore (AppendInput)
open Effect

/-- What every event of a turn carries. -/
structure PersistBase where
  threadId : String
  turnId : String
  correlationId : String
  permissionProfile : PermissionProfile
  actor : Actor
deriving DecidableEq, Repr

structure RunTurnInput where
  threadId : String
  correlationId : String
  permissionProfile : PermissionProfile
  model : String
  instructions : String
  history : List ModelInputItem
  userText : String
  tools : List ToolDefinition
  actor : Actor
deriving Repr

def RunTurnInput.base (input : RunTurnInput) (turnId : String) : PersistBase where
  threadId := input.threadId
  turnId := turnId
  correlationId := input.correlationId
  permissionProfile := input.permissionProfile
  actor := input.actor

structure ResumeTurnInput where
  threadId : String
  turnId : String
  correlationId : String
  permissionProfile : PermissionProfile
  model : String
  instructions : String
  history : List ModelInputItem
  pendingCalls : List NormalizedToolCall
  tools : List ToolDefinition
  actor : Actor
deriving Repr

def ResumeTurnInput.base (input : ResumeTurnInput) : PersistBase where
  threadId := input.threadId
  turnId := input.turnId
  correlationId := input.correlationId
  permissionProfile := input.permissionProfile
  actor := input.actor

structure TurnResult where
  turnId : String
  state : TurnState
  terminationReason : Option TerminationReason
  rounds : ℕ
  finalText : String
  pendingApproval : Option ApprovalRequest
deriving Repr

structure DriveContext where
  base : PersistBase
  model : String
  instructions : String
  tools : List ToolDefinition
deriving Repr

/-- Whether the tool phase stops the turn, and how. -/
inductive ToolPhase where
  | go
  | budget (reason : TerminationReason)
  | cancelled
  /-- A hook asked not to go back to the model. What ran is durable. -/
  | hookStop
  | awaitingApproval (pending : ApprovalRequest)
deriving Repr

namespace TurnEngine

variable {σ : Type} (deps : TurnEngineDeps σ) (base : PersistBase)

/-! ## Persisting -/

def persist (payload : EventPayload) (itemId : Option String := none) : Engine σ Unit :=
  let input : AppendInput :=
    { threadId := base.threadId, payload, actor := base.actor
      correlationId := base.correlationId, causationId := none, turnId := some base.turnId
      itemId, permissionProfile := base.permissionProfile }
  ask (.append input) (deps.sink.append input)

/-- Persist a new item under an identifier of its own. -/
def persistItem (body : ItemBody) : Engine σ Unit := do
  let id ← draw deps "itm"
  let createdAt ← read deps.now
  persist deps base (.itemAppended
    { base := { id, turnId := base.turnId, threadId := base.threadId, seq := 0, createdAt }, body })
    (some id)

/-- Persist the last transition of the machine. -/
def persistState : Engine σ Unit := fun w ↦
  let history := w.turn.machine.history
  match history[history.length - 2]? with
  | some source =>
    if 2 ≤ history.length ∧ source ≠ w.turn.machine.state then
      persist deps base (.turnStateChanged source w.turn.machine.state) none w
    else .ok () w
  | none => .ok () w

def transition (target : TurnState) : Engine σ Unit := moveMachine fun m ↦ m.transition target

/-- `if (machine.state !== target) machine.transition(target)`. -/
def transitionUnless (target : TurnState) : Engine σ Unit := fun w ↦
  if w.turn.machine.state = target then .ok () w else transition target w

def terminate (state : TurnState) (reason : TerminationReason) : Engine σ Unit :=
  moveMachine fun m ↦ m.terminate state reason

def isTerminal : Engine σ Bool := fun w ↦ .ok w.turn.machine.isTerminal w

def currentTurn : Engine σ Turn := fun w ↦ .ok w.turn w

def fireLifecycle (event : LifecycleEvent) : Engine σ Unit :=
  match deps.hooks.bind TurnHooks.fireLifecycle with
  | some fire => ask (.lifecycle event) (fire event)
  | none => pure ()

/-! ## Ending a turn -/

/-- Fire a lifecycle event. A throw from it changes nothing. -/
def fireQuietly (event : LifecycleEvent) : Engine σ Unit :=
  tryCatch (fireLifecycle deps event) fun _ ↦ pure ()

/-- Fire the stop lifecycle after the turn is durably ended. -/
def fireStop (state : TurnState) (reason : TerminationReason) : Engine σ Unit := do
  when (state ≠ .completed) (fireQuietly deps (.stopFailure state reason))
  fireQuietly deps (.stop state reason)

def cancel : Engine σ Unit := do
  if ← isTerminal then pure ()
  else
    terminate .cancelled .userCancelled
    persist deps base (.cancelled "turn")
    persist deps base (.turnEnded .cancelled .userCancelled)
    fireStop deps .cancelled .userCancelled

def endTurn (state : TurnState) (reason : TerminationReason) : Engine σ Unit := do
  let terminal ← isTerminal
  when (terminal = false) (terminate state reason)
  persist deps base (.turnEnded state reason)
  fireStop deps state reason

def setTerminalReason (reason : TerminationReason) : Engine σ Unit :=
  modifyTurn fun t ↦ { t with terminalReason := some reason }

/-! ## One tool call -/

/-- Ask the signal and the budget whether this call is taken up at all. -/
def takeUp (call : NormalizedToolCall) : Engine σ (Option ToolPhase) := do
  if ← signalAborted deps then pure (some .cancelled)
  else
    match ← useBudget (·.beforeToolCall deps.budget) with
    | some reason => do
      note (.budgetStop reason)
      pure (some (.budget reason))
    | none =>
      match ← useBudget (·.observeToolCall deps.budget call.toolName call.argumentsJson) with
      | some reason => do
        note (.budgetStop reason)
        pure (some (.budget reason))
      | none => pure none

def blockedOutput (gate : HookGate) : String :=
  match gate.reason with
  | some reason =>
    if reason = "" then "(blocked by a PreToolUse hook)"
    else s!"(blocked by a PreToolUse hook: {reason})"
  | none => "(blocked by a PreToolUse hook)"

/-- Tell the model the output of a call. -/
def sayOutput (call : NormalizedToolCall) (output : String) : Engine σ Unit :=
  say [.functionOutput call.callId call.toolName output]

/-- Put the call to the hooks. Answers whether they blocked it. -/
def preToolUse (call : NormalizedToolCall) : Engine σ Bool :=
  match deps.hooks with
  | none => pure false
  | some hooks => do
    let gate ← ask (.preToolUse call) (hooks.preToolUse call.toolName call.arguments)
    persist deps base
      (.hookFired "PreToolUse" call.toolName (if gate.blocked then .block else .continue) 0)
    if gate.blocked then
      sayOutput call (blockedOutput gate)
      pure true
    else pure false

def evaluate (call : NormalizedToolCall) : Engine σ ToolEvaluation :=
  ask (.evaluate call) (deps.tools.evaluate call.callId call.toolName call.arguments)

def persistVerdict (call : NormalizedToolCall) (verdict : ToolEvaluation) : Engine σ Unit :=
  persist deps base (.policyDecision (some call.callId) verdict.description verdict.status.outcome
    verdict.reason verdict.source)

/-- A refused call is still a result: a durable item paired to its call. -/
def recordToolDenial (call : NormalizedToolCall) (message category : String) : Engine σ Unit :=
  persistItem deps base (.toolResult
    { callId := call.callId, toolName := call.toolName, ok := false, preview := message
      outputRef := none, truncated := false, durationMs := 0, errorCategory := some category })

def approvalRequest (call : NormalizedToolCall) (verdict : ToolEvaluation) : ApprovalRequest where
  turnId := base.turnId
  callId := call.callId
  toolName := call.toolName
  arguments := call.arguments
  argumentsJson := call.argumentsJson
  actionDigest := verdict.actionDigest
  description := verdict.description
  risk := verdict.risk
  reason := verdict.reason

/-- How the steps before the intent of a call end. -/
inductive Admission where
  /-- The whole turn stops here. -/
  | stop (phase : ToolPhase)
  /-- The call was refused and the model told so. -/
  | refused
  | admitted
deriving Repr

def requestApproval (request : ApprovalRequest) : Engine σ ApprovalDecision :=
  match deps.approvals with
  | some gate => ask (.requestApproval request) (gate request)
  | none => pure (.deferred "no approval channel is attached")

/-- Persist the answer of an approval and go back to executing: an approval is not a new turn. -/
def resolveApproval (call : NormalizedToolCall) (granted : Bool) (scope : Option ApprovalScope) :
    Engine σ Unit := do
  persist deps base (.approvalResolved (some call.callId) granted scope)
  transition .executing
  persistState deps base

/-- The pause is persisted before anyone is asked. -/
def askApproval (call : NormalizedToolCall) (verdict : ToolEvaluation) : Engine σ Admission := do
  let request := approvalRequest base call verdict
  transition .awaitingApproval
  persistState deps base
  persist deps base (.approvalRequested (some call.callId) verdict.description verdict.risk)
  fireLifecycle deps (.permissionRequest call.toolName verdict.risk)
  let decision ← requestApproval deps request
  if ← signalAborted deps then pure (.stop .cancelled)
  else
    match decision with
    | .deferred _ => pure (.stop (.awaitingApproval request))
    | .approved scope => do
      resolveApproval deps base call true (some scope)
      pure .admitted
    | .denied reason => do
      resolveApproval deps base call false none
      recordToolDenial deps base call s!"denied by the user: {reason}" "user-denied"
      sayOutput call
        s!"(the user denied this action: {reason}. Do not retry it; adapt or ask.)"
      pure .refused

/-- Policy, before any side effect. -/
def judge (call : NormalizedToolCall) : Engine σ Admission := do
  let verdict ← evaluate deps call
  persistVerdict deps base call verdict
  match verdict.status with
  | .deny => do
    recordToolDenial deps base call s!"denied by policy: {verdict.reason}" "policy-denied"
    fireLifecycle deps (.permissionDenied call.toolName verdict.reason)
    sayOutput call s!"(denied by policy: {verdict.reason})"
    pure .refused
  | .ask => askApproval deps base call verdict
  | .allow => pure .admitted

/-- Hooks, then policy. -/
def passGates (call : NormalizedToolCall) : Engine σ Admission := do
  if ← preToolUse deps base call then pure .refused
  else judge deps base call

/-- The recovery guard. -/
def mayExecute (key : String) : Engine σ EventStore.MayExecute := fun w ↦
  .ok (deps.sink.mayExecute key w.env) (w.record (.mayExecute key (deps.sink.mayExecute key w.env)))

/-- Persist the intent, ask the recovery guard and persist the start. Answers the side effect, or
nothing if the guard refused and the call was skipped. -/
def beginSideEffect (call : NormalizedToolCall) : Engine σ (Option String) := do
  let intent ← ask (.intentFor call) (deps.tools.intentFor call.toolName call.arguments)
  let sideEffectId ← draw deps "sfx"
  persist deps base (.sideEffectIntent
    { sideEffectId, idempotencyKey := intent.idempotencyKey, kind := intent.kind
      destructive := intent.destructive, normalizedAction := intent.normalizedAction })
  let may ← mayExecute deps intent.idempotencyKey
  if may.allowed then
    persist deps base (.sideEffectStarted sideEffectId)
    pure (some sideEffectId)
  else
    persist deps base (.sideEffectSettled sideEffectId .knownComplete none)
    sayOutput call s!"(skipped: {may.reason})"
    pure none

def execute (sideEffectId : String) (call : NormalizedToolCall) : Engine σ ToolExecutionResult :=
  ask (.execute sideEffectId call) (deps.tools.execute call)

def settle (sideEffectId : String) (result : ToolExecutionResult) : Engine σ Unit :=
  persist deps base (.sideEffectSettled sideEffectId
    (if result.ok then .knownComplete else .knownFailed) result.resultDigest)

/-- Fire the hooks after a durable result. Answers whether they stop the turn. -/
def postToolUse (call : NormalizedToolCall) (result : ToolExecutionResult) : Engine σ Bool :=
  match deps.hooks with
  | none => pure false
  | some hooks => do
    let stop ← ask (.postToolUse call) (hooks.postToolUse call.toolName result.ok)
    persist deps base
      (.hookFired (if result.ok then "PostToolUse" else "PostToolUseFailure") call.toolName
        (if stop then .stop else .continue) 0)
    pure stop

/-- The hooks after the result, the durable result item, and the output for the model. -/
def recordResult (call : NormalizedToolCall) (result : ToolExecutionResult) : Engine σ Bool := do
  let stop ← postToolUse deps base call result
  persistItem deps base (.toolResult
    { callId := call.callId, toolName := call.toolName, ok := result.ok
      preview := result.modelText, outputRef := result.outputRef, truncated := result.truncated
      durationMs := result.durationMs, errorCategory := result.errorCategory })
  sayOutput call result.modelText
  pure stop

/-- Where the turn goes after results are recorded. -/
def afterResults (hookStop : Bool) : Engine σ ToolPhase := do
  if ← signalAborted deps then pure .cancelled
  else if hookStop then pure .hookStop
  else pure .go

/-- One call through the whole flow. -/
def runOneCall (call : NormalizedToolCall) : Engine σ ToolPhase := do
  note (.takeUp call)
  match ← takeUp deps call with
  | some phase => pure phase
  | none =>
    match ← passGates deps base call with
    | .stop phase => pure phase
    | .refused => pure .go
    | .admitted =>
      match ← beginSideEffect deps base call with
      | none => pure .go
      | some sideEffectId => do
        let result ← execute deps sideEffectId call
        settle deps base sideEffectId result
        let hookStop ← recordResult deps base call result
        afterResults deps hookStop

/-- One call after the other, until one stops the turn. -/
def runSerially : List NormalizedToolCall → Engine σ ToolPhase
  | [] => pure .go
  | call :: calls => do
    match ← runOneCall deps base call with
    | .go => runSerially calls
    | phase => pure phase

/-! ## A parallel batch -/

/-- Phase 1, in call order: everything up to the start. Answers what was started, or why the turn
stops. -/
def startBatch : List (NormalizedToolCall × ToolEvaluation) →
    Engine σ (Except ToolPhase (List (NormalizedToolCall × String)))
  | [] => pure (.ok [])
  | (call, verdict) :: rest => do
    match ← takeUp deps call with
    | some phase => pure (.error phase)
    | none =>
      if ← preToolUse deps base call then startBatch rest
      else
        persistVerdict deps base call verdict
        match ← beginSideEffect deps base call with
        | none => startBatch rest
        | some sideEffectId =>
          match ← startBatch rest with
          | .ok cleared => pure (.ok ((call, sideEffectId) :: cleared))
          | .error phase => pure (.error phase)

/-- Phase 3, in call order: settle and record each result. Answers whether a hook stops the
turn. -/
def settleBatch : List ((NormalizedToolCall × String) × ToolExecutionResult) → Engine σ Bool
  | [] => pure false
  | ((call, sideEffectId), result) :: rest => do
    settle deps base sideEffectId result
    let stop ← recordResult deps base call result
    let stops ← settleBatch rest
    pure (stop || stops)

/-- Independent calls: only the executions overlap, and only if policy allows every call. -/
def runParallelBatch (calls : List NormalizedToolCall) : Engine σ ToolPhase := do
  note (.takeUpBatch calls)
  let verdicts ← runAll (calls.map (evaluate deps))
  if verdicts.all fun v ↦ v.status = .allow then
    match ← startBatch deps base (calls.zip verdicts) with
    | .error phase => pure phase
    | .ok cleared => do
      let results ← runAll (cleared.map fun x ↦ execute deps x.2 x.1)
      let hookStop ← settleBatch deps base (cleared.zip results)
      afterResults deps hookStop
  else runSerially deps base calls

/-! ## A round of calls -/

/-- `byId.get(id)`: of calls with one identifier the last counts. -/
def callById (calls : List NormalizedToolCall) (id : String) : Option NormalizedToolCall :=
  calls.reverse.find? fun c ↦ c.callId = id

def planBatches (calls : List NormalizedToolCall) : Engine σ (List (List String)) :=
  match deps.tools.planBatches with
  | some plan => ask (.planBatches calls) (plan calls)
  | none => pure (calls.map fun c ↦ [c.callId])

def runGroup : List NormalizedToolCall → Engine σ ToolPhase
  | [] => pure .go
  | [call] => runOneCall deps base call
  | calls => runParallelBatch deps base calls

def runGroups (calls : List NormalizedToolCall) : List (List String) → Engine σ ToolPhase
  | [] => pure .go
  | group :: groups => do
    match ← runGroup deps base (group.filterMap (callById calls)) with
    | .go => runGroups calls groups
    | phase => pure phase

def runToolCalls (calls : List NormalizedToolCall) : Engine σ ToolPhase := do
  let groups ← planBatches deps calls
  runGroups deps base calls groups

/-! ## The model phase -/

/-- The provider call with its bounded retry. The fuel is the number of attempts left. -/
def streamWithRetry (request : ModelRequest) (startedAt : ℤ) (attempt : ℕ) :
    ℕ → Engine σ NormalizedRound
  | 0 => throw (.other "no attempt is left")
  | fuel + 1 =>
    tryCatch
      (do
        let events ← ask (.stream request) (deps.stream request)
        pure (normalizeRound events))
      fun err ↦ do
        if ← signalAborted deps then throw err
        else
          match err with
          | .other _ => throw err
          | .harness error => do
            let now ← read deps.now
            let r ← read deps.rng
            match ← orThrow (decideRetry error attempt (now - startedAt) r deps.retryPolicy) with
            | .error _ => throw err
            | .ok delayMs => do
              ask (.sleep delayMs) (deps.sleep delayMs)
              streamWithRetry request startedAt (attempt + 1) fuel

def reasoningItem (round : NormalizedRound) : Option ItemBody :=
  match round.reasoningSummary with
  | some summary => some (.reasoningSummary summary true)
  | none =>
    if round.reasoningOccurred then
      some (.reasoningStatus (round.usage.bind UsageItem.reasoningTokens))
    else none

def toolCallItem (call : NormalizedToolCall) : ItemBody :=
  .toolCall
    { callId := call.callId, toolName := call.toolName, argumentsJson := call.argumentsJson
      arguments := some call.arguments }

/-- The items of a round, in the order they are persisted. -/
def roundItems (round : NormalizedRound) : List ItemBody :=
  (reasoningItem round).toList ++
    (if round.assistantText = "" then [] else [.assistantMessage round.assistantText true]) ++
    round.toolCalls.map toolCallItem ++
    (round.usage.map ItemBody.usage).toList

def persistItems : List ItemBody → Engine σ Unit
  | [] => pure ()
  | body :: bodies => do
    persistItem deps base body
    persistItems bodies

/-- Let the context manager prepare the conversation. Answers whether the turn goes on. -/
def prepareContext : Engine σ Bool :=
  match deps.context with
  | none => pure true
  | some prepare => do
    let turn ← currentTurn
    let prep ← ask (.prepare turn.conversation) (prepare turn.conversation)
    if ← signalAborted deps then
      cancel deps base
      setTerminalReason .userCancelled
      pure false
    else
      adopt prep.items
      when prep.compacted (fireLifecycle deps (.postCompact prep.trigger))
      pure true

def functionCallItem (call : NormalizedToolCall) : ModelInputItem :=
  .functionCall call.callId call.toolName call.argumentsJson

/-- Request one round and persist it. -/
def requestRound (ctx : DriveContext) : Engine σ NormalizedRound := do
  let turn ← currentTurn
  persist deps base (.modelRequestStarted ctx.model .responses s!"round:{turn.rounds}")
  let startedAt ← read deps.now
  let round ← streamWithRetry deps
    { model := ctx.model, instructions := ctx.instructions, input := turn.conversation
      tools := ctx.tools }
    startedAt 1 (max 1 deps.retryPolicy.maxAttempts)
  modifyTurn fun t ↦ { t with rounds := t.rounds + 1 }
  persist deps base (.modelRequestCompleted round.requestId
    ((round.finishReason.map FinishReason.name).getD "unknown"))
  persistItems deps base (roundItems round)
  when (round.assistantText ≠ "") (modifyTurn fun t ↦ { t with finalText := round.assistantText })
  pure round

/-- One model round. Answers the calls it asks for, or nothing if the turn is over. -/
def modelPhase (ctx : DriveContext) : Engine σ (Option (List NormalizedToolCall)) := do
  let now ← read deps.now
  match ← useBudget (·.beforeModelCall deps.budget now) with
  | some reason => do
    note (.budgetStop reason)
    endTurn deps base .budgetExhausted reason
    setTerminalReason reason
    pure none
  | none => do
    transitionUnless .modelStreaming
    persistState deps base
    if ← prepareContext deps base then
      let round ← requestRound deps base ctx
      if round.toolCalls.isEmpty then
        endTurn deps base .completed .naturalCompletion
        setTerminalReason .naturalCompletion
        pure none
      else
        when (round.assistantText ≠ "") (say [.message .assistant round.assistantText])
        say (round.toolCalls.map functionCallItem)
        pure (some round.toolCalls)
    else pure none

/-! ## The loop -/

/-- Act on how the calls of a round ended. Answers whether the turn goes on. -/
def concludePhase : ToolPhase → Engine σ Bool
  | .budget reason => do
    endTurn deps base .budgetExhausted reason
    setTerminalReason reason
    pure false
  | .cancelled => do
    cancel deps base
    setTerminalReason .userCancelled
    pure false
  | .hookStop => do
    endTurn deps base .completed .hookStop
    setTerminalReason .hookStop
    pure false
  | .awaitingApproval pending => do
    -- The turn does not end. It is suspended, and the log holds the request.
    modifyTurn fun t ↦ { t with pendingApproval := some pending }
    pure false
  | .go => do
    match ← useBudget (·.afterModelRound deps.budget true) with
    | some reason => do
      note (.budgetStop reason)
      endTurn deps base .budgetExhausted reason
      setTerminalReason reason
      pure false
    | none => pure true

/-- Everything the previous round, or the resumed turn, asked for. -/
def toolPhase (calls : List NormalizedToolCall) : Engine σ Bool :=
  if calls.isEmpty then pure true
  else do
    transitionUnless .executing
    persistState deps base
    let phase ← runToolCalls deps base calls
    fireLifecycle deps (.postToolBatch calls.length)
    concludePhase deps base phase

/-- The loop of a turn. The fuel counts the rounds that the budget can still let through. -/
def driveLoop (ctx : DriveContext) : ℕ → List NormalizedToolCall → Engine σ Unit
  | 0, _ => pure ()
  | fuel + 1, calls => do
    if ← signalAborted deps then
      cancel deps base
      setTerminalReason .userCancelled
    else if ← toolPhase deps base calls then
      match ← modelPhase deps base ctx with
      | some calls => driveLoop ctx fuel calls
      | none => pure ()
    else pure ()

/-- The two steps of the machine from wherever a failure struck. -/
def failTurn : Engine σ Unit := do
  transition .recovering
  terminate .failed .internalError

/-- What happens to something thrown inside the loop. -/
def driveCatch (e : Thrown) : Engine σ Unit := do
  let aborted ← signalAborted deps
  let terminal ← isTerminal
  if aborted then
    when (terminal = false) (cancel deps base)
    setTerminalReason .userCancelled
  else
    when (terminal = false) failTurn
    setTerminalReason .internalError
    persist deps base (.modelRequestFailed none "runtime.turn_error" false e.message)
    persist deps base (.turnEnded .failed .internalError)
    fireStop deps .failed .internalError

def result : Engine σ TurnResult := fun w ↦
  .ok
    { turnId := base.turnId, state := w.turn.machine.state
      terminationReason := w.turn.terminalReason, rounds := w.turn.rounds
      finalText := w.turn.finalText, pendingApproval := w.turn.pendingApproval } w

def drive (ctx : DriveContext) (seedCalls : List NormalizedToolCall) : Engine σ TurnResult := do
  tryCatch (driveLoop deps base ctx (deps.budget.maxModelCallsPerTurn + 1) seedCalls)
    (driveCatch deps base)
  result base

/-! ## The two ways in -/

/-- The turn in memory when a call of `run` or `resume` starts. -/
def newTurn (state : TurnState) (now : ℤ) (conversation : List ModelInputItem) : Turn where
  machine := .start state
  budget := .start now
  conversation := conversation
  rounds := 0
  finalText := ""
  terminalReason := none
  pendingApproval := none

def notificationItem (summary : String) : ModelInputItem :=
  .message .user ("Notification (while you were away): " ++ summary)

/-- Surface what was queued while the user was away. -/
def drainNotifications : Engine σ Unit :=
  match deps.notifications with
  | none => pure ()
  | some drain => do
    let drained ← read drain
    say (drained.map notificationItem)
    when (drained.length ≠ 0) (fireLifecycle deps (.queuedNotifications drained.length))

/-- Run one complete turn. -/
def run (input : RunTurnInput) : Engine σ TurnResult := do
  let now ← read deps.now
  let turnId ← draw deps "trn"
  let base := input.base turnId
  modifyTurn fun _ ↦ newTurn .preparing now input.history
  persist deps base (.turnStarted input.userText)
  say [.message .user input.userText]
  drainNotifications deps
  drive deps base
    { base, model := input.model, instructions := input.instructions, tools := input.tools } []

/-- Resume a turn that the log left awaiting approval. -/
def resume (input : ResumeTurnInput) : Engine σ TurnResult := do
  let now ← read deps.now
  let base := input.base
  modifyTurn fun _ ↦ newTurn .awaitingApproval now input.history
  drive deps base
    { base, model := input.model, instructions := input.instructions, tools := input.tools }
    input.pendingCalls

end TurnEngine

end QwenHarness
