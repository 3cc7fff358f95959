import Mathlib.Algebra.GroupWithZero.Nat
import QwenHarness.Codec.Schema

/-!
# Domain types

Identifiers, actors, turn states and transcript items, each with the schema that checks it at the
boundary. Branded identifiers are strings here; what the brand promises is what the schema checks.

The turn state machine is data, as in the source: `turnTransitions` lists the legal successors of
every state, and a terminal state has none.
-/

namespace QwenHarness

open Codec

/-! ## Scalar checks -/

/-- The length of a string in UTF-16 code units, which is what a length bound counts. -/
def utf16Length (s : String) : ℕ :=
  (s.toList.map fun c ↦ if c.toNat < 0x10000 then 1 else 2).sum

/-- `Number.isSafeInteger`. -/
def isSafeInt (n : ℤ) : Bool := decide (-9007199254740991 ≤ n ∧ n ≤ 9007199254740991)

def safeInt : Schema ℤ := .integer isSafeInt

def nonnegativeInt : Schema ℤ := .integer fun n ↦ isSafeInt n && decide (0 ≤ n)

def positiveInt : Schema ℤ := .integer fun n ↦ isSafeInt n && decide (0 < n)

def boundedText (min max : ℕ) : Schema String :=
  .string fun s ↦ decide (min ≤ utf16Length s ∧ utf16Length s ≤ max)

def nonemptyText : Schema String := .string fun s ↦ decide (1 ≤ utf16Length s)

/-- A schema that reads strings, or null. -/
def nullableString (check : String → Bool) : Schema (Option String) :=
  .plain (.nullable (.string check) fun _ h ↦ by cases h) fun _ ↦ Option.map_id_apply

def nullableText : Schema (Option String) := nullableString fun _ ↦ true

def nullableInt (check : ℤ → Bool) : Schema (Option ℤ) :=
  .plain (.nullable (.integer check) fun _ h ↦ by cases h) fun _ ↦ Option.map_id_apply

/-! ## Identifiers -/

/-- The shape every identifier has: a short lower-case prefix, an underscore, an opaque part of 6
to 64 characters. -/
def idPattern (s : String) : Bool :=
  let head := s.toList.takeWhile Char.isLower
  let rest := s.toList.dropWhile Char.isLower
  decide (2 ≤ head.length ∧ head.length ≤ 4) &&
    match rest with
    | '_' :: opaquePart =>
      decide (6 ≤ opaquePart.length ∧ opaquePart.length ≤ 64) &&
        opaquePart.all fun c ↦ c.isAlphanum || c == '_' || c == '-'
    | _ => false

/-- An identifier of one kind: the shape, under that kind's own prefix. -/
def isId (kind : String) (s : String) : Bool :=
  idPattern s && (kind.toList ++ ['_']).isPrefixOf s.toList

def idSchema (kind : String) : Schema String := .string (isId kind)

def threadIdSchema : Schema String := idSchema "thr"
def turnIdSchema : Schema String := idSchema "trn"
def itemIdSchema : Schema String := idSchema "itm"
def eventIdSchema : Schema String := idSchema "evt"
def correlationIdSchema : Schema String := idSchema "cor"
def actorIdSchema : Schema String := idSchema "act"
def sideEffectIdSchema : Schema String := idSchema "sfx"

/-- A provider's call identifier is external data: any nonempty string of bounded length. -/
def isProviderCallId (s : String) : Bool := decide (1 ≤ utf16Length s ∧ utf16Length s ≤ 256)

def providerCallIdSchema : Schema String := .string isProviderCallId

/-! ## Permission profiles and actors -/

inductive PermissionProfile where
  | plan
  | ask
  | autoAcceptEdits
  | yolo
deriving DecidableEq, Repr

def PermissionProfile.name : PermissionProfile → String
  | .plan => "plan"
  | .ask => "ask"
  | .autoAcceptEdits => "auto-accept-edits"
  | .yolo => "yolo"

def permissionProfileSchema : Schema PermissionProfile :=
  .enumeration [.plan, .ask, .autoAcceptEdits, .yolo] PermissionProfile.name
    (fun a ↦ by cases a <;> decide) (by decide)

inductive ActorKind where
  | user
  | model
  | subagent
  | teammate
  | hook
  | cron
  | background
  | system
  | mcp
deriving DecidableEq, Repr

def ActorKind.name : ActorKind → String
  | .user => "user"
  | .model => "model"
  | .subagent => "subagent"
  | .teammate => "teammate"
  | .hook => "hook"
  | .cron => "cron"
  | .background => "background"
  | .system => "system"
  | .mcp => "mcp"

def actorKindSchema : Schema ActorKind :=
  .enumeration
    [.user, .model, .subagent, .teammate, .hook, .cron, .background, .system, .mcp]
    ActorKind.name (fun a ↦ by cases a <;> decide) (by decide)

/-- Who caused an event. The label is the human name, such as a teammate's. -/
structure Actor where
  kind : ActorKind
  id : String
  label : Option String
deriving DecidableEq, Repr

def actorFields : Fields Actor :=
  ((Fields.field "kind" actorKindSchema).and
    ((Fields.field "id" actorIdSchema).and
      (Fields.optional "label" (boundedText 0 200)))).iso
    (fun (kind, id, label) ↦ ⟨kind, id, label⟩) (fun a ↦ (a.kind, a.id, a.label))
    (fun _ ↦ rfl) (fun _ ↦ rfl)

def actorSchema : Schema Actor :=
  .plain (.object actorFields) fun _ ↦ congrArg (Actor.mk _ _) Option.map_id_apply

/-! ## The turn state machine -/

inductive TurnState where
  | preparing
  | modelStreaming
  | awaitingApproval
  | executing
  | waitingBackground
  | compacting
  | recovering
  | steering
  | completed
  | cancelled
  | failed
  | blocked
  | budgetExhausted
deriving DecidableEq, Repr

def TurnState.name : TurnState → String
  | .preparing => "preparing"
  | .modelStreaming => "model-streaming"
  | .awaitingApproval => "awaiting-approval"
  | .executing => "executing"
  | .waitingBackground => "waiting-background"
  | .compacting => "compacting"
  | .recovering => "recovering"
  | .steering => "steering"
  | .completed => "completed"
  | .cancelled => "cancelled"
  | .failed => "failed"
  | .blocked => "blocked"
  | .budgetExhausted => "budget-exhausted"

def turnStateSchema : Schema TurnState :=
  .enumeration
    [.preparing, .modelStreaming, .awaitingApproval, .executing, .waitingBackground, .compacting,
      .recovering, .steering, .completed, .cancelled, .failed, .blocked, .budgetExhausted]
    TurnState.name (fun a ↦ by cases a <;> decide) (by decide)

def terminalTurnStates : List TurnState :=
  [.completed, .cancelled, .failed, .blocked, .budgetExhausted]

def isTerminalTurnState (s : TurnState) : Bool := decide (s ∈ terminalTurnStates)

/-- The legal successors of each state. -/
def turnTransitions : TurnState → List TurnState
  | .preparing =>
    [.modelStreaming, .compacting, .failed, .cancelled, .blocked, .budgetExhausted]
  | .modelStreaming =>
    [.executing, .awaitingApproval, .completed, .compacting, .recovering, .steering, .failed,
      .cancelled, .budgetExhausted]
  | .awaitingApproval => [.executing, .modelStreaming, .cancelled, .failed, .blocked]
  | .executing =>
    [.modelStreaming, .awaitingApproval, .waitingBackground, .executing, .recovering, .steering,
      .completed, .failed, .cancelled, .budgetExhausted]
  | .waitingBackground =>
    [.executing, .modelStreaming, .completed, .cancelled, .failed, .blocked]
  | .compacting => [.modelStreaming, .preparing, .failed, .cancelled]
  | .recovering => [.modelStreaming, .executing, .compacting, .failed, .cancelled, .blocked]
  | .steering => [.modelStreaming, .executing, .cancelled, .failed]
  | .completed => []
  | .cancelled => []
  | .failed => []
  | .blocked => []
  | .budgetExhausted => []

def canTransition (source target : TurnState) : Bool := decide (target ∈ turnTransitions source)

/-- A state is terminal exactly when it has no successor. -/
theorem isTerminalTurnState_iff (s : TurnState) :
    isTerminalTurnState s = true ↔ turnTransitions s = [] := by
  cases s <;> decide

/-- Cancelling is legal from every state that is not terminal. -/
theorem canTransition_cancelled {s : TurnState} (h : isTerminalTurnState s = false) :
    canTransition s .cancelled = true := by
  cases s <;> first | rfl | cases h

inductive TerminationReason where
  | naturalCompletion
  | userCancelled
  | turnLimit
  | modelCallLimit
  | toolCallLimit
  | tokenLimit
  | timeLimit
  | costLimit
  | retryLimit
  | blockingLimit
  | noProgress
  | repeatedIdenticalCalls
  | oscillation
  | diminishingReturns
  | runawayChildren
  | resourceDenialOfService
  | hookStop
  | policyDenied
  | providerError
  | toolError
  | internalError
deriving DecidableEq, Repr

def TerminationReason.name : TerminationReason → String
  | .naturalCompletion => "natural-completion"
  | .userCancelled => "user-cancelled"
  | .turnLimit => "turn-limit"
  | .modelCallLimit => "model-call-limit"
  | .toolCallLimit => "tool-call-limit"
  | .tokenLimit => "token-limit"
  | .timeLimit => "time-limit"
  | .costLimit => "cost-limit"
  | .retryLimit => "retry-limit"
  | .blockingLimit => "blocking-limit"
  | .noProgress => "no-progress"
  | .repeatedIdenticalCalls => "repeated-identical-calls"
  | .oscillation => "oscillation"
  | .diminishingReturns => "diminishing-returns"
  | .runawayChildren => "runaway-children"
  | .resourceDenialOfService => "resource-denial-of-service"
  | .hookStop => "hook-stop"
  | .policyDenied => "policy-denied"
  | .providerError => "provider-error"
  | .toolError => "tool-error"
  | .internalError => "internal-error"

def terminationReasonSchema : Schema TerminationReason :=
  .enumeration
    [.naturalCompletion, .userCancelled, .turnLimit, .modelCallLimit, .toolCallLimit, .tokenLimit,
      .timeLimit, .costLimit, .retryLimit, .blockingLimit, .noProgress, .repeatedIdenticalCalls,
      .oscillation, .diminishingReturns, .runawayChildren, .resourceDenialOfService, .hookStop,
      .policyDenied, .providerError, .toolError, .internalError]
    TerminationReason.name (fun a ↦ by cases a <;> decide) (by decide)

/-! ## Policy and approval vocabulary -/

inductive PolicyOutcome where
  | allow
  | deny
  | ask
  | passthrough
deriving DecidableEq, Repr

def PolicyOutcome.name : PolicyOutcome → String
  | .allow => "allow"
  | .deny => "deny"
  | .ask => "ask"
  | .passthrough => "passthrough"

def policyOutcomeSchema : Schema PolicyOutcome :=
  .enumeration [.allow, .deny, .ask, .passthrough] PolicyOutcome.name
    (fun a ↦ by cases a <;> decide) (by decide)

inductive ApprovalScope where
  | once
  | session
  | rule
deriving DecidableEq, Repr

def ApprovalScope.name : ApprovalScope → String
  | .once => "once"
  | .session => "session"
  | .rule => "rule"

def approvalScopeSchema : Schema ApprovalScope :=
  .enumeration [.once, .session, .rule] ApprovalScope.name
    (fun a ↦ by cases a <;> decide) (by decide)

def nullableScopeSchema : Schema (Option ApprovalScope) :=
  .plain (.nullable approvalScopeSchema fun _ h ↦ by cases h) fun _ ↦ Option.map_id_apply

inductive ApprovalRisk where
  | low
  | medium
  | high
deriving DecidableEq, Repr

def ApprovalRisk.name : ApprovalRisk → String
  | .low => "low"
  | .medium => "medium"
  | .high => "high"

def approvalRiskSchema : Schema ApprovalRisk :=
  .enumeration [.low, .medium, .high] ApprovalRisk.name
    (fun a ↦ by cases a <;> decide) (by decide)

/-! ## Items -/

inductive CompactionTrigger where
  | proactive
  | reactiveOverflow
  | manual
deriving DecidableEq, Repr

def CompactionTrigger.name : CompactionTrigger → String
  | .proactive => "proactive"
  | .reactiveOverflow => "reactive-overflow"
  | .manual => "manual"

def compactionTriggerSchema : Schema CompactionTrigger :=
  .enumeration [.proactive, .reactiveOverflow, .manual] CompactionTrigger.name
    (fun a ↦ by cases a <;> decide) (by decide)

/-- What every item carries. -/
structure ItemBase where
  id : String
  turnId : String
  threadId : String
  /-- Ordinal within the turn. -/
  seq : ℤ
  createdAt : ℤ
deriving DecidableEq, Repr

def itemBaseFields : Fields ItemBase :=
  ((Fields.field "id" itemIdSchema).and
    ((Fields.field "turnId" turnIdSchema).and
      ((Fields.field "threadId" threadIdSchema).and
        ((Fields.field "seq" nonnegativeInt).and
          (Fields.field "createdAt" safeInt))))).iso
    (fun (id, turnId, threadId, seq, createdAt) ↦ ⟨id, turnId, threadId, seq, createdAt⟩)
    (fun b ↦ (b.id, b.turnId, b.threadId, b.seq, b.createdAt))
    (fun _ ↦ rfl) (fun _ ↦ rfl)

/-- The arguments of a tool call: an object with any keys and any values. -/
abbrev Arguments := List (String × Value)

/-- A durable call of a tool, as the model made it. -/
structure ToolCallItem where
  callId : String
  toolName : String
  argumentsJson : String
  /-- Absent for a call whose arguments did not parse. -/
  arguments : Option Arguments
deriving Repr

/-- A durable result of a call. -/
structure ToolResultItem where
  callId : String
  toolName : String
  ok : Bool
  preview : String
  outputRef : Option String
  truncated : Bool
  durationMs : ℤ
  errorCategory : Option String
deriving DecidableEq, Repr

structure UsageItem where
  inputTokens : Option ℤ
  outputTokens : Option ℤ
  totalTokens : Option ℤ
  reasoningTokens : Option ℤ
  cachedInputTokens : Option ℤ
deriving DecidableEq, Repr

/-- The part of an item that depends on its type. -/
inductive ItemBody where
  | userMessage (text : String)
  | assistantMessage (text : String) (complete : Bool)
  | reasoningSummary (summary : String) (complete : Bool)
  | reasoningStatus (reasoningTokens : Option ℤ)
  | toolCall (call : ToolCallItem)
  | toolResult (result : ToolResultItem)
  | approval (callId : Option String) (decision : PolicyOutcome) (scope : Option ApprovalScope)
      (normalizedAction : String) (actor : Actor)
  | error (category message : String) (retryable : Bool) (requestId : Option String)
  | usage (usage : UsageItem)
  | compaction (trigger : CompactionTrigger) (transcriptBoundaryRef summary : String)
      (tokensBefore tokensAfter : ℤ)
  | userShell (command : String) (exitCode : Option ℤ) (output : String) (truncated : Bool)
deriving Repr

structure Item where
  base : ItemBase
  body : ItemBody
deriving Repr

def toolCallFields : Fields ToolCallItem :=
  ((Fields.field "callId" providerCallIdSchema).and
    ((Fields.field "toolName" (boundedText 1 200)).and
      ((Fields.field "argumentsJson" .text).and
        (Fields.field "arguments" (.nullable .record fun _ h ↦ by cases h))))).iso
    (fun (callId, toolName, argumentsJson, arguments) ↦
      ⟨callId, toolName, argumentsJson, arguments⟩)
    (fun c ↦ (c.callId, c.toolName, c.argumentsJson, c.arguments))
    (fun _ ↦ rfl) (fun _ ↦ rfl)

def toolResultFields : Fields ToolResultItem :=
  ((Fields.field "callId" providerCallIdSchema).and
    ((Fields.field "toolName" .text).and
      ((Fields.field "ok" .boolean).and
        ((Fields.field "preview" .text).and
          ((Fields.field "outputRef" nullableText).and
            ((Fields.field "truncated" .boolean).and
              ((Fields.field "durationMs" nonnegativeInt).and
                (Fields.field "errorCategory" nullableText)))))))).iso
    (fun (callId, toolName, ok, preview, outputRef, truncated, durationMs, errorCategory) ↦
      ⟨callId, toolName, ok, preview, outputRef, truncated, durationMs, errorCategory⟩)
    (fun r ↦ (r.callId, r.toolName, r.ok, r.preview, r.outputRef, r.truncated, r.durationMs,
      r.errorCategory))
    (fun _ ↦ rfl) (fun _ ↦ rfl)

def nullableTokens : Schema (Option ℤ) := nullableInt fun n ↦ isSafeInt n && decide (0 ≤ n)

def usageFields : Fields UsageItem :=
  ((Fields.field "inputTokens" nullableTokens).and
    ((Fields.field "outputTokens" nullableTokens).and
      ((Fields.field "totalTokens" nullableTokens).and
        ((Fields.field "reasoningTokens" nullableTokens).and
          (Fields.field "cachedInputTokens" nullableTokens))))).iso
    (fun (input, output, total, reasoning, cached) ↦ ⟨input, output, total, reasoning, cached⟩)
    (fun u ↦ (u.inputTokens, u.outputTokens, u.totalTokens, u.reasoningTokens,
      u.cachedInputTokens))
    (fun _ ↦ rfl) (fun _ ↦ rfl)

def itemVariants : List (Variant ItemBody) := [
  { tag := "user-message"
    fields := Fields.field "text" .text
    inj := .userMessage
    proj := fun | .userMessage text => some text | _ => none },
  { tag := "assistant-message"
    fields := (Fields.field "text" .text).and (Fields.field "complete" .boolean)
    inj := fun (text, complete) ↦ .assistantMessage text complete
    proj := fun | .assistantMessage text complete => some (text, complete) | _ => none },
  { tag := "reasoning-summary"
    fields := (Fields.field "summary" .text).and (Fields.field "complete" .boolean)
    inj := fun (summary, complete) ↦ .reasoningSummary summary complete
    proj := fun | .reasoningSummary summary complete => some (summary, complete) | _ => none },
  { tag := "reasoning-status"
    fields := (Fields.field "reasoningOccurred" .literalTrue).and
      (Fields.field "reasoningTokens" nullableTokens)
    inj := fun (_, tokens) ↦ .reasoningStatus tokens
    proj := fun | .reasoningStatus tokens => some ((), tokens) | _ => none },
  { tag := "tool-call"
    fields := toolCallFields
    inj := .toolCall
    proj := fun | .toolCall call => some call | _ => none },
  { tag := "tool-result"
    fields := toolResultFields
    inj := .toolResult
    proj := fun | .toolResult result => some result | _ => none },
  { tag := "approval"
    fields := (Fields.field "callId" (nullableString isProviderCallId)).and
      ((Fields.field "decision" policyOutcomeSchema).and
        ((Fields.field "scope" nullableScopeSchema).and
          ((Fields.field "normalizedAction" .text).and (Fields.field "actor" actorSchema))))
    inj := fun (callId, decision, scope, action, actor) ↦
      .approval callId decision scope action actor
    proj := fun
      | .approval callId decision scope action actor =>
        some (callId, decision, scope, action, actor)
      | _ => none },
  { tag := "error"
    fields := (Fields.field "category" .text).and
      ((Fields.field "message" .text).and
        ((Fields.field "retryable" .boolean).and (Fields.field "requestId" nullableText)))
    inj := fun (category, message, retryable, requestId) ↦
      .error category message retryable requestId
    proj := fun
      | .error category message retryable requestId =>
        some (category, message, retryable, requestId)
      | _ => none },
  { tag := "usage"
    fields := usageFields
    inj := .usage
    proj := fun | .usage usage => some usage | _ => none },
  { tag := "compaction"
    fields := (Fields.field "trigger" compactionTriggerSchema).and
      ((Fields.field "transcriptBoundaryRef" .text).and
        ((Fields.field "summary" .text).and
          ((Fields.field "tokensBefore" nonnegativeInt).and
            (Fields.field "tokensAfter" nonnegativeInt))))
    inj := fun (trigger, boundary, summary, before, after) ↦
      .compaction trigger boundary summary before after
    proj := fun
      | .compaction trigger boundary summary before after =>
        some (trigger, boundary, summary, before, after)
      | _ => none },
  { tag := "user-shell"
    fields := (Fields.field "command" .text).and
      ((Fields.field "exitCode" (nullableInt isSafeInt)).and
        ((Fields.field "output" .text).and (Fields.field "truncated" .boolean)))
    inj := fun (command, exitCode, output, truncated) ↦
      .userShell command exitCode output truncated
    proj := fun
      | .userShell command exitCode output truncated =>
        some (command, exitCode, output, truncated)
      | _ => none }]

def itemUnion : TaggedUnion ItemBody where
  key := "type"
  variants := itemVariants
  nodup := by decide
  fresh := by decide
  apart := by
    simp only [itemVariants, List.pairwise_cons, List.forall_mem_cons, List.not_mem_nil,
      false_implies, List.Pairwise.nil, and_true, implies_true]

def itemFields : Fields Item :=
  (itemBaseFields.and itemUnion.fields).iso
    (fun (base, body) ↦ ⟨base, body⟩) (fun i ↦ (i.base, i.body)) (fun _ ↦ rfl) (fun _ ↦ rfl)

def itemSchema : Schema Item := .object itemFields

end QwenHarness
