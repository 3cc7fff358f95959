import QwenHarness.Protocol.Domain

/-!
# Events

Every event carries the full envelope and one payload. The payload union is closed for this build;
`parseEventLenient` keeps an event of a newer build by wrapping the payload it cannot read, but
never accepts an event whose envelope is broken.
-/

namespace QwenHarness

open Codec

/-! ## Side-effect lifecycle -/

inductive SideEffectState where
  | notStarted
  | inFlight
  | knownComplete
  | knownFailed
  | indeterminate
deriving DecidableEq, Repr

def SideEffectState.name : SideEffectState → String
  | .notStarted => "not-started"
  | .inFlight => "in-flight"
  | .knownComplete => "known-complete"
  | .knownFailed => "known-failed"
  | .indeterminate => "indeterminate"

def sideEffectStateSchema : Schema SideEffectState :=
  .enumeration [.notStarted, .inFlight, .knownComplete, .knownFailed, .indeterminate]
    SideEffectState.name (fun a ↦ by cases a <;> decide) (by decide)

inductive SideEffectKind where
  | fileWrite
  | fileEdit
  | patch
  | shell
  | git
  | network
  | mcp
  | other
deriving DecidableEq, Repr

def SideEffectKind.name : SideEffectKind → String
  | .fileWrite => "file-write"
  | .fileEdit => "file-edit"
  | .patch => "patch"
  | .shell => "shell"
  | .git => "git"
  | .network => "network"
  | .mcp => "mcp"
  | .other => "other"

def sideEffectKindSchema : Schema SideEffectKind :=
  .enumeration [.fileWrite, .fileEdit, .patch, .shell, .git, .network, .mcp, .other]
    SideEffectKind.name (fun a ↦ by cases a <;> decide) (by decide)

/-- What is about to run, persisted before it runs. -/
structure SideEffectIntent where
  sideEffectId : String
  /-- Two identical actions share it, so a replay is detectable. -/
  idempotencyKey : String
  kind : SideEffectKind
  destructive : Bool
  normalizedAction : String
deriving DecidableEq, Repr

def sideEffectIntentFields : Fields SideEffectIntent :=
  ((Fields.field "sideEffectId" sideEffectIdSchema).and
    ((Fields.field "idempotencyKey" nonemptyText).and
      ((Fields.field "kind" sideEffectKindSchema).and
        ((Fields.field "destructive" .boolean).and
          (Fields.field "normalizedAction" .text))))).iso
    (fun (id, key, kind, destructive, action) ↦ ⟨id, key, kind, destructive, action⟩)
    (fun i ↦ (i.sideEffectId, i.idempotencyKey, i.kind, i.destructive, i.normalizedAction))
    (fun _ ↦ rfl) (fun _ ↦ rfl)

/-! ## Payloads -/

inductive Transport where
  | responses
  | chat
deriving DecidableEq, Repr

def Transport.name : Transport → String
  | .responses => "responses"
  | .chat => "chat"

def transportSchema : Schema Transport :=
  .enumeration [.responses, .chat] Transport.name (fun a ↦ by cases a <;> decide) (by decide)

inductive HookOutcome where
  | continue
  | block
  | context
  | modify
  | stop
deriving DecidableEq, Repr

def HookOutcome.name : HookOutcome → String
  | .continue => "continue"
  | .block => "block"
  | .context => "context"
  | .modify => "modify"
  | .stop => "stop"

def hookOutcomeSchema : Schema HookOutcome :=
  .enumeration [.continue, .block, .context, .modify, .stop] HookOutcome.name
    (fun a ↦ by cases a <;> decide) (by decide)

inductive EventPayload where
  | threadCreated (cwd : String) (canonicalRepo name : Option String)
  | threadForked (fromThreadId : String) (atSeq : ℤ)
  | threadRenamed (name : String)
  | threadArchived
  | cwdChanged (source target : String)
  | turnStarted (userText : String)
  | turnStateChanged (source target : TurnState)
  | turnEnded (state : TurnState) (reason : TerminationReason)
  | itemAppended (item : Item)
  | itemUpdated (item : Item)
  | modelRequestStarted (model : String) (transport : Transport) (requestDigest : String)
  | modelRequestCompleted (requestId : Option String) (finishReason : String)
  | modelRequestFailed (requestId : Option String) (category : String) (retryable : Bool)
      (message : String)
  | sideEffectIntent (intent : SideEffectIntent)
  | sideEffectStarted (sideEffectId : String)
  | sideEffectSettled (sideEffectId : String) (state : SideEffectState)
      (resultDigest : Option String)
  | policyDecision (callId : Option String) (normalizedAction : String)
      (decision : PolicyOutcome) (reason source : String)
  | approvalRequested (callId : Option String) (normalizedAction : String) (risk : ApprovalRisk)
  | approvalResolved (callId : Option String) (granted : Bool) (scope : Option ApprovalScope)
  | hookFired (event handler : String) (outcome : HookOutcome) (durationMs : ℤ)
  | budgetWarning (budget : String) (used limit : ℚ)
  | cancelled (scope : String)
  | unknown (originalType : String) (raw : Value)
deriving Repr

def nullableCallId : Schema (Option String) := nullableString isProviderCallId

def payloadVariants : List (Variant EventPayload) := [
  { tag := "thread-created"
    fields := (Fields.field "cwd" .text).and
      ((Fields.field "canonicalRepo" nullableText).and (Fields.field "name" nullableText))
    inj := fun (cwd, repo, name) ↦ .threadCreated cwd repo name
    proj := fun | .threadCreated cwd repo name => some (cwd, repo, name) | _ => none },
  { tag := "thread-forked"
    fields := (Fields.field "fromThreadId" threadIdSchema).and
      (Fields.field "atSeq" nonnegativeInt)
    inj := fun (thread, seq) ↦ .threadForked thread seq
    proj := fun | .threadForked thread seq => some (thread, seq) | _ => none },
  { tag := "thread-renamed"
    fields := Fields.field "name" .text
    inj := .threadRenamed
    proj := fun | .threadRenamed name => some name | _ => none },
  { tag := "thread-archived"
    fields := .empty
    inj := fun _ ↦ .threadArchived
    proj := fun | .threadArchived => some () | _ => none },
  { tag := "cwd-changed"
    fields := (Fields.field "from" .text).and (Fields.field "to" .text)
    inj := fun (source, target) ↦ .cwdChanged source target
    proj := fun | .cwdChanged source target => some (source, target) | _ => none },
  { tag := "turn-started"
    fields := Fields.field "userText" .text
    inj := .turnStarted
    proj := fun | .turnStarted text => some text | _ => none },
  { tag := "turn-state-changed"
    fields := (Fields.field "from" turnStateSchema).and (Fields.field "to" turnStateSchema)
    inj := fun (source, target) ↦ .turnStateChanged source target
    proj := fun | .turnStateChanged source target => some (source, target) | _ => none },
  { tag := "turn-ended"
    fields := (Fields.field "state" turnStateSchema).and
      (Fields.field "reason" terminationReasonSchema)
    inj := fun (state, reason) ↦ .turnEnded state reason
    proj := fun | .turnEnded state reason => some (state, reason) | _ => none },
  { tag := "item-appended"
    fields := Fields.field "item" itemSchema
    inj := .itemAppended
    proj := fun | .itemAppended item => some item | _ => none },
  { tag := "item-updated"
    fields := Fields.field "item" itemSchema
    inj := .itemUpdated
    proj := fun | .itemUpdated item => some item | _ => none },
  { tag := "model-request-started"
    fields := (Fields.field "model" .text).and
      ((Fields.field "transport" transportSchema).and (Fields.field "requestDigest" .text))
    inj := fun (model, transport, digest) ↦ .modelRequestStarted model transport digest
    proj := fun
      | .modelRequestStarted model transport digest => some (model, transport, digest)
      | _ => none },
  { tag := "model-request-completed"
    fields := (Fields.field "requestId" nullableText).and (Fields.field "finishReason" .text)
    inj := fun (requestId, reason) ↦ .modelRequestCompleted requestId reason
    proj := fun | .modelRequestCompleted requestId reason => some (requestId, reason) | _ => none },
  { tag := "model-request-failed"
    fields := (Fields.field "requestId" nullableText).and
      ((Fields.field "category" .text).and
        ((Fields.field "retryable" .boolean).and (Fields.field "message" .text)))
    inj := fun (requestId, category, retryable, message) ↦
      .modelRequestFailed requestId category retryable message
    proj := fun
      | .modelRequestFailed requestId category retryable message =>
        some (requestId, category, retryable, message)
      | _ => none },
  { tag := "side-effect-intent"
    fields := Fields.field "intent" (.object sideEffectIntentFields)
    inj := .sideEffectIntent
    proj := fun | .sideEffectIntent intent => some intent | _ => none },
  { tag := "side-effect-started"
    fields := Fields.field "sideEffectId" sideEffectIdSchema
    inj := .sideEffectStarted
    proj := fun | .sideEffectStarted id => some id | _ => none },
  { tag := "side-effect-settled"
    fields := (Fields.field "sideEffectId" sideEffectIdSchema).and
      ((Fields.field "state" sideEffectStateSchema).and
        (Fields.field "resultDigest" nullableText))
    inj := fun (id, state, digest) ↦ .sideEffectSettled id state digest
    proj := fun | .sideEffectSettled id state digest => some (id, state, digest) | _ => none },
  { tag := "policy-decision"
    fields := (Fields.field "callId" nullableCallId).and
      ((Fields.field "normalizedAction" .text).and
        ((Fields.field "decision" policyOutcomeSchema).and
          ((Fields.field "reason" .text).and (Fields.field "source" .text))))
    inj := fun (callId, action, decision, reason, source) ↦
      .policyDecision callId action decision reason source
    proj := fun
      | .policyDecision callId action decision reason source =>
        some (callId, action, decision, reason, source)
      | _ => none },
  { tag := "approval-requested"
    fields := (Fields.field "callId" nullableCallId).and
      ((Fields.field "normalizedAction" .text).and (Fields.field "risk" approvalRiskSchema))
    inj := fun (callId, action, risk) ↦ .approvalRequested callId action risk
    proj := fun
      | .approvalRequested callId action risk => some (callId, action, risk)
      | _ => none },
  { tag := "approval-resolved"
    fields := (Fields.field "callId" nullableCallId).and
      ((Fields.field "granted" .boolean).and (Fields.field "scope" nullableScopeSchema))
    inj := fun (callId, granted, scope) ↦ .approvalResolved callId granted scope
    proj := fun
      | .approvalResolved callId granted scope => some (callId, granted, scope)
      | _ => none },
  { tag := "hook-fired"
    fields := (Fields.field "event" .text).and
      ((Fields.field "handler" .text).and
        ((Fields.field "outcome" hookOutcomeSchema).and
          (Fields.field "durationMs" nonnegativeInt)))
    inj := fun (event, handler, outcome, duration) ↦ .hookFired event handler outcome duration
    proj := fun
      | .hookFired event handler outcome duration => some (event, handler, outcome, duration)
      | _ => none },
  { tag := "budget-warning"
    fields := (Fields.field "budget" .text).and
      ((Fields.field "used" .number).and (Fields.field "limit" .number))
    inj := fun (budget, used, limit) ↦ .budgetWarning budget used limit
    proj := fun | .budgetWarning budget used limit => some (budget, used, limit) | _ => none },
  { tag := "cancelled"
    fields := Fields.field "scope" .text
    inj := .cancelled
    proj := fun | .cancelled scope => some scope | _ => none },
  { tag := "unknown"
    fields := (Fields.field "originalType" .text).and (Fields.field "raw" .unknown)
    inj := fun (originalType, raw) ↦ .unknown originalType raw
    proj := fun | .unknown originalType raw => some (originalType, raw) | _ => none }]

def payloadUnion : TaggedUnion EventPayload where
  key := "type"
  variants := payloadVariants
  nodup := by decide
  fresh := by decide
  apart := by
    simp only [payloadVariants, List.pairwise_cons, List.forall_mem_cons, List.not_mem_nil,
      false_implies, List.Pairwise.nil, and_true, implies_true]

def payloadSchema : Schema EventPayload := .object payloadUnion.fields

/-! ## The free-form parts of a payload

Only two places hold values that the schema does not look into: the arguments of a tool call and
the raw payload of an event this build does not know. Everything else is spelled the same after
the text round trip. -/

def ToolCallItem.viaJson (c : ToolCallItem) : ToolCallItem :=
  { c with arguments := c.arguments.map Value.viaJsonEntries }

def ItemBody.viaJson : ItemBody → ItemBody
  | .toolCall call => .toolCall call.viaJson
  | body => body

def Item.viaJson (i : Item) : Item := { i with body := i.body.viaJson }

def EventPayload.viaJson : EventPayload → EventPayload
  | .itemAppended item => .itemAppended item.viaJson
  | .itemUpdated item => .itemUpdated item.viaJson
  | .unknown originalType raw => .unknown originalType raw.viaJson
  | p => p

/-- No free-form part holds a number that JSON cannot spell. -/
def ItemBody.isFinite : ItemBody → Bool
  | .toolCall call => call.arguments.all Value.isFiniteEntries
  | _ => true

def EventPayload.isFinite : EventPayload → Bool
  | .itemAppended item => item.body.isFinite
  | .itemUpdated item => item.body.isFinite
  | .unknown _ raw => raw.isFinite
  | _ => true

theorem ItemBody.viaJson_eq_self_iff (b : ItemBody) : b.viaJson = b ↔ b.isFinite = true := by
  cases b with
  | toolCall call =>
    obtain ⟨callId, toolName, argumentsJson, arguments⟩ := call
    cases arguments with
    | none => simp [ItemBody.viaJson, ToolCallItem.viaJson, ItemBody.isFinite]
    | some arguments =>
      simp [ItemBody.viaJson, ToolCallItem.viaJson, ItemBody.isFinite,
        Value.viaJsonEntries_eq_self_iff]
  | _ => simp [ItemBody.viaJson, ItemBody.isFinite]

theorem EventPayload.viaJson_eq_self_iff (p : EventPayload) :
    p.viaJson = p ↔ p.isFinite = true := by
  cases p with
  | itemAppended item =>
    obtain ⟨base, body⟩ := item
    simp [EventPayload.viaJson, EventPayload.isFinite, Item.viaJson,
      ItemBody.viaJson_eq_self_iff]
  | itemUpdated item =>
    obtain ⟨base, body⟩ := item
    simp [EventPayload.viaJson, EventPayload.isFinite, Item.viaJson,
      ItemBody.viaJson_eq_self_iff]
  | unknown originalType raw =>
    simp [EventPayload.viaJson, EventPayload.isFinite, Value.viaJson_eq_self_iff]
  | _ => simp [EventPayload.viaJson, EventPayload.isFinite]

theorem itemSchema_json (i : Item) : itemSchema.json i = i.viaJson := by
  obtain ⟨base, body⟩ := i
  cases body <;> rfl

/-- The schema's own account of the round trip is the explicit one. -/
theorem payloadSchema_json (p : EventPayload) : payloadSchema.json p = p.viaJson := by
  cases p with
  | itemAppended item => exact congrArg EventPayload.itemAppended (itemSchema_json item)
  | itemUpdated item => exact congrArg EventPayload.itemUpdated (itemSchema_json item)
  | _ => rfl

/-! ## The envelope -/

/-- What every log entry carries besides its payload. -/
structure EventEnvelope where
  id : String
  schemaVersion : ℤ
  /-- Monotonic within a thread. -/
  seq : ℤ
  timestamp : ℤ
  threadId : String
  turnId : Option String
  itemId : Option String
  actor : Actor
  /-- Groups everything caused by one user intent. -/
  correlationId : String
  /-- The event that directly caused this one. -/
  causationId : Option String
  permissionProfile : PermissionProfile
deriving DecidableEq, Repr

structure HarnessEvent extends EventEnvelope where
  payload : EventPayload
deriving Repr

/-- The version this build writes. -/
def currentSchemaVersion : ℤ := 1

def envelopeFields : Fields EventEnvelope :=
  ((Fields.field "id" eventIdSchema).and
    ((Fields.field "schemaVersion" positiveInt).and
      ((Fields.field "seq" nonnegativeInt).and
        ((Fields.field "timestamp" safeInt).and
          ((Fields.field "threadId" threadIdSchema).and
            ((Fields.field "turnId" (nullableString (isId "trn"))).and
              ((Fields.field "itemId" (nullableString (isId "itm"))).and
                ((Fields.field "actor" actorSchema).and
                  ((Fields.field "correlationId" correlationIdSchema).and
                    ((Fields.field "causationId" (nullableString (isId "cau"))).and
                      (Fields.field "permissionProfile" permissionProfileSchema))))))))))).iso
    (fun (id, version, seq, timestamp, threadId, turnId, itemId, actor, correlationId, causationId,
        profile) ↦
      ⟨id, version, seq, timestamp, threadId, turnId, itemId, actor, correlationId, causationId,
        profile⟩)
    (fun e ↦ (e.id, e.schemaVersion, e.seq, e.timestamp, e.threadId, e.turnId, e.itemId, e.actor,
      e.correlationId, e.causationId, e.permissionProfile))
    (fun _ ↦ rfl) (fun _ ↦ rfl)

def envelopeSchema : Schema EventEnvelope := .object envelopeFields

def eventFields : Fields HarnessEvent :=
  (envelopeFields.and (Fields.field "payload" payloadSchema)).iso
    (fun (envelope, payload) ↦ ⟨envelope, payload⟩) (fun e ↦ (e.toEventEnvelope, e.payload))
    (fun _ ↦ rfl) (fun _ ↦ rfl)

/-- `HarnessEventSchema`. -/
def eventSchema : Schema HarnessEvent := .object eventFields

/-! ## Reading events leniently -/

/-- A field of an object, if the value is an object that has it. -/
def field? (key : String) : Value → Option Value
  | .obj kvs => kvs.lookup key
  | _ => none

/-- The type a payload claims to be, when it claims one with a string. -/
def originalType (payload : Option Value) : String :=
  match payload.bind (field? "type") with
  | some (.str t) => t
  | _ => "unparseable"

/-- Read an event. A payload this build cannot read is kept whole under the type it claims; a
broken envelope is refused. -/
def parseEventLenient (raw : Value) : Option HarnessEvent :=
  match eventSchema.dec raw with
  | some e => some e
  | none =>
    (envelopeSchema.dec raw).map fun envelope ↦
      { envelope with
        payload :=
          .unknown (originalType (field? "payload" raw)) ((field? "payload" raw).getD .null) }

/-- What this build wrote it reads back strictly. -/
theorem parseEventLenient_enc {e : HarnessEvent} (h : eventSchema.ok e) :
    parseEventLenient (eventSchema.enc e) = some e := by
  rw [parseEventLenient, eventSchema.dec_enc h]

end QwenHarness
