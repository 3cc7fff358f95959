import QwenHarness.Runtime.TurnEngine
import QwenHarness.Storage.Rebuild

/-!
# Sessions

A session is read from the event log and from nothing else. The conversation for the model is what
the events of the thread add to it, one after the other. A turn that waits for a human is found the
same way: it was started and not ended, an approval was requested and not resolved, and of the calls
of the turn those without a result are still to be made.

A fork copies the events that make up the conversation, up to a point, into a new thread. The tables
of turns and items have their own ids as keys, so every id is replaced by a fresh one, the same one
wherever it stands.
-/

namespace QwenHarness.Sessions

open EventStore (AppendInput Draw)
open Effect

/-! ## The conversation -/

/-- What an event adds to the conversation. -/
def historyItem : EventPayload → Option ModelInputItem
  | .turnStarted userText => some (.message .user userText)
  | .itemAppended item =>
    match item.body with
    | .assistantMessage text _ => if text = "" then none else some (.message .assistant text)
    | .toolCall call => some (.functionCall call.callId call.toolName call.argumentsJson)
    | .toolResult result => some (.functionOutput result.callId result.toolName result.preview)
    | _ => none
  | _ => none

def historyOf (events : List HarnessEvent) : List ModelInputItem :=
  events.filterMap fun event ↦ historyItem event.payload

def reconstructHistory (store : EventStore) (threadId : String) :
    Except StoreError (List ModelInputItem) :=
  (store.readThread threadId).map historyOf

/-! ## A turn that waits -/

structure PendingApprovalRecord where
  threadId : String
  turnId : String
  correlationId : String
  permissionProfile : PermissionProfile
  /-- The call the user was asked about. -/
  callId : String
  normalizedAction : String
  risk : ApprovalRisk
  /-- The calls of the turn without a result, in their order. -/
  pendingCalls : List NormalizedToolCall
deriving Repr

/-- The turn that was started last. -/
def lastTurn (events : List HarnessEvent) : Option String :=
  (events.filterMap fun event ↦
    match event.payload with
    | .turnStarted _ => event.turnId
    | _ => none).getLast?

def isTurnEnded : EventPayload → Bool
  | .turnEnded _ _ => true
  | _ => false

/-- The calls that were asked about, with the action and its risk. -/
def requested (inTurn : List HarnessEvent) : List (Option String × String × ApprovalRisk) :=
  inTurn.filterMap fun event ↦
    match event.payload with
    | .approvalRequested callId normalizedAction risk => some (callId, normalizedAction, risk)
    | _ => none

def resolvedCallIds (inTurn : List HarnessEvent) : List (Option String) :=
  inTurn.filterMap fun event ↦
    match event.payload with
    | .approvalResolved callId _ _ => some callId
    | _ => none

/-- The ids of the calls with a result. -/
def settled (inTurn : List HarnessEvent) : List String :=
  inTurn.filterMap fun event ↦
    match event.payload with
    | .itemAppended item =>
      match item.body with
      | .toolResult result => some result.callId
      | _ => none
    | _ => none

/-- The call an event records, as it is offered again. -/
def recordedCall : EventPayload → Option NormalizedToolCall
  | .itemAppended item =>
    match item.body with
    | .toolCall call =>
      some
        { itemId := item.base.id, callId := call.callId, toolName := call.toolName
          argumentsJson := call.argumentsJson, arguments := call.arguments.getD [] }
    | _ => none
  | _ => none

def pendingCallsOf (inTurn : List HarnessEvent) : List NormalizedToolCall :=
  (inTurn.filterMap fun event ↦ recordedCall event.payload).filter fun call ↦
    decide (call.callId ∉ settled inTurn)

/-- The approval the thread with these events is blocked on. -/
def pendingApprovalOf (threadId : String) (events : List HarnessEvent) :
    Option PendingApprovalRecord := do
  let turnId ← lastTurn events
  let inTurn := events.filter fun event ↦ event.turnId = some turnId
  if inTurn.any fun event ↦ isTurnEnded event.payload then none
  else
    let opened := (requested inTurn).filter fun p ↦ decide (p.1 ∉ resolvedCallIds inTurn)
    let pending ← opened.getLast?
    let callId ← pending.1
    let pendingCalls := pendingCallsOf inTurn
    if pendingCalls.isEmpty then none
    else
      let envelope ← inTurn.head?
      some
        { threadId, turnId, correlationId := envelope.correlationId
          permissionProfile := envelope.permissionProfile, callId
          normalizedAction := pending.2.1, risk := pending.2.2, pendingCalls }

def findPendingApproval (store : EventStore) (threadId : String) :
    Except StoreError (Option PendingApprovalRecord) :=
  (store.readThread threadId).map (pendingApprovalOf threadId)

/-! ## Forking -/

/-- What the store and its callers are given from outside, by the number of draws before. -/
structure Outside where
  redactor : Redactor
  ids : IdSource
  now : ℕ → ℤ
  /-- Where an append is made to fail. -/
  fault : ℕ → Option StoreError

/-- What one append is answered. -/
def Outside.draw (outside : Outside) (n : ℕ) : Draw where
  id := outside.ids.next n "evt"
  now := outside.now n
  fault := outside.fault n

structure SessionState where
  store : EventStore
  drawn : ℕ

inductive SessionError where
  | noSuchSession (threadId : String)
  | store (error : StoreError)
deriving DecidableEq, Repr

abbrev Session := EStateM SessionError SessionState

structure ForkOptions where
  atSeq : Option ℤ
  actorId : String
deriving DecidableEq, Repr

structure ForkResult where
  newThreadId : String
  fromThreadId : String
  copiedEvents : ℕ
deriving DecidableEq, Repr

/-- What every event of the fork carries. -/
structure ForkBase where
  threadId : String
  correlationId : String
  permissionProfile : PermissionProfile
  actor : Actor
deriving DecidableEq, Repr

def ForkBase.input (base : ForkBase) (turnId itemId : Option String) (payload : EventPayload) :
    AppendInput :=
  { threadId := base.threadId, payload, actor := base.actor, correlationId := base.correlationId
    causationId := none, turnId, itemId, permissionProfile := base.permissionProfile }

section Fork

variable (outside : Outside)

def nextId (kind : String) : Session String := fun w ↦
  .ok (outside.ids.next w.drawn kind) { w with drawn := w.drawn + 1 }

def append (input : AppendInput) : Session Unit := fun w ↦
  match EventStore.append outside.redactor input (outside.draw w.drawn) w.store with
  | (.ok _, store) => .ok () { store, drawn := w.drawn + 1 }
  | (.error e, store) => .error (.store e) { store, drawn := w.drawn + 1 }

/-- The ids that were replaced, with what they were replaced by. -/
abbrev IdMap := List (String × String)

/-- The fresh id for an old one, which is the same every time. -/
def remap (kind : String) (old : String) (idMap : IdMap) : Session (String × IdMap) :=
  match idMap.lookup old with
  | some id => pure (id, idMap)
  | none => do
    let id ← nextId outside kind
    pure (id, (old, id) :: idMap)

/-- The turn an event of the start of a turn is copied into. -/
def remapTurn (turnId : Option String) (idMap : IdMap) : Session (String × IdMap) :=
  match turnId with
  | some old =>
    if old = "" then do
      let id ← nextId outside "trn"
      pure (id, idMap)
    else remap outside "trn" old idMap
  | none => do
    let id ← nextId outside "trn"
    pure (id, idMap)

/-- The item under its new ids. -/
def Item.moved (item : Item) (threadId turnId itemId : String) : Item :=
  { item with base := { item.base with id := itemId, turnId, threadId } }

/-- Copy the events up to the cutoff that make up the conversation. Answers how many these are. -/
def copyEvents (base : ForkBase) (cutoff : ℤ) : IdMap → List HarnessEvent → Session ℕ
  | _, [] => pure 0
  | idMap, event :: events =>
    if cutoff < event.seq then pure 0
    else
      match event.payload with
      | .turnStarted userText => do
        let (turnId, idMap) ← remapTurn outside event.turnId idMap
        append outside (base.input (some turnId) none (.turnStarted userText))
        let copied ← copyEvents base cutoff idMap events
        pure (copied + 1)
      | .itemAppended item => do
        let (turnId, idMap) ← remap outside "trn" item.base.turnId idMap
        let (itemId, idMap) ← remap outside "itm" item.base.id idMap
        append outside (base.input (some turnId) (some itemId)
          (.itemAppended (Item.moved item base.threadId turnId itemId)))
        let copied ← copyEvents base cutoff idMap events
        pure (copied + 1)
      | _ => copyEvents base cutoff idMap events

def readThread (threadId : String) : Session (List HarnessEvent) := fun w ↦
  match w.store.readThread threadId with
  | .ok events => .ok events w
  | .error e => .error (.store e) w

def getThread (threadId : String) : Session ThreadRow := fun w ↦
  match w.store.getThread threadId with
  | some thread => .ok thread w
  | none => .error (.noSuchSession threadId) w

/-- The name of the fork of a thread with this name. -/
def forkName : Option String → Option String
  | some name => if name = "" then none else some (name ++ " (fork)")
  | none => none

def forkSession (fromThreadId newThreadId : String) (opts : ForkOptions) : Session ForkResult := do
  let source ← getThread fromThreadId
  let events ← readThread fromThreadId
  let cutoff := opts.atSeq.getD ((events.getLast?.map fun event ↦ event.seq).getD 0)
  let correlationId ← nextId outside "cor"
  let base : ForkBase :=
    { threadId := newThreadId, correlationId, permissionProfile := source.permissionProfile
      actor := ⟨.system, opts.actorId, none⟩ }
  append outside (base.input none none
    (.threadCreated source.cwd source.canonicalRepo (forkName source.name)))
  append outside (base.input none none (.threadForked fromThreadId cutoff))
  let copiedEvents ← copyEvents outside base cutoff [] events
  pure { newThreadId, fromThreadId, copiedEvents }

end Fork

end QwenHarness.Sessions
