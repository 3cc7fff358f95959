import QwenHarness.Storage.AppendLog

/-!
# The durable sink of background work

A background task is a side effect of the thread it is started on. Its start is an intent under a
key that is made of the id of the task. When the task is settled, the row is marked as started and
then as complete or as failed.
-/

namespace QwenHarness.Background

open EventStore (AppendInput Draw append)

inductive BackgroundCategory where
  | localShell
  | localWorkflow
  | dreamConsolidation
deriving DecidableEq, Repr

def BackgroundCategory.name : BackgroundCategory → String
  | .localShell => "local-shell"
  | .localWorkflow => "local-workflow"
  | .dreamConsolidation => "dream-consolidation"

/-- The key of a task in the ledger. -/
def backgroundIdempotencyKey (taskId : String) : String := "background.v1:" ++ taskId

/-- Where the events of a manager go. -/
structure SinkContext where
  threadId : String
  turnId : String
  actor : Actor
  correlationId : String
  permissionProfile : PermissionProfile
deriving DecidableEq, Repr

def SinkContext.input (ctx : SinkContext) (payload : EventPayload) : AppendInput where
  threadId := ctx.threadId
  payload := payload
  actor := ctx.actor
  correlationId := ctx.correlationId
  causationId := none
  turnId := some ctx.turnId
  itemId := none
  permissionProfile := ctx.permissionProfile

/-- The intent of a task. -/
def backgroundIntent (sideEffectId taskId : String) (category : BackgroundCategory) :
    SideEffectIntent where
  sideEffectId := sideEffectId
  idempotencyKey := backgroundIdempotencyKey taskId
  kind := .other
  destructive := false
  normalizedAction := "background:" ++ category.name ++ ":" ++ taskId

section Sink

variable (r : Redactor) (ctx : SinkContext)

/-- `recordStart`, with the id it draws for the side effect. -/
def recordStart (taskId : String) (category : BackgroundCategory) (sideEffectId : String)
    (draw : Draw) : EventStore → Except StoreError HarnessEvent × EventStore :=
  append r (ctx.input (.sideEffectIntent (backgroundIntent sideEffectId taskId category))) draw

/-- The first half of `recordCompletion`. -/
def recordStarted (sideEffectId : String) (draw : Draw) :
    EventStore → Except StoreError HarnessEvent × EventStore :=
  append r (ctx.input (.sideEffectStarted sideEffectId)) draw

/-- A durable reference to the output of a task. -/
def outputRef (taskId : String) : String := "bgout_" ++ taskId

/-- The second half of `recordCompletion`. -/
def recordSettled (sideEffectId taskId : String) (ok : Bool) (draw : Draw) :
    EventStore → Except StoreError HarnessEvent × EventStore :=
  append r (ctx.input (.sideEffectSettled sideEffectId
    (if ok then .knownComplete else .knownFailed) (some (outputRef taskId)))) draw

end Sink

end QwenHarness.Background
