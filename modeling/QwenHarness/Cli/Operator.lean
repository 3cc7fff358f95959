import QwenHarness.Background.Sink
import QwenHarness.Storage.Ledger

/-!
# What an operator does to the ledger

An operator settles a row from a process of its own. A row that is indeterminate is resolved with
what the operator found. A background task that is still marked as running is cancelled, which
settles its row as failed.
-/

namespace QwenHarness.Cli

open Background (backgroundIdempotencyKey)
open EventStore (AppendInput Draw append)

def cliUser : Actor := ⟨.user, "act_user01", none⟩

/-! ## Resolving a side effect -/

/-- What the operator found. -/
inductive Finding where
  | completed
  | failed
deriving DecidableEq, Repr

def Finding.state : Finding → SideEffectState
  | .completed => .knownComplete
  | .failed => .knownFailed

inductive ResolveError where
  | sideEffectNotFound (sideEffectId : String)
  | store (error : StoreError)
deriving DecidableEq, Repr

structure ResolveInput where
  threadId : String
  sideEffectId : String
  finding : Finding
  correlationId : String
  actorId : String
deriving DecidableEq, Repr

/-- The event that records a finding. No digest is claimed for a result nobody computed. -/
def ResolveInput.event (input : ResolveInput) (thread : ThreadRow) : AppendInput where
  threadId := input.threadId
  payload := .sideEffectSettled input.sideEffectId input.finding.state none
  actor := ⟨.user, input.actorId, none⟩
  correlationId := input.correlationId
  causationId := none
  turnId := none
  itemId := none
  permissionProfile := thread.permissionProfile

/-- Close a row of a thread that is indeterminate. -/
def resolveSideEffect (r : Redactor) (input : ResolveInput) (draw : Draw) (s : EventStore) :
    Except ResolveError SideEffectState × EventStore :=
  match (s.listIndeterminate input.threadId).find? fun x ↦ x.id = input.sideEffectId,
      s.getThread input.threadId with
  | some _, some thread =>
    match append r (input.event thread) draw s with
    | (.ok _, s') => (.ok input.finding.state, s')
    | (.error e, s') => (.error (.store e), s')
  | _, _ => (.error (.sideEffectNotFound input.sideEffectId), s)

section Resolve

variable {r : Redactor} {input : ResolveInput} {draw : Draw} {s s' : EventStore}

theorem resolveSideEffect_ok {state : SideEffectState}
    (h : resolveSideEffect r input draw s = (.ok state, s')) :
    state = input.finding.state ∧
      ∃ thread e, append r (input.event thread) draw s = (.ok e, s') := by
  unfold resolveSideEffect at h
  split at h
  · rename_i thread _ _
    split at h
    · rename_i e s₁ ha
      cases h
      exact ⟨rfl, thread, e, ha⟩
    · cases h
  · cases h

theorem resolveSideEffect_error {err : ResolveError}
    (h : resolveSideEffect r input draw s = (.error err, s')) : s' = s := by
  unfold resolveSideEffect at h
  split at h
  · rename_i thread _ _
    split at h
    · cases h
    · rename_i e s₁ ha
      have hsame := @EventStore.append_error r (input.event thread) draw s e (by rw [ha])
      rw [ha] at hsame
      cases h
      exact hsame
  · cases h
    rfl

end Resolve

/-! ## Cancelling a background task -/

/-- A background task as the log shows it. -/
structure DurableBackgroundRecord where
  taskId : String
  category : String
  threadId : String
  idempotencyKey : String
  sideEffectId : String
  /-- The state of its key, or `none` if the ledger does not know it. -/
  state : Option SideEffectState
deriving DecidableEq, Repr

def isLineTerminator (c : Char) : Bool := decide (c.toNat ∈ [0x0A, 0x0D, 0x2028, 0x2029])

/-- `background:<category>:<taskId>`, with a category that has no colon and a task id in one line. -/
def parseBackgroundAction (action : String) : Option (String × String) :=
  match "background:".toList.isPrefixOf action.toList,
      (action.toList.drop 11).span (· ≠ ':') with
  | true, (category@(_ :: _), ':' :: taskId@(_ :: _)) =>
    if taskId.any isLineTerminator then none
    else some (String.ofList category, String.ofList taskId)
  | _, _ => none

def durableRecord (s : EventStore) (threadId : String) (e : HarnessEvent) :
    Option DurableBackgroundRecord :=
  match e.payload with
  | .sideEffectIntent intent =>
    (parseBackgroundAction intent.normalizedAction).map fun (category, taskId) ↦
      { taskId, category, threadId, idempotencyKey := backgroundIdempotencyKey taskId
        sideEffectId := intent.sideEffectId
        state := s.sideEffectState (backgroundIdempotencyKey taskId) }
  | _ => none

def listDurableBackground (s : EventStore) (threadId : String) :
    Except StoreError (List DurableBackgroundRecord) :=
  (s.readThread threadId).map fun events ↦ events.filterMap (durableRecord s threadId)

inductive CancelAnswer where
  | unknownTask
  | cancelled
  | notCancellable (state : Option SideEffectState)
deriving DecidableEq, Repr

structure CancelInput where
  threadId : String
  taskId : String
  turnId : String
  correlationId : String
deriving DecidableEq, Repr

def CancelInput.event (input : CancelInput) (thread : Option ThreadRow) (sideEffectId : String) :
    AppendInput where
  threadId := input.threadId
  payload := .sideEffectSettled sideEffectId .knownFailed none
  actor := cliUser
  correlationId := input.correlationId
  causationId := none
  turnId := some input.turnId
  itemId := none
  permissionProfile := (thread.map ThreadRow.permissionProfile).getD .plan

/-- The record of a task on a thread: the first of its id. -/
def cancelRecord (s : EventStore) (input : CancelInput) :
    Except StoreError (Option DurableBackgroundRecord) :=
  (listDurableBackground s input.threadId).map fun records ↦
    records.find? fun record ↦ record.taskId = input.taskId

/-- `background cancel`. Only a row that is in flight is settled. -/
def cancelBackground (r : Redactor) (input : CancelInput) (draw : Draw) (s : EventStore) :
    Except StoreError CancelAnswer × EventStore :=
  match cancelRecord s input with
  | .error e => (.error e, s)
  | .ok none => (.ok .unknownTask, s)
  | .ok (some record) =>
    if record.state = some .inFlight then
      match append r (input.event (s.getThread input.threadId) record.sideEffectId) draw s with
      | (.ok _, s') => (.ok .cancelled, s')
      | (.error e, s') => (.error e, s')
    else (.ok (.notCancellable record.state), s)

end QwenHarness.Cli
