import Mathlib.Data.List.Basic

/-!
# The life of a task

The legal transitions are data: `taskTransitions` lists where a task in each state may go. A claim
enters from `pending` or `released` only, so a task that is `blocked` cannot be picked up.
-/

namespace QwenHarness.Tasks

inductive TaskStatus where
  /-- Created, without an owner, not started. -/
  | pending
  /-- It waits for another task. -/
  | blocked
  /-- Owned, not yet started. -/
  | claimed
  /-- Owned and worked on. -/
  | inProgress
  | completed
  /-- It was owned and is back in the pool. -/
  | released
  /-- Kept for audit, and so that its id stays taken. -/
  | deleted
deriving DecidableEq, Repr

def TaskStatus.name : TaskStatus → String
  | .pending => "pending"
  | .blocked => "blocked"
  | .claimed => "claimed"
  | .inProgress => "in-progress"
  | .completed => "completed"
  | .released => "released"
  | .deleted => "deleted"

def taskStatuses : List TaskStatus :=
  [.pending, .blocked, .claimed, .inProgress, .completed, .released, .deleted]

/-- The status a text names. -/
def TaskStatus.ofName (text : String) : Option TaskStatus :=
  taskStatuses.find? fun status ↦ status.name == text

@[simp] theorem TaskStatus.ofName_name (status : TaskStatus) : ofName status.name = some status := by
  cases status <;> decide

def taskTransitions : TaskStatus → List TaskStatus
  | .pending => [.claimed, .blocked, .deleted]
  | .blocked => [.pending, .deleted]
  | .claimed => [.inProgress, .released, .blocked, .deleted]
  | .inProgress => [.completed, .released, .blocked, .deleted]
  | .completed => [.deleted]
  | .released => [.claimed, .blocked, .deleted]
  | .deleted => []

def canTransition (src tgt : TaskStatus) : Bool := decide (tgt ∈ taskTransitions src)

/-- A task in one of these states is owned. -/
def isOwned (status : TaskStatus) : Bool := decide (status ∈ [TaskStatus.claimed, .inProgress])

/-- A task in one of these states can be picked up. -/
def isClaimable (status : TaskStatus) : Bool := decide (status ∈ [TaskStatus.pending, .released])

/-- A blocker in one of these states no longer holds anything up. A deleted one can never
complete. -/
def isSatisfied (status : TaskStatus) : Bool :=
  decide (status = .completed ∨ status = .deleted)

theorem canTransition_completed {status : TaskStatus} :
    canTransition status .completed = true ↔ status = .inProgress := by
  cases status <;> decide

theorem canTransition_inProgress {status : TaskStatus} :
    canTransition status .inProgress = true ↔ status = .claimed := by
  cases status <;> decide

end QwenHarness.Tasks
