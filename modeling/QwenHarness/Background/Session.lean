import Mathlib.Data.List.Forall2
import QwenHarness.Background.Manager
import QwenHarness.Run.Along
import QwenHarness.Runtime.Environment

/-!
# A manager at work

One manager from its first call on, with a sink that returns. Whoever owns it calls it, and the
runner calls back, whenever the manager is open: also while it waits for the runner. Every call of
the runner may throw.

What the manager did is written down as it goes, so that it can be said what it does in which order,
and how often.
-/

namespace QwenHarness.Background

/-! ## What the owner sees -/

/-- The snapshot of a task. -/
structure BackgroundTaskView where
  id : String
  category : BackgroundCategory
  placement : Placement
  status : TaskStatus
  outputBytes : ℕ
  outputPreview : List UInt16
  outputTruncated : Bool
  outputWarned : Bool
  lastInputRequest : Option InputRequest
  createdAt : ℤ
  startedAt : Option ℤ
  endedAt : Option ℤ
  exit : Option RunnerExit
deriving DecidableEq, Repr

def TaskRecord.view (task : TaskRecord) : BackgroundTaskView where
  id := task.id
  category := task.category
  placement := task.placement
  status := task.status
  outputBytes := task.outputBytes
  outputPreview := task.outputPreview
  outputTruncated := task.outputTruncated
  outputWarned := task.outputWarned
  lastInputRequest := task.lastInputRequest
  createdAt := task.createdAt
  startedAt := task.startedAt
  endedAt := task.endedAt
  exit := task.exit

/-- How far a task is. -/
inductive Stage where
  | waiting
  | active
  | settled
deriving DecidableEq, Repr

def TaskStatus.stage (status : TaskStatus) : Stage :=
  if status = .queued then .waiting else if isTerminalStatus status then .settled else .active

/-- How many foreground tasks are launched and not settled. -/
def running (heap : Heap) : ℕ :=
  heap.countP fun task ↦
    decide (task.placement = .foreground) && decide (task.status.stage = .active)

/-! ## Moves -/

/-- What the manager did. A task is given by its place on the heap. -/
inductive Act where
  | queues (task : ℕ)
  /-- `runner.start` is called. -/
  | launches (task : ℕ)
  /-- The task is stopped, or is over the output limit. -/
  | ends (task : ℕ)
  /-- `cancel` is called on the control of the run. -/
  | cancels (task : ℕ)
  /-- `recordCompletion` is called. -/
  | completes (task : ℕ)
deriving DecidableEq, Repr

structure Session where
  heap : Heap
  manager : Manager
  /-- How many identifiers were drawn. -/
  drawn : ℕ
  log : List Act

def Session.new (ctx : SinkContext) (limit hardStopBytes drawn : ℕ) : Session :=
  ⟨[], .new ctx limit hardStopBytes 0, drawn, []⟩

inductive SessionMove where
  | start (input : StartInput) (now : ℤ)
  | stop (id : String)
  | provideInput (id : String)
  | awaitTask (id : String)
  | checkWatchdogs (now : ℤ) (answers : Answers)
  | callback (task : ℕ) (answers : Answers) (callback : Callback)
  /-- The manager works off the frame on top. -/
  | work (answers : Answers)
  | runnerReturns
  /-- `start`, `cancel` or `provideInput` throws. -/
  | runnerThrows
  /-- Somebody else draws an identifier. -/
  | draw

/-- The runner knows the callbacks of the tasks it was called to start. -/
def Session.allows (σ : Session) : SessionMove → Bool
  | .work _ | .runnerReturns | .draw => true
  | .runnerThrows =>
    match σ.manager.stack with
    | .starting _ :: _ | .steering _ :: _ => true
    | _ => false
  | .callback t _ _ => σ.manager.isOpen && decide (.launches t ∈ σ.log)
  | _ => σ.manager.isOpen

def Session.react (ids : IdSource) (σ : Session) : SessionMove → Heap × Manager
  | .start input now => σ.manager.start σ.heap input ⟨now, fun _ ↦ ids.next σ.drawn "bgt"⟩
  | .stop id => (σ.heap, σ.manager.stop σ.heap id)
  | .provideInput id => σ.manager.provideInput σ.heap id
  | .awaitTask id => σ.manager.awaitTask σ.heap id
  | .checkWatchdogs now answers => σ.manager.checkWatchdogs σ.heap now answers
  | .callback t answers callback => σ.manager.callback σ.heap t answers callback
  | .work answers => (σ.manager.work σ.heap answers).2
  | .runnerReturns => σ.manager.runnerReturns σ.heap
  | .runnerThrows => (σ.heap, σ.manager.runnerThrows)
  | .draw => (σ.heap, σ.manager)

/-- A task that has not ended is ended by the manager, which cancels the run if it has its
control. -/
def endingActs (heap : Heap) (t : ℕ) : List Act :=
  match heap[t]? with
  | none => []
  | some task =>
    if isTerminalStatus task.status then []
    else .ends t :: if task.hasControl then [.cancels t] else []

/-- What the manager does in a move. -/
def Session.acts (σ : Session) : SessionMove → List Act
  | .stop id =>
    match σ.manager.tasks.lookup id with
    | none => []
    | some t => endingActs σ.heap t
  | .callback t _ (.output chunk) =>
    match σ.heap[t]? with
    | none => []
    | some task =>
      if σ.manager.hardStopBytes ≤ task.outputBytes + chunk.length then endingActs σ.heap t else []
  | .work _ =>
    match σ.manager.stack with
    | .place t :: _ =>
      match σ.heap[t]? with
      | none => []
      | some task =>
        if task.placement = .background ∨
            σ.manager.foregroundRunning σ.heap < σ.manager.limit then []
        else [.queues t]
    | .launch t :: _ => [.launches t]
    | .recordStarted t :: _ => [.completes t]
    | _ => []
  | _ => []

def Session.step (ids : IdSource) (move : SessionMove) (σ : Session) : Session :=
  if σ.allows move then
    { heap := (σ.react ids move).1
      manager := (σ.react ids move).2
      drawn := σ.drawn + 1
      log := σ.log ++ σ.acts move }
  else σ

/-- The state after a run. -/
def Session.run (ids : IdSource) (σ : Session) (moves : List SessionMove) : Session :=
  moves.foldl (fun σ move ↦ σ.step ids move) σ

end QwenHarness.Background
