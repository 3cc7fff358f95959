import QwenHarness.Background.Sink

/-!
# The background manager

One manager runs all background work through one state machine. It calls a runner, which starts the
processes and calls back, also while the manager is still inside a call of the runner, and a sink,
which writes to the store. What the manager is in the middle of is a stack of frames: one frame is
worked off at a time, and while the runner is called the frame on top waits for it.

A process can die between any two frames.
-/

namespace QwenHarness.Background

/-! ## Tasks -/

def foregroundConcurrency : ℕ := 4

def outputWarnBytes : ℕ := 10 * 1024 * 1024

def outputHardStopBytes : ℕ := 5 * 1024 * 1024 * 1024

def outputPreviewBytes : ℕ := 64 * 1024

def inputWatchdogMs : ℤ := 30000

def blockedAfterMs : ℤ := 5 * 60000

inductive TaskStatus where
  | queued
  | running
  | awaitingInput
  | blocked
  | succeeded
  | failed
  | cancelled
deriving DecidableEq, Repr

def TaskStatus.name : TaskStatus → String
  | .queued => "queued"
  | .running => "running"
  | .awaitingInput => "awaiting_input"
  | .blocked => "blocked"
  | .succeeded => "succeeded"
  | .failed => "failed"
  | .cancelled => "cancelled"

def isTerminalStatus (status : TaskStatus) : Bool :=
  decide (status ∈ [TaskStatus.succeeded, .failed, .cancelled])

inductive Placement where
  | foreground
  | background
deriving DecidableEq, Repr

structure ForegroundHint where
  longLived : Bool
  interactive : Bool
deriving DecidableEq, Repr

/-- An explicit choice wins. Without one, only what is long-lived and not interactive leaves the
foreground. -/
def classifyForeground (explicit : Option Placement) (hint : Option ForegroundHint) : Placement :=
  match explicit, hint with
  | some placement, _ => placement
  | none, some ⟨true, false⟩ => .background
  | none, _ => .foreground

/-- How a run ended. -/
structure RunnerExit where
  ok : Bool
  code : Option ℤ
  reason : Option String
deriving DecidableEq, Repr

structure InputRequest where
  prompt : String
  secret : Bool
deriving DecidableEq, Repr

/-- What the manager keeps of a task. Text is a list of UTF-16 code units. -/
structure TaskRecord where
  id : String
  category : BackgroundCategory
  placement : Placement
  approvalChannel : Bool
  status : TaskStatus
  /-- The runner has handed out the control of the run. -/
  hasControl : Bool
  outputBytes : ℕ
  outputPreview : List UInt16
  outputTruncated : Bool
  outputWarned : Bool
  lastInputRequest : Option InputRequest
  awaitingSince : Option ℤ
  detectedWaitSince : Option ℤ
  createdAt : ℤ
  startedAt : Option ℤ
  endedAt : Option ℤ
  exit : Option RunnerExit
  /-- How many callers wait for the end of the task. -/
  waiters : ℕ
deriving DecidableEq, Repr

structure StartInput where
  category : BackgroundCategory
  placement : Option Placement
  hint : Option ForegroundHint
  approvalChannel : Bool
deriving DecidableEq, Repr

inductive NotificationKind where
  | inputRequest
  | taskFailure
  | backgroundCompletion
  | status
deriving DecidableEq, Repr

def levelOf : NotificationKind → ℕ
  | .inputRequest => 1
  | .taskFailure => 2
  | .backgroundCompletion => 3
  | .status => 4

structure Notification where
  id : String
  kind : NotificationKind
  level : ℕ
  subjectId : String
  message : String
  createdAt : ℤ
deriving DecidableEq, Repr

/-! ## The manager -/

/-- What is left to do in the call the manager is in. A task is given by its place on the heap. -/
inductive Frame where
  /-- `recordStart`. -/
  | recordStart (task : ℕ)
  /-- Launch the task or put it in the queue. -/
  | place (task : ℕ)
  /-- Call the runner to start the task. -/
  | launch (task : ℕ)
  /-- The runner is starting the task. -/
  | starting (task : ℕ)
  /-- The runner is cancelling the run, or is given input for it. -/
  | steering (task : ℕ)
  | settle (task : ℕ) (status : TaskStatus) (exit : RunnerExit)
  /-- The first half of `recordCompletion`. -/
  | recordStarted (task : ℕ)
  /-- The second half of `recordCompletion`. -/
  | recordSettled (task : ℕ) (ok : Bool)
  /-- Tell those who wait, and free the slot. -/
  | conclude (task : ℕ)
  | admitNext
deriving DecidableEq, Repr

/-- The runner is in a call of the manager. -/
def Frame.isRunner : Frame → Bool
  | .starting _ | .steering _ => true
  | _ => false

/-- A process with its manager and sink. -/
structure Manager where
  ctx : SinkContext
  limit : ℕ
  hardStopBytes : ℕ
  /-- The first task on the heap that belongs to this process. -/
  base : ℕ
  /-- The tasks by id. A later task under the same id takes the place of the one before. -/
  tasks : List (String × ℕ)
  queue : List String
  notifications : List Notification
  /-- The side effects of the sink, by task. -/
  sideEffectIds : List (String × String)
  stack : List Frame
deriving DecidableEq, Repr

/-- `map.set(key, value)`. -/
def assign {α β : Type} [DecidableEq α] (k : α) (v : β) : List (α × β) → List (α × β)
  | [] => [(k, v)]
  | (k', v') :: rest => if k' = k then (k', v) :: rest else (k', v') :: assign k v rest

def Manager.new (ctx : SinkContext) (limit hardStopBytes base : ℕ) : Manager where
  ctx := ctx
  limit := limit
  hardStopBytes := hardStopBytes
  base := base
  tasks := []
  queue := []
  notifications := []
  sideEffectIds := []
  stack := []

/-- Nothing is under way, or the runner is. Then calls and callbacks can come in. -/
def Manager.isOpen (m : Manager) : Bool :=
  match m.stack with
  | [] => true
  | frame :: _ => frame.isRunner

/-- An exception leaves every frame up to the call of the runner it came through. -/
def Manager.throws (m : Manager) : Manager := { m with stack := m.stack.dropWhile (!·.isRunner) }

def Manager.pop (m : Manager) : Manager := { m with stack := m.stack.tail }

/-- Replace the frame on top. -/
def Manager.become (m : Manager) (frames : List Frame) : Manager :=
  { m with stack := frames ++ m.stack.tail }

def Manager.push (m : Manager) (frames : List Frame) : Manager :=
  { m with stack := frames ++ m.stack }

/-- The tasks of all processes, in the order in which they were made. -/
abbrev Heap := List TaskRecord

def Manager.foregroundRunning (m : Manager) (heap : Heap) : ℕ :=
  m.tasks.countP fun entry ↦
    match heap[entry.2]? with
    | some task =>
      decide (task.placement = .foreground) && !isTerminalStatus task.status &&
        decide (task.status ≠ .queued)
    | none => false

/-- What a step of the manager is answered from outside: the clock, and the ids it draws. -/
structure Answers where
  now : ℤ
  ids : ℕ → String

def Manager.notify (m : Manager) (task : TaskRecord) (kind : NotificationKind) (message : String)
    (answers : Answers) : Manager :=
  { m with
    notifications := m.notifications ++
      [{ id := answers.ids m.notifications.length, kind, level := levelOf kind
         subjectId := task.id, message, createdAt := answers.now }] }

/-! ## What the owner calls -/

/-- The task `start` makes. -/
def newTask (input : StartInput) (id : String) (now : ℤ) : TaskRecord where
  id := id
  category := input.category
  placement := classifyForeground input.placement input.hint
  approvalChannel := input.approvalChannel
  status := .queued
  hasControl := false
  outputBytes := 0
  outputPreview := []
  outputTruncated := false
  outputWarned := false
  lastInputRequest := none
  awaitingSince := none
  detectedWaitSince := none
  createdAt := now
  startedAt := none
  endedAt := none
  exit := none
  waiters := 0

def Manager.start (m : Manager) (heap : Heap) (input : StartInput) (answers : Answers) :
    Heap × Manager :=
  (heap ++ [newTask input (answers.ids 0) answers.now],
    { m with tasks := assign (answers.ids 0) heap.length m.tasks }.push
      [.recordStart heap.length, .place heap.length])

/-- Cancelling a task that has ended does nothing, and an unknown one is an error. -/
def Manager.stop (m : Manager) (heap : Heap) (id : String) : Manager :=
  match m.tasks.lookup id with
  | none => m.throws
  | some t =>
    match heap[t]? with
    | none => m
    | some task =>
      if isTerminalStatus task.status then m
      else m.push ((if task.hasControl then [.steering t] else []) ++
        [.settle t .cancelled ⟨false, none, some "cancelled"⟩])

def Manager.provideInput (m : Manager) (heap : Heap) (id : String) : Heap × Manager :=
  match m.tasks.lookup id with
  | none => (heap, m.throws)
  | some t =>
    match heap[t]? with
    | none => (heap, m)
    | some task =>
      if task.status = .awaitingInput ∨ task.status = .blocked then
        (heap.modify t fun task ↦
          { task with
            status := .running, awaitingSince := none, detectedWaitSince := none
            lastInputRequest := none },
          m.push (if task.hasControl then [.steering t] else []))
      else (heap, m.throws)

def Manager.awaitTask (m : Manager) (heap : Heap) (id : String) : Heap × Manager :=
  match m.tasks.lookup id with
  | none => (heap, m.throws)
  | some t =>
    (heap.modify t fun task ↦
      if isTerminalStatus task.status then task else { task with waiters := task.waiters + 1 }, m)

/-- A task asks for input. -/
def Manager.enterAwaitingInput (m : Manager) (heap : Heap) (t : ℕ) (request : InputRequest)
    (now : ℤ) (answers : Answers) : Heap × Manager :=
  match heap[t]? with
  | none => (heap, m)
  | some task =>
    if isTerminalStatus task.status then (heap, m)
    else
      (heap.modify t fun task ↦
        { task with
          status := .awaitingInput, awaitingSince := some now, detectedWaitSince := none
          lastInputRequest := some request },
        m.notify task .inputRequest ("task " ++ task.id ++ " requests input: " ++ request.prompt)
          answers)

/-- What the watchdogs do about one task: a wait that was detected becomes a request, and a request
that no channel can answer blocks the task. -/
def Manager.checkWatchdog (now : ℤ) (answers : Answers) (hm : Heap × Manager) (t : ℕ) :
    Heap × Manager :=
  let promoted :=
    match hm.1[t]? with
    | none => hm
    | some task =>
      if task.status = .running ∧ ∃ since ∈ task.detectedWaitSince, inputWatchdogMs ≤ now - since
      then hm.2.enterAwaitingInput hm.1 t ⟨"input required (watchdog)", false⟩ now answers
      else hm
  match promoted.1[t]? with
  | none => promoted
  | some task =>
    if task.status = .awaitingInput ∧ task.approvalChannel = false ∧
        ∃ since ∈ task.awaitingSince, blockedAfterMs ≤ now - since then
      (promoted.1.modify t fun task ↦ { task with status := .blocked },
        promoted.2.notify task .status ("task " ++ task.id ++ " blocked: no input channel") answers)
    else promoted

def Manager.checkWatchdogs (m : Manager) (heap : Heap) (now : ℤ) (answers : Answers) :
    Heap × Manager :=
  (m.tasks.map Prod.snd).foldl (Manager.checkWatchdog now answers) (heap, m)

/-! ## What the runner calls back -/

inductive Callback where
  | output (chunk : List UInt16)
  | inputRequest (request : InputRequest)
  | inputWaitDetected
  | exit (exit : RunnerExit)
deriving DecidableEq, Repr

/-- Output is counted, and its beginning is kept. -/
def TaskRecord.takeOutput (task : TaskRecord) (chunk : List UInt16) : TaskRecord :=
  let room := outputPreviewBytes - task.outputPreview.length
  { task with
    outputBytes := task.outputBytes + chunk.length
    outputPreview := task.outputPreview ++ chunk.take room
    outputTruncated := task.outputTruncated || decide (room = 0 ∨ room < chunk.length) }

def Manager.onOutput (m : Manager) (heap : Heap) (t : ℕ) (chunk : List UInt16) (answers : Answers) :
    Heap × Manager :=
  match heap[t]? with
  | none => (heap, m)
  | some task =>
    if isTerminalStatus task.status then (heap, m)
    else
      let taken := task.takeOutput chunk
      let warns := !taken.outputWarned && decide (outputWarnBytes ≤ taken.outputBytes)
      let m := if warns then
          m.notify task .status
            ("task " ++ task.id ++ " output exceeded " ++ toString outputWarnBytes ++ " bytes") answers
        else m
      (heap.set t { taken with outputWarned := taken.outputWarned || warns },
        if m.hardStopBytes ≤ taken.outputBytes then
          m.push ((if task.hasControl then [.steering t] else []) ++
            [.settle t .failed ⟨false, none, some "output hard-stop limit exceeded"⟩])
        else m)

def Manager.onInputWaitDetected (m : Manager) (heap : Heap) (t : ℕ) (answers : Answers) :
    Heap × Manager :=
  (heap.modify t fun task ↦
    if task.status = .running ∧ task.detectedWaitSince = none then
      { task with detectedWaitSince := some answers.now }
    else task, m)

/-- A second exit of a task that has ended does nothing. -/
def Manager.onExit (m : Manager) (heap : Heap) (t : ℕ) (exit : RunnerExit) : Manager :=
  match heap[t]? with
  | none => m
  | some task =>
    if isTerminalStatus task.status then m
    else m.push [.settle t (if exit.ok then .succeeded else .failed) exit]

def Manager.callback (m : Manager) (heap : Heap) (t : ℕ) (answers : Answers) :
    Callback → Heap × Manager
  | .output chunk => m.onOutput heap t chunk answers
  | .inputRequest request => m.enterAwaitingInput heap t request answers.now answers
  | .inputWaitDetected => m.onInputWaitDetected heap t answers
  | .exit exit => (heap, m.onExit heap t exit)

/-! ## Working off a frame -/

/-- What a frame asks of the outside. -/
inductive Request where
  | none
  /-- `runner.start` is called for the task. -/
  | runnerStart (task : ℕ) (taskId : String)
  /-- The sink writes. -/
  | recordStart (taskId : String) (category : BackgroundCategory) (sideEffectId : String)
  | recordStarted (sideEffectId : String)
  | recordSettled (sideEffectId taskId : String) (ok : Bool)
deriving DecidableEq, Repr

/-- Work off the frame on top. The manager that is returned is the one after the request was
answered, and `throws` applies to it if it was answered by an exception. -/
def Manager.work (m : Manager) (heap : Heap) (answers : Answers) : Request × Heap × Manager :=
  match m.stack with
  | .recordStart t :: _ =>
    match heap[t]? with
    | none => (.none, heap, m.pop)
    | some task =>
      (.recordStart task.id task.category (answers.ids 0), heap,
        { m with sideEffectIds := assign task.id (answers.ids 0) m.sideEffectIds }.pop)
  | .place t :: _ =>
    match heap[t]? with
    | none => (.none, heap, m.pop)
    | some task =>
      if task.placement = .background ∨ m.foregroundRunning heap < m.limit then
        (.none, heap, m.become [.launch t])
      else (.none, heap, { m with queue := m.queue ++ [task.id] }.pop)
  | .launch t :: _ =>
    match heap[t]? with
    | none => (.none, heap, m.pop)
    | some task =>
      (.runnerStart t task.id,
        heap.set t { task with status := .running, startedAt := some answers.now },
        m.become [.starting t])
  | .settle t status exit :: _ =>
    match heap[t]? with
    | none => (.none, heap, m.pop)
    | some task =>
      if isTerminalStatus task.status then (.none, heap, m.pop)
      else
        let kind := if status = .succeeded then .backgroundCompletion else .taskFailure
        (.none,
          heap.modify t fun task ↦
            { task with
              status := status, exit := some exit, endedAt := some answers.now, hasControl := false },
          (m.become [.recordStarted t, .recordSettled t (decide (status = .succeeded)),
            .conclude t]).notify task kind ("task " ++ task.id ++ " " ++ status.name) answers)
  | .recordStarted t :: _ =>
    match (heap[t]?).bind fun task ↦ m.sideEffectIds.lookup task.id with
    | none => (.none, heap, { m with stack := m.stack.drop 2 })
    | some sideEffectId => (.recordStarted sideEffectId, heap, m.pop)
  | .recordSettled t ok :: _ =>
    match heap[t]? with
    | none => (.none, heap, m.pop)
    | some task =>
      match m.sideEffectIds.lookup task.id with
      | none => (.none, heap, m.pop)
      | some sideEffectId => (.recordSettled sideEffectId task.id ok, heap, m.pop)
  | .conclude t :: _ =>
    (.none, heap.modify t fun task ↦ { task with waiters := 0 },
      match heap[t]? with
      | some task => if task.placement = .foreground then m.become [.admitNext] else m.pop
      | none => m.pop)
  | .admitNext :: _ =>
    match m.queue with
    | [] => (.none, heap, m.pop)
    | next :: rest =>
      if m.foregroundRunning heap < m.limit then
        match m.tasks.lookup next with
        | some t =>
          if (heap[t]?).map TaskRecord.status = some .queued then
            (.none, heap, { m with queue := rest }.push [.launch t])
          else (.none, heap, { m with queue := rest })
        | none => (.none, heap, { m with queue := rest })
      else (.none, heap, m.pop)
  -- The runner is called: it is for the runner to go on.
  | .starting _ :: _ | .steering _ :: _ | [] => (.none, heap, m)

/-- The runner returns from the call on top. `runner.start` returns the control of the run. -/
def Manager.runnerReturns (m : Manager) (heap : Heap) : Heap × Manager :=
  match m.stack with
  | .starting t :: _ => (heap.modify t fun task ↦ { task with hasControl := true }, m.pop)
  | .steering _ :: _ => (heap, m.pop)
  | _ => (heap, m)

/-- The runner throws from the call on top. -/
def Manager.runnerThrows (m : Manager) : Manager :=
  match m.stack with
  | .starting _ :: _ | .steering _ :: _ => m.pop.throws
  | _ => m

end QwenHarness.Background
