import QwenHarness.Effect.Program
import QwenHarness.Runtime.Budget
import QwenHarness.Runtime.Round
import QwenHarness.Storage.EventStore

/-!
# What the turn engine is given

The engine touches nothing itself. Everything outside is a parameter over a state `σ` of the
outside: each call may throw, may answer anything, and may change that state. Identifiers and the
cancellation signal are the two things that promise something: an identifier source never repeats
itself, and a signal that was seen aborted stays aborted.

Every call to the outside is recorded with its answer, together with the state of the outside and
of the turn just before it. A few marks are recorded as well, where a call of the model is taken
up, where a budget stops the turn, where the machine moves and where the conversation grows; they
have no effect and only give the statements something to speak about.
-/

namespace QwenHarness

open EventStore (AppendInput MayExecute)
open Effect

/-! ## Answers -/

inductive EvaluationStatus where
  | allow
  | ask
  | deny
deriving DecidableEq, Repr

def EvaluationStatus.outcome : EvaluationStatus → PolicyOutcome
  | .allow => .allow
  | .ask => .ask
  | .deny => .deny

/-- What policy says about a call, decided without executing anything. -/
structure ToolEvaluation where
  status : EvaluationStatus
  actionDigest : String
  description : String
  risk : ApprovalRisk
  reason : String
  source : String
deriving DecidableEq, Repr

structure ToolExecutionResult where
  ok : Bool
  modelText : String
  errorCategory : Option String
  resultDigest : Option String
  outputRef : Option String
  truncated : Bool
  durationMs : ℤ
deriving DecidableEq, Repr

/-- What a call will do, so that the engine can record it first. -/
structure ToolIntent where
  idempotencyKey : String
  destructive : Bool
  kind : SideEffectKind
  normalizedAction : String
deriving DecidableEq, Repr

/-- A pending approval: everything a human needs to decide. -/
structure ApprovalRequest where
  turnId : String
  callId : String
  toolName : String
  arguments : Arguments
  argumentsJson : String
  actionDigest : String
  description : String
  risk : ApprovalRisk
  reason : String
deriving Repr

inductive ApprovalDecision where
  | approved (scope : ApprovalScope)
  | denied (reason : String)
  | deferred (reason : String)
deriving DecidableEq, Repr

/-- The answer of the hooks that gate a call. -/
structure HookGate where
  blocked : Bool
  reason : Option String
deriving DecidableEq, Repr

/-- A lifecycle event, with its data. -/
inductive LifecycleEvent where
  | queuedNotifications (count : ℕ)
  | postToolBatch (tools : ℕ)
  | postCompact (trigger : Option CompactionTrigger)
  | permissionDenied (toolName reason : String)
  | permissionRequest (toolName : String) (risk : ApprovalRisk)
  | stopFailure (state : TurnState) (reason : TerminationReason)
  | stop (state : TurnState) (reason : TerminationReason)
deriving DecidableEq, Repr

structure ContextPreparation where
  items : List ModelInputItem
  compacted : Bool
  trigger : Option CompactionTrigger
deriving DecidableEq, Repr

/-! ## The parameters -/

/-- A call to the outside. -/
abbrev Call (σ α : Type) := σ → Except Thrown α × σ

structure EventSink (σ : Type) where
  append : AppendInput → Call σ Unit
  mayExecute : String → σ → MayExecute

structure ToolExecutor (σ : Type) where
  evaluate : (callId toolName : String) → Arguments → Call σ ToolEvaluation
  execute : NormalizedToolCall → Call σ ToolExecutionResult
  intentFor : (toolName : String) → Arguments → Call σ ToolIntent
  planBatches : Option (List NormalizedToolCall → Call σ (List (List String)))

structure TurnHooks (σ : Type) where
  preToolUse : (toolName : String) → Arguments → Call σ HookGate
  /-- Whether the turn should not go back to the model. -/
  postToolUse : (toolName : String) → (ok : Bool) → Call σ Bool
  fireLifecycle : Option (LifecycleEvent → Call σ Unit)

/-- Identifiers by the number of draws before. -/
structure IdSource where
  next : ℕ → (kind : String) → String
  fresh : ∀ kind, Function.Injective fun n ↦ next n kind

structure TurnEngineDeps (σ : Type) where
  /-- The whole stream of one request, or what it threw. -/
  stream : ModelRequest → Call σ (List ProviderStreamEvent)
  tools : ToolExecutor σ
  sink : EventSink σ
  ids : IdSource
  now : σ → ℤ × σ
  sleep : ℤ → Call σ Unit
  /-- Whether the signal is aborted. -/
  aborted : σ → Bool × σ
  budget : BudgetLimits
  rng : σ → ℚ × σ
  retryPolicy : RetryPolicy
  hooks : Option (TurnHooks σ)
  approvals : Option (ApprovalRequest → Call σ ApprovalDecision)
  context : Option (List ModelInputItem → Call σ ContextPreparation)
  /-- The summaries of what was queued while the user was away. -/
  notifications : Option (σ → List String × σ)

/-! ## What is recorded -/

inductive Obs where
  | signal (aborted : Bool)
  | append (input : AppendInput) (answer : Except Thrown Unit)
  | preToolUse (call : NormalizedToolCall) (answer : Except Thrown HookGate)
  | evaluate (call : NormalizedToolCall) (answer : Except Thrown ToolEvaluation)
  | requestApproval (request : ApprovalRequest) (answer : Except Thrown ApprovalDecision)
  | lifecycle (event : LifecycleEvent) (answer : Except Thrown Unit)
  | intentFor (call : NormalizedToolCall) (answer : Except Thrown ToolIntent)
  | mayExecute (key : String) (answer : MayExecute)
  | execute (sideEffectId : String) (call : NormalizedToolCall)
      (answer : Except Thrown ToolExecutionResult)
  | postToolUse (call : NormalizedToolCall) (answer : Except Thrown Bool)
  | planBatches (calls : List NormalizedToolCall) (answer : Except Thrown (List (List String)))
  | prepare (conversation : List ModelInputItem) (answer : Except Thrown ContextPreparation)
  | stream (request : ModelRequest) (answer : Except Thrown (List ProviderStreamEvent))
  | sleep (ms : ℤ) (answer : Except Thrown Unit)
  -- Marks.
  | takeUp (call : NormalizedToolCall)
  | takeUpBatch (calls : List NormalizedToolCall)
  | budgetStop (reason : TerminationReason)
  | moved (target : TurnState)
  | said (items : List ModelInputItem)
  | adopted (items : List ModelInputItem)
deriving Repr

/-- What was recorded, with the state of the outside and of the turn before it. -/
structure Entry (σ : Type) where
  env : σ
  state : TurnState
  obs : Obs

/-- The turn as the engine holds it in memory. -/
structure Turn where
  machine : TurnMachine
  budget : BudgetTracker
  conversation : List ModelInputItem
  rounds : ℕ
  finalText : String
  terminalReason : Option TerminationReason
  pendingApproval : Option ApprovalRequest
deriving Repr

structure World (σ : Type) where
  env : σ
  /-- How many identifiers were drawn. -/
  drawn : ℕ
  /-- Whether the signal was seen aborted. -/
  aborted : Bool
  turn : Turn
  trace : List (Entry σ)

abbrev Engine (σ : Type) := EStateM Thrown (World σ)

/-! ## Steps of the engine -/

namespace World

variable {σ : Type}

/-- Record something. -/
def record (w : World σ) (obs : Obs) : World σ :=
  { w with trace := w.trace ++ [⟨w.env, w.turn.machine.state, obs⟩] }

@[simp] theorem trace_record (w : World σ) (obs : Obs) :
    (w.record obs).trace = w.trace ++ [⟨w.env, w.turn.machine.state, obs⟩] := rfl

@[simp] theorem env_record (w : World σ) (obs : Obs) : (w.record obs).env = w.env := rfl

@[simp] theorem drawn_record (w : World σ) (obs : Obs) : (w.record obs).drawn = w.drawn := rfl

@[simp] theorem aborted_record (w : World σ) (obs : Obs) :
    (w.record obs).aborted = w.aborted := rfl

@[simp] theorem turn_record (w : World σ) (obs : Obs) : (w.record obs).turn = w.turn := rfl

end World

section Steps

variable {σ α : Type}

/-- Call the outside and record the call with its answer. -/
def ask (obs : Except Thrown α → Obs) (call : Call σ α) : Engine σ α := fun w ↦
  let (answer, env) := call w.env
  let w' := { w.record (obs answer) with env }
  match answer with
  | .ok a => .ok a w'
  | .error e => .error e w'

/-- Record a mark. -/
def note (obs : Obs) : Engine σ Unit := fun w ↦ .ok () (w.record obs)

/-- Read from the outside something that cannot fail and is not recorded. -/
def read (call : σ → α × σ) : Engine σ α := fun w ↦ .ok (call w.env).1 { w with env := (call w.env).2 }

/-- Whether the turn is cancelled. -/
def signalAborted (deps : TurnEngineDeps σ) : Engine σ Bool := fun w ↦
  if w.aborted then .ok true (w.record (.signal true))
  else
    let (aborted, env) := deps.aborted w.env
    .ok aborted { w.record (.signal aborted) with env, aborted }

def draw (deps : TurnEngineDeps σ) (kind : String) : Engine σ String := fun w ↦
  .ok (deps.ids.next w.drawn kind) { w with drawn := w.drawn + 1 }

/-- Change the turn's own records. -/
def modifyTurn (f : Turn → Turn) : Engine σ Unit := fun w ↦ .ok () { w with turn := f w.turn }

/-- Put something to the budget. -/
def useBudget (f : BudgetTracker → BudgetVerdict × BudgetTracker) : Engine σ BudgetVerdict := fun w ↦
  let (verdict, budget) := f w.turn.budget
  .ok verdict { w with turn := { w.turn with budget } }

/-- Add to the end of the conversation. -/
def say (items : List ModelInputItem) : Engine σ Unit := fun w ↦
  .ok () { w.record (.said items) with
    turn := { w.turn with conversation := w.turn.conversation ++ items } }

/-- Replace the conversation. -/
def adopt (items : List ModelInputItem) : Engine σ Unit := fun w ↦
  .ok () { w.record (.adopted items) with turn := { w.turn with conversation := items } }

/-- Take a step of the machine, or throw where it is illegal. -/
def moveMachine (f : TurnMachine → Except Thrown TurnMachine) : Engine σ Unit := fun w ↦
  match f w.turn.machine with
  | .ok machine =>
    .ok () { w.record (.moved machine.state) with turn := { w.turn with machine } }
  | .error e => .error e w

end Steps

end QwenHarness
