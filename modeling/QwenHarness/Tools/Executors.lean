import QwenHarness.Runtime.Environment
import QwenHarness.Tools.Pipeline

/-!
# The executors of a run

A call is dispatched by its name: to a tool that runs in this process, to a server, or to the
pipeline of the built-in tools. An executor is cut where it waits for the outside. Its first part
decides, and either has its result or leaves a request; its second part takes the answer. Other
calls run in between.

How a result is put in words depends on nothing that is decided here, so the wording is a parameter.
-/

namespace QwenHarness.Tools

open Codec Policy

/-! ## Results -/

/-- What the worker answers to any of its tools. -/
inductive ToolResponse (β : Type) where
  | done (result : β)
  | failed (category message : String)

/-- How an executor puts things in words. -/
structure Wording (β : Type) where
  summarizeResult : (toolName : String) → β → String
  /-- The text of a server, made safe and cut to size, and whether it was cut. -/
  offloadLargeOutput : String → String × Bool
  /-- The first code units of a text. -/
  slice : ℕ → String → String
  /-- What is wrong with the arguments of a tool of this process. -/
  problem : (toolName : String) → Arguments → String

def failure (category message : String) (durationMs : ℤ) : ToolExecutionResult where
  ok := false
  modelText := message
  errorCategory := some category
  resultDigest := none
  outputRef := none
  truncated := false
  durationMs := durationMs

/-- Where the first part of an executor ends. -/
inductive Begun (φ : Type) where
  /-- Nothing was done. -/
  | refused (result : ToolExecutionResult)
  /-- It was done at once. -/
  | done (result : ToolExecutionResult)
  | waiting (flight : φ)

/-! ## The built-in tools -/

def RejectionStage.name : RejectionStage → String
  | .schema => "schema"
  | .semantic => "semantic"
  | .unknownTool => "unknown-tool"

/-- A call at the worker. -/
structure WorkerFlight (ρ γ : Type) where
  toolName : String
  action : NormalizedAction
  actionDigest : String
  input : WorkerInput ρ γ
  start : ℤ

section Pipeline

variable {ι ρ γ ω ε σ β : Type}

/-- `pipelineExecutor.execute` as far as the worker. -/
def beginPipeline (pipeline : ToolPipeline Arguments ι ρ γ ω ε σ) (grant : γ)
    (isolation : IsolationMode) (ctx : PolicyContext) (start later : ℤ)
    (call : NormalizedToolCall) : Begun (WorkerFlight ρ γ) :=
  let durationMs := later - start
  match pipeline.judge ⟨call.callId, call.toolName, call.arguments, ctx⟩ with
  | .rejected stage message =>
    .refused (failure "rejected" ("rejected (" ++ stage.name ++ "): " ++ message) durationMs)
  | .denied reason _ => .refused (failure "denied" ("denied: " ++ reason) durationMs)
  | .needsApproval _ description _ _ _ =>
    .refused (failure "needs-approval" ("needs approval: " ++ description) durationMs)
  | .approved action actionDigest _ _ _ tool arguments =>
    .waiting ⟨call.toolName, action, actionDigest,
      ⟨ctx.workspaceRoot, isolation, grant, tool.toWorkerRequest arguments⟩, start⟩

/-- The rest of it. A `once` grant for the action is spent when the worker has answered. A throw of
the worker goes through. -/
def finishPipeline (wording : Wording β) (flight : WorkerFlight ρ γ)
    (answer : Except Thrown (ToolResponse β)) (later now : ℤ) (store : GrantStore) :
    Except Thrown ToolExecutionResult × GrantStore :=
  let durationMs := later - flight.start
  match answer with
  | .error e => (.error e, store)
  | .ok response =>
    (.ok (match response with
      | .failed category message => failure category (category ++ ": " ++ message) durationMs
      | .done result =>
        { ok := true
          modelText := wording.summarizeResult flight.toolName result
          errorCategory := none
          resultDigest := some flight.actionDigest
          outputRef := none
          truncated := false
          durationMs }),
      store.consume flight.actionDigest now)

end Pipeline

/-! ## The tools of the servers -/

/-- What a server says about its tool. Hints, which relax nothing. -/
structure AnnotationHints where
  readOnlyHint : Option Bool
  destructiveHint : Option Bool
  idempotentHint : Option Bool
  openWorldHint : Option Bool
deriving DecidableEq, Repr

structure ToolAnnotations where
  readOnly : Bool
  destructive : Bool
  idempotent : Bool
  openWorld : Bool
deriving DecidableEq, Repr

structure McpTool where
  name : String
  inputSchema : Option (List (String × Value))
  annotations : Option AnnotationHints

def classifyAnnotations (mcpTool : McpTool) : ToolAnnotations :=
  let hint := mcpTool.annotations.getD ⟨none, none, none, none⟩
  { readOnly := decide (hint.readOnlyHint = some true)
    destructive := decide (hint.destructiveHint = some true)
    idempotent := decide (hint.idempotentHint = some true)
    openWorld := decide (hint.openWorldHint ≠ some false) }

/-- The keys every object answers to, whether it has them or not. -/
def inheritedKeys : List String :=
  ["__defineGetter__", "__defineSetter__", "hasOwnProperty", "__lookupGetter__",
    "__lookupSetter__", "isPrototypeOf", "propertyIsEnumerable", "toString", "valueOf",
    "__proto__", "constructor", "toLocaleString"]

/-- The names a server's schema requires. Anything else in it is not looked at. -/
def requiredFields (raw : List (String × Value)) : List String :=
  match raw.lookup "required" with
  | some (.arr keys) => keys.filterMap fun
    | .str key => some key
    | _ => none
  | _ => []

def mcpInputSchema (mcpTool : McpTool) (args : Arguments) : Except String Arguments :=
  let required := (mcpTool.inputSchema.map requiredFields).getD []
  if required.all fun key ↦ (args.lookup key).isSome || decide (key ∈ inheritedKeys) then .ok args
  else .error ("(root): missing required field(s): " ++ ", ".intercalate required)

def mcpToolDefinition (mcpTool : McpTool) : ToolDefinition Arguments Arguments where
  inputSchema := mcpInputSchema mcpTool
  validate _ := none

structure Bound where
  server : String
  tool : McpTool

def sideEffectOf (bound : Bound) : Bool := !(classifyAnnotations bound.tool).readOnly

/-- The servers' tools by the name the model sees, and the functions on text the runtime supplies. -/
structure McpExecutor where
  sys : Platform
  /-- The arguments as JSON with the keys sorted. -/
  canonicalJson : Arguments → String
  tools : List (String × Bound)

namespace McpExecutor

variable (x : McpExecutor)

def byName (toolName : String) : Option Bound := x.tools.lookup toolName

def mcpActionFor (server tool : String) (args : Arguments) (sideEffect : Bool) : NormalizedAction :=
  .mcp server tool sideEffect (x.sys.sha256 (x.canonicalJson args))

end McpExecutor

/-- A call at a server. -/
structure ServerFlight where
  bound : Bound
  action : NormalizedAction
  /-- The arguments as the model gave them. -/
  rawArguments : Arguments
  args : Arguments
  start : ℤ

def ValidationCategory.name : ValidationCategory → String
  | .invalidInput => "invalid-input"
  | .semanticInvalid => "semantic-invalid"

/-- `mcpExecutor.execute` as far as the server: policy is asked again, and nobody is there to be
asked for an approval. -/
def McpExecutor.begin (x : McpExecutor) (ctx : PolicyContext) (start later : ℤ)
    (call : NormalizedToolCall) : Begun ServerFlight :=
  let durationMs := later - start
  match x.byName call.toolName with
  | none =>
    .refused (failure "denied" ("no connected MCP server exposes '" ++ call.toolName ++ "'")
      durationMs)
  | some bound =>
    match validateCall (mcpToolDefinition bound.tool) call.arguments with
    | .error problem => .refused (failure problem.category.name problem.message durationMs)
    | .ok args =>
      let action := x.mcpActionFor bound.server bound.tool.name args (sideEffectOf bound)
      let decision := evaluate x.sys action ctx
      match decision.outcome with
      | .deny =>
        .refused (failure "policy-denied"
          ("policy denied " ++ decision.description ++ ": " ++ decision.reason) durationMs)
      | .ask =>
        .refused (failure "permission-denied"
          ("approval required and not granted for " ++ decision.description) durationMs)
      | _ => .waiting ⟨bound, action, call.arguments, args, start⟩

/-! ## The tools of this process -/

def inProcessToolNames : List String := ["retrieve_output", "ask_user", "delegate"]

def maxRetrieveChars : ℕ := 200000

def retrieveInput : Schema String := .object (Fields.field "ref" (boundedText 1 512))

def askInput : Schema String := .object (Fields.field "question" (boundedText 1 4000))

inductive DelegateContext where
  | fresh
  | forked
deriving DecidableEq, Repr

inductive DelegateTiming where
  | foreground
  | background
deriving DecidableEq, Repr

structure DelegateInput where
  label : String
  prompt : String
  context : DelegateContext
  timing : DelegateTiming
deriving DecidableEq, Repr

/-- One of two words, or the first of them where there is none. -/
def choice {δ : Type} (args : Arguments) (key first second : String) (a b : δ) : Option δ :=
  match args.lookup key with
  | none => some a
  | some (.str s) => if s = first then some a else if s = second then some b else none
  | some _ => none

def delegateInput (args : Arguments) : Option DelegateInput := do
  let label ← (Fields.field "label" (boundedText 1 200)).dec (args.lookup ·)
  let prompt ← (Fields.field "prompt" (boundedText 1 20000)).dec (args.lookup ·)
  let context ← choice args "context" "fresh" "forked" DelegateContext.fresh .forked
  let timing ← choice args "timing" "foreground" "background" DelegateTiming.foreground .background
  return ⟨label, prompt, context, timing⟩

structure InProcessExecutor where
  sys : Platform
  workspaceRoot : String
  /-- The arguments as JSON. -/
  stringify : Arguments → String
  readBlob : String → Option String
  /-- Whether subagents can be started at all. -/
  delegates : Bool

/-- What a tool of this process waits for. -/
inductive InProcessFlight where
  | askUser (question : String) (start : ℤ)
  | delegate (input : DelegateInput) (start : ℤ)

namespace InProcessExecutor

variable (x : InProcessExecutor)

/-- What policy is asked about: a write of the workspace for a subagent, a read of it otherwise. -/
def actionOf (call : NormalizedToolCall) : NormalizedAction :=
  if call.toolName = "delegate" then
    .fileWrite x.workspaceRoot false (x.sys.sha256 (x.stringify call.arguments))
  else .fileRead x.workspaceRoot

def riskFor : DecisionOutcome → ApprovalRisk
  | .deny => .high
  | .ask => .medium
  | _ => .low

def evaluationStatus : DecisionOutcome → EvaluationStatus
  | .deny => .deny
  | .ask => .ask
  | _ => .allow

/-- `inProcessExecutor.evaluate`. The engine calls it before `execute`. -/
def evaluate (ctx : PolicyContext) (call : NormalizedToolCall) : ToolEvaluation :=
  let decision := Policy.evaluate x.sys (x.actionOf call) ctx
  { status := evaluationStatus decision.outcome
    actionDigest := decision.actionDigest
    description := call.toolName
    risk := riskFor decision.outcome
    reason := decision.reason
    source := DecisionStage.name decision.source.stage ++ ":" ++ decision.source.id }

def invalid {β : Type} (wording : Wording β) (call : NormalizedToolCall) (durationMs : ℤ) :
    Begun InProcessFlight :=
  .refused (failure "invalid-input"
    ("invalid " ++ call.toolName ++ " arguments: " ++ wording.problem call.toolName call.arguments)
    durationMs)

def retrieveOutput {β : Type} (wording : Wording β) (ref : String) (durationMs : ℤ) :
    ToolExecutionResult :=
  match x.readBlob ref with
  | none =>
    failure "not-found" ("no offloaded output found for reference '" ++ ref ++ "'") durationMs
  | some content =>
    let truncated := decide (maxRetrieveChars < utf16Length content)
    { ok := true
      modelText := if truncated then
          wording.slice maxRetrieveChars content ++ "\n\n[retrieve_output: truncated to " ++
            toString maxRetrieveChars ++ " chars]"
        else content
      errorCategory := none
      resultDigest := none
      outputRef := some ref
      truncated
      durationMs }

/-- `inProcessExecutor.execute` as far as the user or the subagent. Policy is not asked. -/
def begin {β : Type} (wording : Wording β) (start later : ℤ) (call : NormalizedToolCall) :
    Begun InProcessFlight :=
  let durationMs := later - start
  if call.toolName = "retrieve_output" then
    match retrieveInput.dec (.obj call.arguments) with
    | none => invalid wording call durationMs
    | some ref => .done (x.retrieveOutput wording ref durationMs)
  else if call.toolName = "ask_user" then
    match askInput.dec (.obj call.arguments) with
    | none => invalid wording call durationMs
    | some question => .waiting (.askUser question start)
  else if call.toolName = "delegate" then
    if x.delegates then
      match delegateInput call.arguments with
      | none => invalid wording call durationMs
      | some input => .waiting (.delegate input start)
    else
      .refused (failure "unsupported" "subagent delegation is not available in this run" durationMs)
  else
    .refused (failure "unsupported"
      ("the in-process executor does not handle '" ++ call.toolName ++ "'") durationMs)

end InProcessExecutor

/-! ## The composite -/

inductive Route where
  | inProcess
  | mcp
  | builtin
deriving DecidableEq, Repr

/-- The executors of one run. The last two may be missing. -/
structure Executors (ι ρ γ ω ε σ β : Type) where
  wording : Wording β
  pipeline : ToolPipeline Arguments ι ρ γ ω ε σ
  grant : γ
  isolation : IsolationMode
  mcp : Option McpExecutor
  inProcess : Option InProcessExecutor

/-- A call that has been started and waits. -/
inductive Flight (ρ γ : Type) where
  | worker (flight : WorkerFlight ρ γ)
  | server (x : McpExecutor) (flight : ServerFlight)
  | inProcess (flight : InProcessFlight)

def Begun.map {φ ψ : Type} (f : φ → ψ) : Begun φ → Begun ψ
  | .refused result => .refused result
  | .done result => .done result
  | .waiting flight => .waiting (f flight)

def mcpPrefix : String := "mcp__"

namespace Executors

variable {ι ρ γ ω ε σ β : Type} (x : Executors ι ρ γ ω ε σ β)

def isInProcess (toolName : String) : Bool :=
  x.inProcess.isSome && decide (toolName ∈ inProcessToolNames)

def isMcp (toolName : String) : Bool :=
  decide (mcpPrefix.toList <+: toolName.toList) &&
    x.mcp.any fun mcp ↦ mcp.tools.any fun t ↦ decide (t.1 = toolName)

/-- The executor a name belongs to. What is in the closed list comes first. -/
def pick (toolName : String) : Route :=
  if x.isInProcess toolName then .inProcess
  else if x.isMcp toolName then .mcp
  else .builtin

/-- `compositeExecutor.execute` as far as it waits. -/
def begin (ctx : PolicyContext) (start later : ℤ) (call : NormalizedToolCall) :
    Begun (Flight ρ γ) :=
  match x.pick call.toolName, x.inProcess, x.mcp with
  | .inProcess, some inProcess, _ =>
    (inProcess.begin x.wording start later call).map .inProcess
  | .mcp, _, some mcp => (mcp.begin ctx start later call).map (.server mcp)
  | _, _, _ =>
    (beginPipeline x.pipeline x.grant x.isolation ctx start later call).map .worker

end Executors

end QwenHarness.Tools
