import QwenHarness.Policy.Managed
import QwenHarness.Table.Pick

/-!
# Resolution of layered configuration

Every scope contributes a partial document. An ordinary value is taken from the document of the
highest scope that sets it; the managed scope is not on that ladder. A ceiling is the tightest value
of any scope, the managed one included, and bounds the authority value it belongs to after that
value has been resolved. Deny entries are the union over all scopes.

Each loop is written as the scan of the source is, and shown to be the scan of `Pick` over what the
sources set.
-/

namespace QwenHarness.Config

/-! ## Documents and sources -/

inductive ReasoningEffort where
  | none
  | low
  | medium
  | high
deriving DecidableEq, Repr

inductive Transport where
  | responses
  | chat
deriving DecidableEq, Repr

inductive TelemetryLevel where
  | debug
  | info
  | warn
  | error
deriving DecidableEq, Repr

structure Budgets where
  turnsPerGoal : Option ℕ
  modelCallsPerTurn : Option ℕ
  toolCallsPerTurn : Option ℕ
  wallTimeMsPerTurn : Option ℕ
  activeChildAgents : Option ℕ
  childDepth : Option ℕ
  safeReadConcurrency : Option ℕ
  retryAttempts : Option ℕ
deriving DecidableEq, Repr

structure ToolOutput where
  modelPreviewBytes : Option ℕ
  tuiInlineBytes : Option ℕ
  backgroundWarnBytes : Option ℕ
  backgroundHardStopBytes : Option ℕ
  mcpInlineTokens : Option ℕ
  mcpDurableChars : Option ℕ
deriving DecidableEq, Repr

structure Telemetry where
  enabled : Bool
  level : Option TelemetryLevel
  retentionDays : Option ℕ
deriving DecidableEq, Repr

/-- A validated partial document. -/
structure ConfigDoc where
  model : Option String
  baseUrl : Option String
  apiKeyEnv : Option String
  reasoningEffort : Option ReasoningEffort
  transport : Option Transport
  budgets : Option Budgets
  toolOutput : Option ToolOutput
  telemetry : Option Telemetry
  permissionProfile : Option PermissionProfile
  isolation : Option IsolationMode
  network : Option Bool
  maxProfile : Option PermissionProfile
  maxIsolation : Option IsolationMode
  networkAllowed : Option Bool
  deny : Option (List String)
deriving DecidableEq, Repr

/-- The document that sets nothing. -/
def ConfigDoc.empty : ConfigDoc :=
  ⟨none, none, none, none, none, none, none, none, none, none, none, none, none, none, none⟩

inductive ConfigScope where
  | managed
  | builtin
  | user
  | sharedProject
  | localProject
  | env
  | cli
deriving DecidableEq, Repr

/-- The precedence of a scope. The managed scope has none: it is a ceiling. -/
def ConfigScope.overrideRank : ConfigScope → Option ℕ
  | .managed => none
  | .builtin => some 0
  | .user => some 1
  | .sharedProject => some 2
  | .localProject => some 3
  | .env => some 4
  | .cli => some 5

/-- Where a document was read from. -/
inductive ConfigOrigin where
  | file (path : String)
  | env
  | cli
  | builtin
deriving DecidableEq, Repr

structure ConfigSource where
  id : String
  scope : ConfigScope
  config : ConfigDoc
  origin : ConfigOrigin
deriving DecidableEq, Repr

/-- The stamp on a resolved value: its source without the document. -/
structure ConfigSourceRef where
  id : String
  scope : ConfigScope
  origin : ConfigOrigin
deriving DecidableEq, Repr

def sourceRef (source : ConfigSource) : ConfigSourceRef := ⟨source.id, source.scope, source.origin⟩

def builtinDefaults : ConfigDoc where
  model := some "qwen3.7-max"
  baseUrl := some "https://dashscope.aliyuncs.com/compatible-mode/v1"
  apiKeyEnv := some "DASHSCOPE_API_KEY"
  reasoningEffort := some .medium
  transport := some .responses
  budgets := some {
    turnsPerGoal := some 200
    modelCallsPerTurn := some 100
    toolCallsPerTurn := some 1000
    wallTimeMsPerTurn := some (8 * 60 * 60 * 1000)
    activeChildAgents := some 4
    childDepth := some 2
    safeReadConcurrency := some 8
    retryAttempts := some 10 }
  toolOutput := some {
    modelPreviewBytes := some (64 * 1024)
    tuiInlineBytes := some (1 * 1024 * 1024)
    backgroundWarnBytes := some (10 * 1024 * 1024)
    backgroundHardStopBytes := some (5 * 1024 * 1024 * 1024)
    mcpInlineTokens := some 25000
    mcpDurableChars := some 500000 }
  telemetry := some ⟨false, some .info, some 7⟩
  permissionProfile := some .ask
  isolation := some .workspaceWrite
  network := some false
  maxProfile := some .yolo
  maxIsolation := some .disabled
  networkAllowed := some true
  deny := some []

def builtinSource : ConfigSource := ⟨"builtin", .builtin, builtinDefaults, .builtin⟩

/-! ## What is resolved -/

/-- An effective value and the source it is from. -/
structure Resolved (α : Type) where
  value : α
  source : ConfigSourceRef
deriving DecidableEq, Repr

structure DenyContribution where
  value : String
  source : ConfigSourceRef
deriving DecidableEq, Repr

structure ResolvedDeny where
  value : List String
  contributions : List DenyContribution
deriving DecidableEq, Repr

structure ResolvedBudgets where
  turnsPerGoal : Resolved ℕ
  modelCallsPerTurn : Resolved ℕ
  toolCallsPerTurn : Resolved ℕ
  wallTimeMsPerTurn : Resolved ℕ
  activeChildAgents : Resolved ℕ
  childDepth : Resolved ℕ
  safeReadConcurrency : Resolved ℕ
  retryAttempts : Resolved ℕ
deriving DecidableEq, Repr

structure ResolvedToolOutput where
  modelPreviewBytes : Resolved ℕ
  tuiInlineBytes : Resolved ℕ
  backgroundWarnBytes : Resolved ℕ
  backgroundHardStopBytes : Resolved ℕ
  mcpInlineTokens : Resolved ℕ
  mcpDurableChars : Resolved ℕ
deriving DecidableEq, Repr

structure ResolvedConfig where
  model : Resolved String
  baseUrl : Resolved String
  apiKeyEnv : Resolved String
  reasoningEffort : Resolved ReasoningEffort
  transport : Resolved Transport
  telemetry : Resolved Bool
  telemetryLevel : Resolved TelemetryLevel
  telemetryRetentionDays : Resolved ℕ
  budgets : ResolvedBudgets
  toolOutput : ResolvedToolOutput
  permissionProfile : Resolved PermissionProfile
  isolation : Resolved IsolationMode
  network : Resolved Bool
  maxProfile : Resolved PermissionProfile
  maxIsolation : Resolved IsolationMode
  networkAllowed : Resolved Bool
  deny : ResolvedDeny
deriving DecidableEq, Repr

/-- Only a field without a default is an error, never what a user wrote. -/
structure ConfigResolutionError where
  message : String
deriving DecidableEq, Repr

/-! ## The loops -/

section Loops

variable {α : Type} (sources : List ConfigSource) (key : String) (select : ConfigDoc → Option α)

/-- The best so far of a loop: a value, its source, and the number that decides. -/
structure Best (α : Type) where
  value : α
  source : ConfigSource
  measure : ℕ

def Best.resolved (best : Best α) : Resolved α := ⟨best.value, sourceRef best.source⟩

/-- The highest scope that sets the value wins; of equal ones, the later. -/
def resolveOverride : Except ConfigResolutionError (Resolved α) :=
  let best := sources.foldl (fun (best : Option (Best α)) source ↦
    match source.scope.overrideRank with
    | none => best
    | some rank =>
      match select source.config, best with
      | none, best => best
      | some value, none => some ⟨value, source, rank⟩
      | some value, some b => if b.measure ≤ rank then some ⟨value, source, rank⟩ else some b) none
  match best with
  | none => .error ⟨s!"no source (not even builtin) provides '{key}'"⟩
  | some b => .ok b.resolved

/-- The tightest value wins; of equal ones, the first. -/
def resolveCeiling (tightnessOf : α → ℕ) : Except ConfigResolutionError (Resolved α) :=
  let best := sources.foldl (fun (best : Option (Best α)) source ↦
    match select source.config, best with
    | none, best => best
    | some value, none => some ⟨value, source, tightnessOf value⟩
    | some value, some b =>
      if tightnessOf value < b.measure then some ⟨value, source, tightnessOf value⟩
      else some b) none
  match best with
  | none => .error ⟨s!"no source (not even builtin) provides ceiling '{key}'"⟩
  | some b => .ok b.resolved

/-- The union of the deny entries, and for every entry the sources that have it. -/
def resolveDeny : ResolvedDeny :=
  let contributions := sources.flatMap fun source ↦
    (source.config.deny.getD []).map fun entry ↦ DenyContribution.mk entry (sourceRef source)
  ⟨Keyed.firsts id [] (contributions.map DenyContribution.value), contributions⟩

/-- The ceiling and its source, where it is tighter than what is desired. -/
def clamp (desired ceiling : Resolved α) (tightnessOf : α → ℕ) : Resolved α :=
  if tightnessOf ceiling.value < tightnessOf desired.value then ceiling else desired

end Loops

/-- Denying is tighter than allowing. -/
def boolTightness (value : Bool) : ℕ := if value then 1 else 0

def resolveBudgets (all : List ConfigSource) : Except ConfigResolutionError ResolvedBudgets := do
  let of (key : String) (select : Budgets → Option ℕ) :=
    resolveOverride all key fun d ↦ d.budgets.bind select
  return {
    turnsPerGoal := ← of "budgets.turnsPerGoal" Budgets.turnsPerGoal
    modelCallsPerTurn := ← of "budgets.modelCallsPerTurn" Budgets.modelCallsPerTurn
    toolCallsPerTurn := ← of "budgets.toolCallsPerTurn" Budgets.toolCallsPerTurn
    wallTimeMsPerTurn := ← of "budgets.wallTimeMsPerTurn" Budgets.wallTimeMsPerTurn
    activeChildAgents := ← of "budgets.activeChildAgents" Budgets.activeChildAgents
    childDepth := ← of "budgets.childDepth" Budgets.childDepth
    safeReadConcurrency := ← of "budgets.safeReadConcurrency" Budgets.safeReadConcurrency
    retryAttempts := ← of "budgets.retryAttempts" Budgets.retryAttempts }

def resolveToolOutput (all : List ConfigSource) :
    Except ConfigResolutionError ResolvedToolOutput := do
  let of (key : String) (select : ToolOutput → Option ℕ) :=
    resolveOverride all key fun d ↦ d.toolOutput.bind select
  return {
    modelPreviewBytes := ← of "toolOutput.modelPreviewBytes" ToolOutput.modelPreviewBytes
    tuiInlineBytes := ← of "toolOutput.tuiInlineBytes" ToolOutput.tuiInlineBytes
    backgroundWarnBytes := ← of "toolOutput.backgroundWarnBytes" ToolOutput.backgroundWarnBytes
    backgroundHardStopBytes :=
      ← of "toolOutput.backgroundHardStopBytes" ToolOutput.backgroundHardStopBytes
    mcpInlineTokens := ← of "toolOutput.mcpInlineTokens" ToolOutput.mcpInlineTokens
    mcpDurableChars := ← of "toolOutput.mcpDurableChars" ToolOutput.mcpDurableChars }

/-- Resolve the sources, with the built-in layer beneath them. -/
def resolveConfig (sources : List ConfigSource) : Except ConfigResolutionError ResolvedConfig := do
  let all := builtinSource :: sources
  let maxProfile ← resolveCeiling all "maxProfile" ConfigDoc.maxProfile PermissionProfile.rank
  let maxIsolation ← resolveCeiling all "maxIsolation" ConfigDoc.maxIsolation IsolationMode.rank
  let networkAllowed ←
    resolveCeiling all "networkAllowed" ConfigDoc.networkAllowed boolTightness
  let desiredProfile ← resolveOverride all "permissionProfile" ConfigDoc.permissionProfile
  let desiredIsolation ← resolveOverride all "isolation" ConfigDoc.isolation
  let desiredNetwork ← resolveOverride all "network" ConfigDoc.network
  let network : Resolved Bool :=
    if desiredNetwork.value && !networkAllowed.value then ⟨false, networkAllowed.source⟩
    else ⟨desiredNetwork.value && networkAllowed.value, desiredNetwork.source⟩
  return {
    model := ← resolveOverride all "model" ConfigDoc.model
    baseUrl := ← resolveOverride all "baseUrl" ConfigDoc.baseUrl
    apiKeyEnv := ← resolveOverride all "apiKeyEnv" ConfigDoc.apiKeyEnv
    reasoningEffort := ← resolveOverride all "reasoningEffort" ConfigDoc.reasoningEffort
    transport := ← resolveOverride all "transport" ConfigDoc.transport
    telemetry := ← resolveOverride all "telemetry" fun d ↦ d.telemetry.map Telemetry.enabled
    telemetryLevel :=
      ← resolveOverride all "telemetryLevel" fun d ↦ d.telemetry.bind Telemetry.level
    telemetryRetentionDays :=
      ← resolveOverride all "telemetryRetentionDays" fun d ↦
        d.telemetry.bind Telemetry.retentionDays
    budgets := ← resolveBudgets all
    toolOutput := ← resolveToolOutput all
    permissionProfile := clamp desiredProfile maxProfile PermissionProfile.rank
    isolation := clamp desiredIsolation maxIsolation IsolationMode.rank
    network := network
    maxProfile := maxProfile
    maxIsolation := maxIsolation
    networkAllowed := networkAllowed
    deny := resolveDeny all }

end QwenHarness.Config
