import QwenHarness.Policy.Managed

/-!
# The permission engine

A verdict goes through the stages in order: the profile, protected paths, the rules, the grants, the
hooks, the managed ceiling, and last the passthrough of what the user does directly. Two flags
travel with it. A sealed verdict is not loosened by a rule, and one that only an exact grant may
loosen is not loosened by a rule or a rule grant.

Every stage adds to the trace what it did and why.
-/

namespace QwenHarness.Policy

/-! ## Decisions -/

inductive DecisionOutcome where
  | allow
  | deny
  | ask
  | passthrough
deriving DecidableEq, Repr

/-- A passthrough is an `allow` that nobody was asked about. -/
def DecisionOutcome.restriction : DecisionOutcome → Restriction
  | .allow => .allow
  | .deny => .deny
  | .ask => .ask
  | .passthrough => .allow

def Restriction.outcome : Restriction → DecisionOutcome
  | .allow => .allow
  | .ask => .ask
  | .deny => .deny

@[simp] theorem Restriction.restriction_outcome (a : Restriction) : a.outcome.restriction = a := by
  cases a <;> rfl

inductive DecisionStage where
  | inputValidation
  | profile
  | protectedPath
  | rule
  | grant
  | hook
  | managed
  | userPassthrough
deriving DecidableEq, Repr

structure DecisionSource where
  stage : DecisionStage
  id : String
deriving DecidableEq, Repr

structure DecisionStep where
  stage : DecisionStage
  id : String
  /-- Nothing, if the stage has no opinion. -/
  effect : Option DecisionOutcome
  note : String
deriving DecidableEq, Repr

structure PolicyDecision where
  outcome : DecisionOutcome
  reason : String
  source : DecisionSource
  actionDigest : String
  description : String
  protectedMatches : List ProtectedMatch
  /-- Every stage in order. -/
  steps : List DecisionStep
deriving DecidableEq, Repr

structure PolicyContext where
  profile : PermissionProfile
  managedPolicy : ManagedPolicy
  rules : List PolicyRule
  grants : List Grant
  workspaceRoot : String
  homeDir : String
  now : ℤ
  actor : Actor
  /-- What a hook said about the action. -/
  hookOutcome : Option DecisionOutcome
deriving DecidableEq, Repr

structure Verdict where
  effect : Restriction
  /-- No rule may loosen this. -/
  isSealed : Bool
  /-- Only a grant for exactly this action may loosen this. -/
  exactGrantOnly : Bool
  source : DecisionSource
  reason : String
deriving DecidableEq, Repr

/-- A verdict on its way through the stages. -/
structure Progress where
  verdict : Verdict
  steps : List DecisionStep
  managedForcedAsk : Bool

/-- Leave the verdict and say something about it. -/
def Progress.remark (p : Progress) (stage : DecisionStage) (id note : String) : Progress :=
  { p with steps := p.steps ++ [⟨stage, id, none, note⟩] }

/-- Replace the verdict, and say so under the stage and the id of its source. -/
def Progress.turn (p : Progress) (v : Verdict) (note : String) : Progress :=
  { p with
    verdict := v
    steps := p.steps ++ [⟨v.source.stage, v.source.id, some v.effect.outcome, note⟩] }

/-! ## The profile -/

/-- What `auto-accept-edits` allows, or why it asks. -/
def autoAcceptEditsAllows (action : NormalizedAction) (ctx : PolicyContext) : Option String :=
  let ordinary (createsExecutable : Bool) : Option String :=
    match (actionPaths action).find? fun path ↦ !isWithin ctx.workspaceRoot path with
    | some path => some (path ++ " is outside the workspace root; external paths ask")
    | none =>
      (actionPaths action).findSome? fun path ↦
        (sensitiveEditReason path createsExecutable).map fun reason ↦
          path ++ " is a " ++ reason.name ++ "; it still asks in auto-accept-edits"
  match action with
  | .shell .. => some "shell commands always ask in auto-accept-edits, including mkdir, mv and cp"
  | .network .. => some "network access always asks in auto-accept-edits"
  | .gitWrite _ _ destructive _ =>
    some (if destructive then "destructive Git always asks"
      else "Git writes always ask in auto-accept-edits")
  | .mcp .. => some "MCP side effects always ask in auto-accept-edits"
  | .fileWrite _ createsExecutable _ => ordinary createsExecutable
  | .fileEdit _ createsExecutable _ => ordinary createsExecutable
  | .patch _ createsExecutable _ => ordinary createsExecutable
  | _ => ordinary false

/-- A verdict of the profile, not sealed. -/
def profileVerdict (profile : PermissionProfile) (effect : Restriction) (reason : String) :
    Verdict :=
  ⟨effect, false, false, ⟨.profile, "profile:" ++ profile.name⟩, reason⟩

def profileStage (action : NormalizedAction) (ctx : PolicyContext) : Verdict :=
  let verdict := profileVerdict ctx.profile
  if ctx.actor.kind = .user then
    verdict .allow "direct user action; the profile prompt gate applies to the agent, not the user"
  else if isSideEffect action = false then
    verdict .allow "read/search/analysis is available in every profile"
  else
    match ctx.profile with
    | .plan =>
      { verdict .deny ("'" ++ action.kind.name ++
          "' is unavailable in plan: plan exposes read, search and analysis only") with
        isSealed := true }
    | .yolo => verdict .allow "yolo: no interactive prompts; the managed ceiling still applies"
    | .autoAcceptEdits =>
      match autoAcceptEditsAllows action ctx with
      | none => verdict .allow "dedicated workspace file tool inside the workspace root"
      | some why => verdict .ask why
    | .ask => verdict .ask "ask: every side effect prompts with its exact normalized parameters"

/-! ## Protected paths -/

/-- Everything protected that the action touches. The git tool shows a safe part of a repository
and touches nothing else. -/
def protectedMatches (sys : Platform) (action : NormalizedAction) (ctx : PolicyContext) :
    List ProtectedMatch :=
  match action with
  | .network _ url host _ _ =>
    if isMetadataHost sys host then
      [⟨"cloud-metadata-endpoint", .metadataEndpoint, host, url,
        "the cloud instance-metadata endpoint hands out instance credentials"⟩]
    else []
  | .gitRead .. => []
  | .gitWrite .. => []
  | _ =>
    (actionPaths action).flatMap fun path ↦
      classifyPath path (if isWriteAction action then .write else .read) ctx.workspaceRoot
        ctx.homeDir

def protectedVerdict (profile : PermissionProfile) (first : ProtectedMatch) (summary : String) :
    Verdict :=
  let source : DecisionSource := ⟨.protectedPath, first.ruleId⟩
  match profile with
  | .plan => ⟨.deny, true, false, source, "plan denies protected access: " ++ summary⟩
  | .yolo =>
    ⟨.allow, false, false, source,
      "yolo: " ++ summary ++ " is reachable unless managed policy denies it"⟩
  | _ =>
    ⟨.ask, true, true, source,
      summary ++ " requires an exact approval for this specific action"⟩

/-- A protected path only tightens, except under `yolo`. -/
def protectedStage (profile : PermissionProfile) (found : List ProtectedMatch) (p : Progress) :
    Progress :=
  match found with
  | [] => p
  | first :: _ =>
    let summary := ", ".intercalate
      (found.map fun m ↦ m.ruleId ++ " (" ++ m.cls.name ++ ")")
    let pv := protectedVerdict profile first summary
    let verdict :=
      if profile = .yolo ∨ p.verdict.effect ≤ pv.effect then pv
      else { p.verdict with isSealed := true }
    { p with
      verdict
      steps := p.steps ++ [⟨.protectedPath, first.ruleId, some verdict.effect.outcome,
        summary ++ ": " ++ first.why⟩] }

/-! ## Rules -/

/-- What is said about a rule of the repository that would allow. -/
def downgradeSteps (merged : RuleMerge) : List DecisionStep :=
  merged.matches.filterMap fun m ↦
    if m.downgradedFrom = none then none
    else some ⟨.rule, m.rule.id, none, "scope '" ++ m.rule.scope.name ++
      "' may not allow; repository content cannot add authority"⟩

/-- Turn to what the rules say if that is tighter, or if they allow what is only asked about. -/
def ruleStage (merged : RuleMerge) (p : Progress) : Progress :=
  let p : Progress := { p with steps := p.steps ++ downgradeSteps merged }
  match merged.winner with
  | none => p
  | some (winner, effect) =>
    let rule := winner.rule
    let v := p.verdict
    if v.effect < effect then
      p.turn ⟨effect, decide (effect = .deny), v.exactGrantOnly, ⟨.rule, rule.id⟩, rule.reason⟩
        rule.reason
    else if v.isSealed ∨ v.exactGrantOnly then
      p.remark .rule rule.id
        (if v.exactGrantOnly then
          "protected path: only an exact approval can loosen this, not a rule"
        else "verdict is sealed; a rule cannot loosen it")
    else if effect = .allow ∧ v.effect = .ask then
      p.turn ⟨.allow, false, false, ⟨.rule, rule.id⟩, rule.reason⟩ rule.reason
    else p.remark .rule rule.id "the profile verdict is already at least this restrictive"

/-! ## Grants -/

/-- A usable grant turns a question into an `allow`, and nothing else. -/
def grantStage (action : NormalizedAction) (ctx : PolicyContext) (digest : String) (p : Progress) :
    Progress :=
  if p.verdict.effect = .ask then
    let lookup :=
      findGrant action ctx.homeDir digest p.verdict.exactGrantOnly ctx.now ctx.grants
    let p : Progress :=
      { p with
        steps := p.steps ++ lookup.rejected.map fun (grant, reason) ↦
          ⟨.grant, grant.id, none, "matched but unusable: " ++ reason.name⟩ }
    match lookup.grant with
    | none => p
    | some grant =>
      p.turn
        ⟨.allow, false, false, ⟨.grant, grant.id⟩,
          "granted (" ++ grant.scope.name ++ "): " ++ grant.reason⟩
        ("scope " ++ grant.scope.name ++ ", granted by " ++ grant.grantedBy)
  else if ctx.grants ≠ [] then
    p.remark .grant "grants"
      (if p.verdict.effect = .deny then "a grant cannot authorize a denied action"
      else "no approval needed")
  else p

/-! ## Hooks -/

/-- A hook may restrict. -/
def hookRestrict (hook : Restriction) (p : Progress) : Progress :=
  if p.verdict.effect < hook then
    p.turn
      ⟨hook, decide (hook = .deny), p.verdict.exactGrantOnly, ⟨.hook, "hook"⟩,
        "a hook restricted this action to '" ++ (if hook = .deny then "deny" else "ask") ++ "'"⟩
      "hook restricted the action"
  else p.remark .hook "hook" "policy is already at least this restrictive"

/-- An `allow` of a hook is recorded and has no effect. -/
def hookStage (hookOutcome : Option DecisionOutcome) (p : Progress) : Progress :=
  match hookOutcome with
  | none => p
  | some .passthrough => p
  | some .allow =>
    p.remark .hook "hook" "a hook allow never elevates permission; policy decides"
  | some .ask => hookRestrict .ask p
  | some .deny => hookRestrict .deny p

/-! ## The managed ceiling -/

def networkStage (action : NormalizedAction) (managed : ManagedPolicy) (p : Progress) : Progress :=
  if action.kind = .network ∧ managed.networkAllowed = false then
    p.turn
      ⟨.deny, true, false, ⟨.managed, "managed.network-disabled"⟩,
        "managed policy disables network access entirely"⟩
      "managed ceiling: network is off"
  else p

/-- The rules of the ceiling in order, up to the first that denies. -/
def managedRules (action : NormalizedAction) (homeDir digest : String) :
    List ManagedRule → Progress → Progress
  | [], p => p
  | rule :: rules, p =>
    if rule.applies action homeDir digest = false then managedRules action homeDir digest rules p
    else
      match rule.effect with
      | .deny => p.turn ⟨.deny, true, false, ⟨.managed, rule.id⟩, rule.reason⟩ rule.reason
      | .ask =>
        if p.verdict.effect = .allow then
          managedRules action homeDir digest rules
            { p.turn ⟨.ask, false, true, ⟨.managed, rule.id⟩, rule.reason⟩ rule.reason with
              managedForcedAsk := true }
        else managedRules action homeDir digest rules p

/-! ## The whole of it -/

/-- Everything before the passthrough. -/
def stages (sys : Platform) (action : NormalizedAction) (ctx : PolicyContext) : Progress :=
  let digest := actionDigest sys action
  let merged := mergeRules ctx.rules action ctx.homeDir digest
  let v := profileStage action ctx
  let start : Progress :=
    ⟨v,
      [⟨.inputValidation, "canonical-action", none, "action is canonical"⟩,
        ⟨.profile, v.source.id, some v.effect.outcome, v.reason⟩], false⟩
  managedRules action ctx.homeDir digest ctx.managedPolicy.rules
    (networkStage action ctx.managedPolicy
      (hookStage ctx.hookOutcome
        (grantStage action ctx digest
          (ruleStage merged
            (protectedStage ctx.profile (protectedMatches sys action ctx) start)))))

/-- Judge an action. What is not canonical is denied; what the profile allows to the user directly
passes through. -/
def evaluate (sys : Platform) (action : NormalizedAction) (ctx : PolicyContext) : PolicyDecision :=
  let digest := actionDigest sys action
  let description := describeAction action
  let failures := checkCanonicalAction sys action
  if failures ≠ [] then
    let detail := "; ".intercalate
      (failures.map fun f ↦ (if f.path = "" then "<none>" else f.path) ++ ": " ++ f.why)
    ⟨.deny, "action is not canonical (" ++ detail ++ ")", ⟨.inputValidation, "canonical-action"⟩,
      digest, description, [],
      [⟨.inputValidation, "canonical-action", some .deny, detail⟩]⟩
  else
    let p := stages sys action ctx
    let found := protectedMatches sys action ctx
    let v := p.verdict
    if ctx.actor.kind = .user ∧ v.effect = .allow ∧ v.isSealed = false ∧
        p.managedForcedAsk = false ∧ v.source.stage = .profile then
      ⟨.passthrough, "direct user action", ⟨.userPassthrough, ctx.actor.id⟩, digest, description,
        found,
        p.steps ++ [⟨.userPassthrough, ctx.actor.id, some .passthrough,
          "direct user action: no model-approval gate; isolation, audit and redaction still " ++
            "apply"⟩]⟩
    else ⟨v.effect.outcome, v.reason, v.source, digest, description, found, p.steps⟩

end QwenHarness.Policy
